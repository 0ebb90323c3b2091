import LruCache.Web.Model

/-!
# How requests are taken apart

The requests of `public/app.js`, and what `serve` makes of them. `requestPath` gets back the path
if it has no blank in it. `getQueryParam` looks for the name of the parameter in front of each
'=' in turn, and takes what follows up to the next '&'.

Main results:

* `getQueryParam_eq`, `getQueryParam_marker` — what `get_query_param` finds.
* `serve_put`, `serve_get`, `serve_remove`, `serve_batch` — what `main` makes of the requests of
  the page.

Deliberate scope limits:

* Keys and values are `Clean`: they have no '&', '=' or blank. What comes of texts that were typed
  is in `LruCache.Web.Query`.
* The server is asked by its page. Other requests, such as those of a test with its own path, are
  served by `serve` as well; `LruCache.Web.Connections` is about all of them.
-/

namespace LruCache

/-! ## Requests of the front end -/

/-- What arrives of `fetch(url, {method: 'POST'})`, the address being carried as it is; the rest
is the version and the headers. -/
def fetchPost (url rest : String) : String := "POST " ++ url ++ " HTTP" ++ rest

/-- The address that `reqApi` fetches. -/
def apiUrl (endpoint query : String) : String := "/api/" ++ endpoint ++ "?" ++ query

/-- What `executeOp` fetches for a put. -/
def putUrl (key value : String) : String := apiUrl "put" ("key=" ++ key ++ "&value=" ++ value)

/-- For a get. -/
def getUrl (key : String) : String := apiUrl "get" ("key=" ++ key)

/-- For a removal. -/
def removeUrl (key : String) : String := apiUrl "remove" ("key=" ++ key)

/-- What `runSimulation` fetches; nothing is encoded. -/
def batchUrl (batchStr : String) : String := "/api/batch?ops=" ++ batchStr

/-! ## The path and the parameters -/

section Parts

variable {a b param path rest : String}

/-- The first blank of a request is in front of the path, the second one behind it. -/
theorem requestPath_fetchPost (hslash : path.toList.head? = some '/')
    (hblank : ' ' ∉ path.toList) : requestPath (fetchPost path rest) = path := by
  have htext : (fetchPost path rest).toList =
      ['P', 'O', 'S', 'T'] ++
        ' ' :: (path.toList ++ ' ' :: (['H', 'T', 'T', 'P'] ++ rest.toList)) := by
    simp [fetchPost]
  have hpattern : " HTTP".toList = ' ' :: ['H', 'T', 'T', 'P'] := rfl
  have hno : ¬ ['H', 'T', 'T', 'P'] <+:
      path.toList ++ ' ' :: (['H', 'T', 'T', 'P'] ++ rest.toList) := by
    intro hstarts
    cases hpath : path.toList with
    | nil => simp [hpath] at hslash
    | cons ch chars =>
      rw [hpath] at hslash hstarts
      cases hslash
      exact absurd (List.cons_prefix_cons.mp hstarts).1 (by decide)
  have hfind : find (fetchPost path rest) " HTTP" 0 = some (path.toList.length + 5) := by
    rw [find_zero, htext, hpattern, Search.firstIndex_marker_cons (by decide), if_neg hno,
      Search.firstIndex_marker_cons hblank, if_pos (List.prefix_append ..)]
    rfl
  rw [requestPath, hfind, Option.map_some, substr, htext]
  simp

/-- The parameter is looked for as a text: the first `name=` in the path counts, wherever it is,
and what follows it up to the next '&' is the value. -/
theorem getQueryParam_eq (path param : String) : getQueryParam path param =
    ((Search.firstIndex (param.toList ++ ['=']) path.toList).map fun pos => String.ofList
      ((path.toList.drop (pos + (param.length + 1))).takeWhile (· ≠ '&'))).getD "" := by
  have hpattern : (param ++ "=").toList = param.toList ++ ['='] := String.toList_append
  rw [getQueryParam, find_zero, hpattern]
  cases Search.firstIndex (param.toList ++ ['=']) path.toList with
  | none => rfl
  | some pos => exact substr_find path (pos + (param.length + 1)) '&'

/-- At the first '=' the parameter is found or passed over. -/
theorem getQueryParam_marker (hparam : '=' ∉ param.toList) (ha : '=' ∉ a.toList) :
    getQueryParam (a ++ "=" ++ b) param =
      if param.toList <:+ a.toList then .ofList (b.toList.takeWhile (· ≠ '&'))
      else getQueryParam b param := by
  have htext : (a ++ "=" ++ b).toList = a.toList ++ '=' :: b.toList := by simp
  have hdrop : ∀ n, (a.toList ++ '=' :: b.toList).drop (a.toList.length + 1 + n) =
      b.toList.drop n := by
    intro n
    rw [← List.drop_drop, ← List.drop_drop, List.drop_left, List.drop_one, List.tail_cons]
  rw [getQueryParam_eq, getQueryParam_eq, htext, Search.firstIndex_concat_marker hparam ha]
  split
  · rename_i hsuffix
    have hle := hsuffix.length_le
    have hpos : a.toList.length - param.toList.length + (param.length + 1) =
        a.toList.length + 1 + 0 := by
      rw [← String.length_toList (s := param)]
      omega
    rw [Option.map_some, Option.getD_some, hpos, hdrop, List.drop_zero]
  · cases Search.firstIndex (param.toList ++ ['=']) b.toList with
    | none => rfl
    | some pos =>
      have hpos : pos + (a.toList.length + 1) + (param.length + 1) =
          a.toList.length + 1 + (pos + (param.length + 1)) := by omega
      simp only [Option.map_some, Option.getD_some, hpos, hdrop]

/-- No character that has a meaning in a request. -/
structure Clean (str : String) : Prop where
  ampersand : '&' ∉ str.toList
  equals : '=' ∉ str.toList
  blank : ' ' ∉ str.toList

instance (str : String) : Decidable (Clean str) :=
  decidable_of_iff ('&' ∉ str.toList ∧ '=' ∉ str.toList ∧ ' ' ∉ str.toList)
    ⟨fun h => ⟨h.1, h.2.1, h.2.2⟩, fun h => ⟨h.ampersand, h.equals, h.blank⟩⟩

/-- The server gets the addresses back: there is no blank in them. -/
theorem requestPath_putUrl {key value : String} (hkey : Clean key) (hvalue : Clean value)
    (rest : String) : requestPath (fetchPost (putUrl key value) rest) = putUrl key value :=
  requestPath_fetchPost (by simp [putUrl, apiUrl])
    (by simp [putUrl, apiUrl, hkey.blank, hvalue.blank])

theorem requestPath_getUrl {key : String} (hkey : Clean key) (rest : String) :
    requestPath (fetchPost (getUrl key) rest) = getUrl key :=
  requestPath_fetchPost (by simp [getUrl, apiUrl]) (by simp [getUrl, apiUrl, hkey.blank])

theorem requestPath_removeUrl {key : String} (hkey : Clean key) (rest : String) :
    requestPath (fetchPost (removeUrl key) rest) = removeUrl key :=
  requestPath_fetchPost (by simp [removeUrl, apiUrl]) (by simp [removeUrl, apiUrl, hkey.blank])

/-- Without '&' in it, a text is taken up to its end. -/
theorem takeWhile_ampersand (h : '&' ∉ a.toList) :
    String.ofList (a.toList.takeWhile (· ≠ '&')) = a := by
  have hall : ∀ ch ∈ a.toList, decide (ch ≠ '&') = true :=
    fun ch hch => decide_eq_true fun heq => h (heq ▸ hch)
  rw [List.takeWhile_eq_self_iff.mpr hall, String.ofList_toList]

/-- The first '=' of an address is the one behind `key`. -/
theorem apiUrl_key {endpoint : String} (h : '=' ∉ endpoint.toList) (query : String) :
    getQueryParam (apiUrl endpoint ("key=" ++ query)) "key" =
      .ofList (query.toList.takeWhile (· ≠ '&')) := by
  have hurl : apiUrl endpoint ("key=" ++ query) =
      ("/api/" ++ endpoint ++ "?key") ++ "=" ++ query := by
    apply String.toList_inj.mp
    simp [apiUrl]
  have hequals : '=' ∉ ("/api/" ++ endpoint ++ "?key").toList := by simpa using h
  have hsuffix : "key".toList <:+ ("/api/" ++ endpoint ++ "?key").toList :=
    ⟨("/api/" ++ endpoint ++ "?").toList, by simp⟩
  rw [hurl, getQueryParam_marker (by decide) hequals, if_pos hsuffix]

/-- So the key is found where it was put. -/
theorem putUrl_key {key value : String} (hkey : Clean key) :
    getQueryParam (putUrl key value) "key" = key := by
  have hquery : (key ++ ("&value=" ++ value)).toList =
      key.toList ++ '&' :: ("value=" ++ value).toList := by simp
  rw [putUrl, String.append_assoc, String.append_assoc, apiUrl_key (by decide), hquery,
    Search.takeWhile_marker hkey.ampersand, String.ofList_toList]

/-- The name of the second parameter is not found at the first '='. -/
theorem putUrl_value {key value : String} (hkey : Clean key) (hvalue : Clean value) :
    getQueryParam (putUrl key value) "value" = value := by
  have hurl : putUrl key value = "/api/put?key" ++ "=" ++ ((key ++ "&value") ++ "=" ++ value) := by
    apply String.toList_inj.mp
    simp [putUrl, apiUrl]
  have hequals : '=' ∉ (key ++ "&value").toList := by simpa using hkey.equals
  have hsuffix : "value".toList <:+ (key ++ "&value").toList :=
    ⟨(key ++ "&").toList, by simp⟩
  rw [hurl, getQueryParam_marker (by decide) (by decide), if_neg (by decide),
    getQueryParam_marker (by decide) hequals, if_pos hsuffix, takeWhile_ampersand hvalue.ampersand]

theorem getUrl_key {key : String} (hkey : Clean key) : getQueryParam (getUrl key) "key" = key := by
  rw [getUrl, apiUrl_key (by decide), takeWhile_ampersand hkey.ampersand]

theorem removeUrl_key {key : String} (hkey : Clean key) :
    getQueryParam (removeUrl key) "key" = key := by
  rw [removeUrl, apiUrl_key (by decide), takeWhile_ampersand hkey.ampersand]

/-- The operations of a batch are found, with all their commas and bars. -/
theorem batchUrl_ops {batchStr : String} (h : '&' ∉ batchStr.toList) :
    getQueryParam (batchUrl batchStr) "ops" = batchStr := by
  have hpath : "/api/batch?ops=" = "/api/batch?ops" ++ "=" := by decide
  unfold batchUrl
  rw [hpath, getQueryParam_marker (by decide) (by decide), if_pos (by decide),
    takeWhile_ampersand h]

end Parts

/-! ## What is served -/

section Serve

variable (platform : Platform) (server : Server) (rest : String)

/-- A put of the page is a put of the server, answered with the state after it. -/
theorem serve_put {key value : String} (hkey : Clean key) (hvalue : Clean value)
    (hne : key ≠ "") (hne' : value ≠ "") :
    serve platform (fetchPost (putUrl key value) rest) server = (do
      let server ← server.put platform key value
      return (server.jsonResponse platform, server)) := by
  have hrequest : fetchPost (putUrl key value) rest =
      "POST /api/put?key=" ++ (key ++ "&value=" ++ value ++ " HTTP" ++ rest) := by
    apply String.toList_inj.mp
    simp [fetchPost, putUrl, apiUrl]
  have hserve : ∀ text, serve platform ("POST /api/put?key=" ++ text) server = (do
      let path := requestPath ("POST /api/put?key=" ++ text)
      let key := getQueryParam path "key"
      let val := getQueryParam path "value"
      let server ← (if key ≠ "" ∧ val ≠ "" then server.put platform key val else .ok server)
      return (server.jsonResponse platform, server)) := by
    intro text
    simp (disch := decide) [serve, beginsWith_append]
  rw [hrequest, hserve, ← hrequest, requestPath_putUrl hkey hvalue rest]
  simp only [putUrl_key hkey, putUrl_value hkey hvalue]
  rw [if_pos ⟨hne, hne'⟩]

/-- A get of the page. -/
theorem serve_get {key : String} (hkey : Clean key) (hne : key ≠ "") :
    serve platform (fetchPost (getUrl key) rest) server = (do
      let server ← server.get platform key
      return (server.jsonResponse platform, server)) := by
  have hrequest : fetchPost (getUrl key) rest =
      "POST /api/get?key=" ++ (key ++ " HTTP" ++ rest) := by
    apply String.toList_inj.mp
    simp [fetchPost, getUrl, apiUrl]
  have hserve : ∀ text, serve platform ("POST /api/get?key=" ++ text) server = (do
      let key := getQueryParam (requestPath ("POST /api/get?key=" ++ text)) "key"
      let server ← (if key ≠ "" then server.get platform key else .ok server)
      return (server.jsonResponse platform, server)) := by
    intro text
    simp (disch := decide) [serve, beginsWith_append]
  rw [hrequest, hserve, ← hrequest, requestPath_getUrl hkey rest]
  simp only [getUrl_key hkey]
  rw [if_pos hne]

/-- A removal of the page. -/
theorem serve_remove {key : String} (hkey : Clean key) (hne : key ≠ "") :
    serve platform (fetchPost (removeUrl key) rest) server = (do
      let server ← server.remove platform key
      return (server.jsonResponse platform, server)) := by
  have hrequest : fetchPost (removeUrl key) rest =
      "POST /api/remove?key=" ++ (key ++ " HTTP" ++ rest) := by
    apply String.toList_inj.mp
    simp [fetchPost, removeUrl, apiUrl]
  have hserve : ∀ text, serve platform ("POST /api/remove?key=" ++ text) server = (do
      let key := getQueryParam (requestPath ("POST /api/remove?key=" ++ text)) "key"
      let server ← (if key ≠ "" then server.remove platform key else .ok server)
      return (server.jsonResponse platform, server)) := by
    intro text
    simp (disch := decide) [serve, beginsWith_append]
  rw [hrequest, hserve, ← hrequest, requestPath_removeUrl hkey rest]
  simp only [removeUrl_key hkey]
  rw [if_pos hne]

/-- A batch of the page is one run of the loop over its operations. -/
theorem serve_batch {batchStr : String} (hampersand : '&' ∉ batchStr.toList)
    (hblank : ' ' ∉ batchStr.toList) :
    serve platform (fetchPost (batchUrl batchStr) rest) server = (do
      let (jsonArray, server) ← batchLoop platform (getlines batchStr '|') "[" true server
      return (.ok "application/json" (jsonArray ++ "]"), server)) := by
  have hpath : requestPath (fetchPost (batchUrl batchStr) rest) = batchUrl batchStr := by
    unfold batchUrl
    exact requestPath_fetchPost (by simp) (by simp [hblank])
  have hrequest : fetchPost (batchUrl batchStr) rest =
      "POST /api/batch?ops=" ++ (batchStr ++ " HTTP" ++ rest) := by
    unfold batchUrl fetchPost
    apply String.toList_inj.mp
    simp
  have hserve : ∀ text, serve platform ("POST /api/batch?ops=" ++ text) server = (do
      let ops := getQueryParam (requestPath ("POST /api/batch?ops=" ++ text)) "ops"
      let (jsonArray, server) ← batchLoop platform (getlines ops '|') "[" true server
      return (.ok "application/json" (jsonArray ++ "]"), server)) := by
    intro text
    simp (disch := decide) [serve, beginsWith_append]
  rw [hrequest, hserve, ← hrequest, hpath]
  simp only [batchUrl_ops hampersand]

end Serve

end LruCache
