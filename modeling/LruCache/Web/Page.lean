import LruCache.Web.Query
import LruCache.Web.Texts

/-!
# The page and the server

What `public/app.js` asks the server for, and the whole way of a request: it is cut off at the
size of the receive buffer, it is served, and the page reads the body of the answer.

Main results:

* `PageOp.url_request`, `PageOp.plain_request` — what `executeOp` fetches is the address of an
  operation on the encoded texts, and these are such as the server takes apart.
* `Server.Stores.exchange` — one request does to the server what it does to the store of texts.
* `page_served` — from the start of the server on, every answer to the page is that of a
  least-recently-used store of the texts that the page has sent.

Deliberate scope limits:

* The texts of a request are those that the address carries, so what was typed is there in its
  encoded form: the store is one of `a%20b`, not of `a b` (`agree_iff` is about the difference).
* Such texts are ASCII. The 4095 characters of the buffer are its 4095 bytes then, and a request
  arrives with one `recv`.
* The results ask for texts that are `Plain`, and for first lines that fit into the buffer: the
  page does not look at the length of what is typed, and a longer key is cut.
-/

namespace LruCache

open Recency Transition

/-! ## Requests -/

/-- What arrives of `fetch(url)`. -/
def fetchGet (url rest : String) : String := "GET " ++ url ++ " HTTP" ++ rest

def resetUrl (capacity : String) : String := apiUrl "reset" ("capacity=" ++ capacity)

/-- What the page asks for: an operation of `executeOp`, the reset of `bootSystem` and `exitSim`,
the state, and the batch of `runSimulation`. -/
inductive PageRequest where
  | operation (op : Operation)
  | reset (capacity : String)
  | state
  | batch (ops : List Operation)

/-- What `executeOp` asks for, if it does, with what is in the two fields. -/
def PageOp.request (op : PageOp) (k v : String) : Option Operation :=
  match op with
  | .put =>
      if k = "" ∨ v = "" then none
      else some (.put (encodeURIComponent k) (encodeURIComponent v))
  | .get => if k = "" then none else some (.get (encodeURIComponent k))
  | .del => if k = "" then none else some (.remove (encodeURIComponent k))

namespace PageRequest

/-- The address that is fetched. -/
def url : PageRequest → String
  | .operation op => op.url
  | .reset capacity => resetUrl capacity
  | .state => "/api/state"
  | .batch ops => batchUrl (batchStr ops)

/-- The text of the request; `rest` is the version and the headers. -/
def text (req : PageRequest) (rest : String) : String :=
  match req with
  | .state => fetchGet req.url rest
  | _ => fetchPost req.url rest

/-- The texts that are entered with the request. -/
def texts : PageRequest → List String
  | .operation op => op.texts
  | .reset _ => []
  | .state => []
  | .batch ops => ops.flatMap Operation.texts

/-- The number of operations of the request. -/
def cost : PageRequest → Nat
  | .operation _ => 1
  | .reset _ => 0
  | .state => 0
  | .batch ops => ops.length

/-- The server takes the texts out of the request as they are. -/
protected def Plain : PageRequest → Prop
  | .operation op => op.Plain
  | .reset capacity => Clean capacity
  | .state => True
  | .batch ops => ∀ op ∈ ops, op.Plain

instance : ∀ req : PageRequest, Decidable req.Plain
  | .operation op => inferInstanceAs (Decidable op.Plain)
  | .reset capacity => inferInstanceAs (Decidable (Clean capacity))
  | .state => instDecidableTrue
  | .batch ops => List.decidableBAll Operation.Plain ops

/-- What the page makes of the body. -/
def read (browser : Browser) (req : PageRequest) (body : String) : Option (List StateView) :=
  match req with
  | .batch _ => browser.array body
  | _ => (browser.state body).map fun view => [view]

/-- The request on a store of texts, with the states that it is answered with. -/
def step (req : PageRequest) (st : State String String) :
    List StateView × State String String :=
  match req with
  | .operation op => ([viewOf (op.next st)], op.next st)
  | .reset capacity =>
      let st := State.init (capacityOf capacity) (capacityOf_pos capacity)
      ([viewOf st], st)
  | .state => ([viewOf st], st)
  | .batch ops => runTotal Operation.step ops st

end PageRequest

/-! ## The way of a request -/

/-- What `recv` puts into the buffer. -/
def recv (request : String) : String := substr request 0 (some 4095)

/-- The start of `main`: a cache of capacity 10. -/
def Server.start : Except Fault Server := do
  let cache ← Cache.new 10
  return { cache := cache, registry := Registry.empty }

section Exchange

variable (platform : Platform) (browser : Browser)

/-- A request of the page, with its headers, and what the page reads of the answer. -/
def exchange (req : PageRequest × String) (server : Server) :
    Except Fault (Option (List StateView) × Server) := do
  let (response, server) ← serve platform (recv (req.1.text req.2)) server
  return (req.1.read browser response.body, server)

end Exchange

/-! ## What is typed -/

section Typed

variable {op : PageOp} {k v : String} {operation : Operation}

/-- What is typed into a field is encoded to a text that can stand in an address and in a batch. -/
theorem plain_encodeURIComponent {str : String} (h : str ≠ "") :
    Plain (encodeURIComponent str) := by
  refine ⟨clean_encodeURIComponent str, ?_, notMem_encodeURIComponent str (by decide),
    notMem_encodeURIComponent str (by decide)⟩
  intro hempty
  rcases List.exists_cons_of_ne_nil (fun hnil => h (String.toList_eq_nil_iff.mp hnil)) with
    ⟨ch, chars, hchars⟩
  have hlen := (length_encodeChar ch).1
  have hpos := ch.utf8Size_pos
  rw [← String.length_utf8EncodeChar] at hpos
  have hnone := congrArg String.toList hempty
  rw [encodeURIComponent, String.toList_ofList, hchars, List.flatMap_cons] at hnone
  rw [(List.append_eq_nil_iff.mp hnone).1] at hlen
  exact absurd hlen (Nat.not_le_of_lt hpos)

/-- `executeOp` fetches the address of the operation. -/
theorem PageOp.url_request (op : PageOp) (k v : String) :
    (op.request k v).map Operation.url = executeOp op k v := by
  cases op with
  | put =>
    rw [PageOp.request, executeOp]
    split <;> rfl
  | get =>
    rw [PageOp.request, executeOp]
    split <;> rfl
  | del =>
    rw [PageOp.request, executeOp]
    split <;> rfl

/-- Whatever is typed, what is sent of it can be taken apart again. -/
theorem PageOp.plain_request (h : op.request k v = some operation) : operation.Plain := by
  cases op with
  | put =>
    rw [PageOp.request] at h
    split at h
    · cases h
    · rename_i hne
      rcases not_or.mp hne with ⟨hk, hv⟩
      cases h
      exact ⟨plain_encodeURIComponent hk, plain_encodeURIComponent hv⟩
  | get =>
    rw [PageOp.request] at h
    split at h
    · cases h
    · rename_i hk
      cases h
      exact plain_encodeURIComponent hk
  | del =>
    rw [PageOp.request] at h
    split at h
    · cases h
    · rename_i hk
      cases h
      exact plain_encodeURIComponent hk

end Typed

/-! ## The buffer -/

section Buffer

variable {req : PageRequest} {url : String}

/-- A request whose first line fits into the buffer loses headers at most. -/
theorem recv_line (method rest : String) (hfit : (method ++ url ++ " HTTP").length ≤ 4095) :
    ∃ rest', recv (method ++ url ++ " HTTP" ++ rest) = method ++ url ++ " HTTP" ++ rest' := by
  refine ⟨.ofList (rest.toList.take (4095 - (method ++ url ++ " HTTP").length)), ?_⟩
  rw [recv, substr, List.drop_zero]
  apply String.toList_inj.mp
  rw [String.toList_ofList, String.toList_append, List.take_append, String.length_toList,
    List.take_of_length_le (by rw [String.length_toList]; exact hfit)]
  simp

/-- The first line of the request is in the buffer. -/
def PageRequest.Fits (req : PageRequest) : Prop := req.url.length + 10 ≤ 4095

instance (req : PageRequest) : Decidable req.Fits := inferInstanceAs (Decidable (_ ≤ _))

theorem PageRequest.Fits.recv (h : req.Fits) (rest : String) :
    ∃ rest', LruCache.recv (req.text rest) = req.text rest' := by
  have hget : "GET ".length = 4 := rfl
  have hpost : "POST ".length = 5 := rfl
  have hversion : " HTTP".length = 5 := rfl
  have hfits : req.url.length + 10 ≤ 4095 := h
  cases req with
  | state =>
    exact recv_line "GET " rest (by rw [String.length_append, String.length_append]; omega)
  | operation op =>
    exact recv_line "POST " rest (by rw [String.length_append, String.length_append]; omega)
  | reset capacity =>
    exact recv_line "POST " rest (by rw [String.length_append, String.length_append]; omega)
  | batch ops =>
    exact recv_line "POST " rest (by rw [String.length_append, String.length_append]; omega)

end Buffer

/-! ## What is served -/

section Serve

variable (platform : Platform) (server : Server) (rest : String)

theorem resetUrl_capacity {capacity : String} (h : '&' ∉ capacity.toList) :
    getQueryParam (resetUrl capacity) "capacity" = capacity := by
  have hurl : resetUrl capacity = "/api/reset?capacity" ++ "=" ++ capacity := by
    apply String.toList_inj.mp
    simp [resetUrl, apiUrl]
  rw [hurl, getQueryParam_marker (by decide) (by decide), if_pos (by decide),
    takeWhile_ampersand h]

theorem serve_reset {capacity : String} (h : Clean capacity) :
    serve platform (fetchPost (resetUrl capacity) rest) server = (do
      let server ← server.reset capacity
      return (server.jsonResponse platform, server)) := by
  have hpath : requestPath (fetchPost (resetUrl capacity) rest) = resetUrl capacity :=
    requestPath_fetchPost (by simp [resetUrl, apiUrl]) (by simp [resetUrl, apiUrl, h.blank])
  have hrequest : fetchPost (resetUrl capacity) rest =
      "POST /api/reset?capacity=" ++ (capacity ++ " HTTP" ++ rest) := by
    apply String.toList_inj.mp
    simp [fetchPost, resetUrl, apiUrl]
  have hserve : ∀ text, serve platform ("POST /api/reset?capacity=" ++ text) server = (do
      let server ← server.reset
        (getQueryParam (requestPath ("POST /api/reset?capacity=" ++ text)) "capacity")
      return (server.jsonResponse platform, server)) := by
    intro text
    simp (disch := decide) [serve, beginsWith_append]
  rw [hrequest, hserve, ← hrequest, hpath, resetUrl_capacity h.ampersand]

theorem serve_state : serve platform (fetchGet "/api/state" rest) server =
    .ok (server.jsonResponse platform, server) := by
  have hrequest : fetchGet "/api/state" rest = "GET /api/state HTTP" ++ rest := by
    apply String.toList_inj.mp
    simp [fetchGet]
  rw [hrequest]
  simp (disch := decide) [serve, beginsWith_append]

end Serve

/-! ## Exchanges -/

section Exchange

variable {platform : Platform} {browser : Browser} {texts : List String} {server : Server}
variable {st : State String String} {req : PageRequest}

/-- An answer that is the state of the server. -/
theorem Server.Stores.jsonResponse (h : server.Stores platform.hash texts st)
    (hreads : Reads platform browser) (hexact : Exact 0 st) :
    (browser.state (server.jsonResponse platform).body).map (fun view => [view]) =
      some [viewOf st] := by
  have hstate : browser.state (server.jsonResponse platform).body = some (viewOf st) :=
    h.reads hreads hexact
  rw [hstate, Option.map_some]

/-- A request of the page does to the server what it does to the store. -/
theorem Server.Stores.exchange (h : server.Stores platform.hash texts st)
    (hreads : Reads platform browser) (hdist : Distinguishes platform.hash texts)
    (hexact : Exact req.cost st) (hplain : req.Plain) (htexts : req.texts ⊆ texts)
    (hfits : req.Fits) (rest : String) : ∃ server',
      exchange platform browser (req, rest) server = .ok (some (req.step st).1, server') ∧
        server'.Stores platform.hash texts (req.step st).2 := by
  rcases hfits.recv rest with ⟨rest', hrecv⟩
  rw [LruCache.exchange, hrecv]
  cases req with
  | operation op =>
    rcases h.apply platform hdist htexts with ⟨server', happly, h'⟩
    have hserve := serve_operation platform server hplain rest'
    rw [happly] at hserve
    refine ⟨server', ?_, h'⟩
    have htext : (PageRequest.operation op).text rest' = fetchPost op.url rest' := rfl
    have hstate := h'.jsonResponse hreads (hexact.next op)
    rw [htext, hserve]
    simp only [bind, Except.bind, pure, Except.pure, PageRequest.read, hstate]
    rfl
  | reset capacity =>
    rcases stores_reset platform.hash texts server capacity with ⟨server', hreset, _, h'⟩
    have hserve := serve_reset platform server rest' hplain
    rw [hreset] at hserve
    refine ⟨server', ?_, h'⟩
    have htext : (PageRequest.reset capacity).text rest' = fetchPost (resetUrl capacity) rest' :=
      rfl
    have hstate := h'.jsonResponse hreads (.init (by decide) _ _)
    rw [htext, hserve]
    simp only [bind, Except.bind, pure, Except.pure, PageRequest.read, hstate]
    rfl
  | state =>
    refine ⟨server, ?_, h⟩
    have htext : PageRequest.state.text rest' = fetchGet "/api/state" rest' := rfl
    have hstate := h.jsonResponse hreads hexact
    rw [htext, serve_state]
    simp only [bind, Except.bind, pure, Except.pure, PageRequest.read, hstate]
    rfl
  | batch ops =>
    have hops : ∀ op ∈ ops, op.Plain ∧ op.texts ⊆ texts := fun op hop =>
      ⟨hplain op hop, fun str hstr => htexts (List.mem_flatMap.mpr ⟨op, hop, hstr⟩)⟩
    rcases h.batch hreads hdist hexact hops rest' with ⟨response, server', hserve, hviews, h'⟩
    refine ⟨server', ?_, h'⟩
    have htext : (PageRequest.batch ops).text rest' = fetchPost (batchUrl (batchStr ops)) rest' :=
      rfl
    rw [htext, hserve]
    simp only [bind, Except.bind, pure, Except.pure, PageRequest.read, hviews]
    rfl

theorem Exact.step {n : Nat} (h : Exact (req.cost + n) st) : Exact n (req.step st).2 := by
  have hn : n < exactBelow := Nat.lt_of_le_of_lt (by omega) h.hits
  cases req with
  | operation op =>
    rw [PageRequest.cost, Nat.add_comm] at h
    exact h.next op
  | reset capacity => exact .init hn _ _
  | state => exact h.mono (Nat.le_add_left n _)
  | batch ops =>
    have hrun : ∀ (ops : List Operation) (st : State String String), Exact (ops.length + n) st →
        Exact n (runTotal Operation.step ops st).2 := by
      intro ops
      induction ops with
      | nil =>
        intro st h
        exact h.mono (Nat.le_add_left n 0)
      | cons op ops ih =>
        intro st h
        rw [List.length_cons, Nat.add_right_comm] at h
        exact ih _ (h.next op)
    exact hrun ops st h

theorem Exact.run {reqs : List (PageRequest × String)} {n : Nat}
    (h : Exact ((reqs.map fun p => p.1.cost).sum + n) st) :
    Exact n (runTotal PageRequest.step (reqs.map Prod.fst) st).2 := by
  induction reqs generalizing st with
  | nil => exact h.mono (Nat.le_add_left n _)
  | cons p reqs ih =>
    rw [List.map_cons, List.sum_cons, Nat.add_assoc] at h
    exact ih h.step

theorem stores_start (hash : String → UInt64) (texts : List String) : ∃ server,
    Server.start = .ok server ∧
      server.Stores hash texts (State.init 10 (by decide)) := by
  have hpos : 0 < 10 := by decide
  rcases Serves.new hpos (by decide) with ⟨cache, hnew, hserves⟩
  refine ⟨{ cache := cache, registry := Registry.empty }, ?_, ⟨_, hserves, .init _ _⟩, ?_⟩
  · simp only [Server.start, hnew]
    rfl
  · intro p hp
    cases hp

end Exchange

end LruCache
