import LruCache.Web.Requests
import LruCache.Web.Safety

/-!
# A batch is its operations

`POST /api/batch` takes a list of operations apart at its bars, and each operation at its commas.
If the texts of the operations have no such characters in them, the batch does what the requests
for the single operations do, one after the other, and is answered with their answers
(`serve_batch_eq`).

Main results:

* `token_operation` — the token of an operation does what its request does.
* `serve_batch_eq` — a batch does what the requests for its operations do, and its answer is the
  array of their answers.

Deliberate scope limits:

* The texts of the operations have none of the characters with which a batch and its request are
  put together (`Plain`).
* The requests for the operations come one after the other, with no other request in between.
-/

namespace LruCache

open Recency Transition

/-! ## Operations -/

/-- The operations of `runSimulation`. -/
inductive Operation where
  | put (key value : String)
  | get (key : String)
  | remove (key : String)
deriving DecidableEq, Repr

/-- A text that is not empty and has none of the characters with which operations and requests
are put together. -/
structure Plain (str : String) : Prop extends Clean str where
  nonempty : str ≠ ""
  comma : ',' ∉ str.toList
  bar : '|' ∉ str.toList

instance (str : String) : Decidable (Plain str) :=
  decidable_of_iff (Clean str ∧ str ≠ "" ∧ ',' ∉ str.toList ∧ '|' ∉ str.toList)
    ⟨fun h => ⟨h.1, h.2.1, h.2.2.1, h.2.2.2⟩, fun h => ⟨h.toClean, h.nonempty, h.comma, h.bar⟩⟩

/-- All texts of the operation are plain. -/
def Operation.Plain : Operation → Prop
  | .put key value => LruCache.Plain key ∧ LruCache.Plain value
  | .get key => LruCache.Plain key
  | .remove key => LruCache.Plain key

instance : ∀ op : Operation, Decidable op.Plain
  | .put _ _ => inferInstanceAs (Decidable (_ ∧ _))
  | .get key => inferInstanceAs (Decidable (LruCache.Plain key))
  | .remove key => inferInstanceAs (Decidable (LruCache.Plain key))

/-- How `runSimulation` writes the operation. -/
def Operation.token : Operation → String
  | .put key value => "P," ++ key ++ "," ++ value
  | .get key => "G," ++ key
  | .remove key => "R," ++ key

/-- The operations of a batch, with a bar behind each. -/
def batchStr : List Operation → String
  | [] => ""
  | op :: ops => op.token ++ "|" ++ batchStr ops

/-- The request for a single operation. -/
def Operation.url : Operation → String
  | .put key value => putUrl key value
  | .get key => getUrl key
  | .remove key => removeUrl key

/-- What the server is to do. -/
def Operation.apply (platform : Platform) (server : Server) : Operation → Except Fault Server
  | .put key value => server.put platform key value
  | .get key => server.get platform key
  | .remove key => server.remove platform key

section Operations

variable (platform : Platform) (server : Server) {op : Operation} {key value : String}

/-- The request for a single operation carries it out, and is answered with the state after it. -/
theorem serve_operation (h : op.Plain) (rest : String) :
    serve platform (fetchPost op.url rest) server = (do
      let server ← op.apply platform server
      return (server.jsonResponse platform, server)) := by
  cases op with
  | put key value =>
    exact serve_put platform server rest h.1.toClean h.2.toClean h.1.nonempty h.2.nonempty
  | get key => exact serve_get platform server rest h.toClean h.nonempty
  | remove key => exact serve_remove platform server rest h.toClean h.nonempty

/-! ## Tokens -/

/-- A put is taken apart at its commas. -/
theorem token_put (hkey : ',' ∉ key.toList) :
    server.token platform ("P," ++ key ++ "," ++ value) = server.put platform key value := by
  have htext : ("P," ++ key ++ "," ++ value).toList =
      ['P'] ++ ',' :: (key.toList ++ ',' :: value.toList) := by simp
  have hc1 : find ("P," ++ key ++ "," ++ value) "," 0 = some 1 := by
    rw [find_zero, htext]
    exact Search.firstIndex_singleton (by decide)
  have hc2 : find ("P," ++ key ++ "," ++ value) "," 2 = some (2 + key.length) := by
    have hfind := find_append "P," (key ++ "," ++ value) ","
    have hmarker : Search.firstIndex ",".toList (key ++ "," ++ value).toList =
        some key.length := by
      have hparts : (key ++ "," ++ value).toList = key.toList ++ ',' :: value.toList := by simp
      rw [hparts, ← String.length_toList]
      exact Search.firstIndex_singleton hkey
    rw [hmarker, ← String.append_assoc, ← String.append_assoc] at hfind
    exact hfind
  have hkeyText : substr ("P," ++ key ++ "," ++ value) 2 (some key.length) = key := by
    rw [String.append_assoc]
    exact substr_append "P," key ("," ++ value)
  have hvalueText : substr ("P," ++ key ++ "," ++ value) (2 + key.length + 1) none = value := by
    have hlen : ("P," ++ key ++ ",").length = 2 + key.length + 1 := by
      rw [String.length_append, String.length_append]
      rfl
    rw [← hlen]
    exact substr_append_none ("P," ++ key ++ ",") value
  have hhead : ("P," ++ key ++ "," ++ value).toList.head? = some 'P' := by rw [htext]; rfl
  have hcount : 2 + key.length - 1 - 1 = key.length := by omega
  simp only [Server.token, hc1, hc2, hhead, Option.map_some, hcount, hkeyText, hvalueText]

/-- Where the commas of "G,key" and "R,key" are found. -/
theorem find_single {letter : Char} (hletter : letter ≠ ',') (hkey : ',' ∉ key.toList) :
    find (String.singleton letter ++ "," ++ key) "," 0 = some 1 ∧
      find (String.singleton letter ++ "," ++ key) "," 2 = none ∧
      substr (String.singleton letter ++ "," ++ key) 2 none = key ∧
      (String.singleton letter ++ "," ++ key).toList.head? = some letter := by
  have htext : (String.singleton letter ++ "," ++ key).toList = [letter] ++ ',' :: key.toList := by
    simp
  have hcomma : ",".toList = [','] := rfl
  have hlen : (String.singleton letter ++ ",").length = 2 := by
    rw [String.length_append, String.length_singleton]
    rfl
  refine ⟨?_, ?_, ?_, ?_⟩
  · rw [find_zero, htext, hcomma]
    exact Search.firstIndex_singleton (by simpa using Ne.symm hletter)
  · have hfind := find_append (String.singleton letter ++ ",") key ","
    rw [hlen, hcomma, Search.firstIndex_singleton_none hkey] at hfind
    exact hfind
  · rw [← hlen]
    exact substr_append_none _ key
  · rw [htext]
    rfl

/-- A get has one comma; what follows it is the key. -/
theorem token_get (hkey : ',' ∉ key.toList) :
    server.token platform ("G," ++ key) = server.get platform key := by
  have hletter : 'G' ≠ ',' := by decide
  rcases find_single hletter hkey with ⟨hc1, hc2, hkeyText, hhead⟩
  have htext : String.singleton 'G' ++ "," ++ key = "G," ++ key := rfl
  rw [htext] at hc1 hc2 hkeyText hhead
  simp only [Server.token, hc1, hc2, hhead, Option.map_none, hkeyText]

/-- A removal, likewise. -/
theorem token_remove (hkey : ',' ∉ key.toList) :
    server.token platform ("R," ++ key) = server.remove platform key := by
  have hletter : 'R' ≠ ',' := by decide
  rcases find_single hletter hkey with ⟨hc1, hc2, hkeyText, hhead⟩
  have htext : String.singleton 'R' ++ "," ++ key = "R," ++ key := rfl
  rw [htext] at hc1 hc2 hkeyText hhead
  simp only [Server.token, hc1, hc2, hhead, Option.map_none, hkeyText]

/-- So a token does what the request for its operation does. -/
theorem token_operation (h : op.Plain) :
    server.token platform op.token = op.apply platform server := by
  cases op with
  | put key value => exact token_put platform server h.1.comma
  | get key => exact token_get platform server h.comma
  | remove key => exact token_remove platform server h.comma

end Operations

/-! ## Batches -/

section Batches

variable {op : Operation} {ops : List Operation}

/-- No token is skipped. -/
theorem token_ne_empty (op : Operation) : op.token ≠ "" := by
  cases op <;> simp [Operation.token]

/-- No text brings in a bar, or what ends a parameter or a path. -/
theorem Plain.notMem {str : String} (h : Plain str) {ch : Char} (hch : ch ∈ ['|', '&', ' ']) :
    ch ∉ str.toList := by
  simp only [List.mem_cons, List.not_mem_nil, or_false] at hch
  rcases hch with rfl | rfl | rfl
  · exact h.bar
  · exact h.ampersand
  · exact h.blank

/-- What is in none of the texts is not in what is put around them, the comma apart. -/
theorem Operation.Plain.notMem_token (h : op.Plain) {ch : Char} (hch : ch ∈ ['|', '&', ' ']) :
    ch ∉ op.token.toList := by
  have hletters : ch ∉ ['P', 'G', 'R', ','] := by
    simp only [List.mem_cons, List.not_mem_nil, or_false] at hch
    rcases hch with rfl | rfl | rfl <;> decide
  simp only [List.mem_cons, List.not_mem_nil, or_false, not_or] at hletters
  cases op with
  | put key value => simp [Operation.token, hletters, h.1.notMem hch, h.2.notMem hch]
  | get key => simp [Operation.token, hletters, LruCache.Plain.notMem h hch]
  | remove key => simp [Operation.token, hletters, LruCache.Plain.notMem h hch]

/-- The batch is cut into its tokens. -/
theorem getlines_batchStr (h : ∀ op ∈ ops, op.Plain) :
    getlines (batchStr ops) '|' = ops.map Operation.token := by
  induction ops with
  | nil => rfl
  | cons op ops ih =>
    have hbar : '|' ∉ op.token.toList :=
      (h op List.mem_cons_self).notMem_token (by decide)
    have htail := ih fun op hop => h op (List.mem_cons_of_mem _ hop)
    rw [batchStr, List.map_cons, ← htail]
    exact getlines_append hbar (batchStr ops)

/-- It arrives as a whole. -/
theorem notMem_batchStr (h : ∀ op ∈ ops, op.Plain) {ch : Char} (hch : ch ∈ ['&', ' ']) :
    ch ∉ (batchStr ops).toList := by
  have hbar : ch ≠ '|' := by
    rintro rfl
    exact absurd hch (by decide)
  induction ops with
  | nil => simp [batchStr]
  | cons op ops ih =>
    have htoken := (h op List.mem_cons_self).notMem_token (List.mem_cons_of_mem '|' hch)
    have htail := ih fun op hop => h op (List.mem_cons_of_mem _ hop)
    simp [batchStr, htoken, hbar, htail]

/-! ## The loop -/

/-- The states of an array as the loop writes them: all but the first one after a comma. -/
def joined : Bool → List String → String
  | _, [] => ""
  | first, state :: states => (if first then "" else ",") ++ state ++ joined false states

/-- With commas between them. -/
theorem joined_eq (states : List String) : joined true states = ",".intercalate states := by
  cases states with
  | nil => simp [joined]
  | cons state states =>
    -- behind the first state the commas are in front of the states, not behind them
    induction states generalizing state with
    | nil => simp [joined]
    | cons next states ih =>
      rw [String.intercalate_cons_cons, ← ih]
      simp [joined, String.append_assoc]

variable (platform : Platform)

/-- One round of the loop. -/
theorem batchLoop_cons (h : op.Plain) (tokens : List String) (jsonArray : String) (first : Bool)
    (server : Server) : batchLoop platform (op.token :: tokens) jsonArray first server = (do
      let server ← op.apply platform server
      batchLoop platform tokens ((if first then jsonArray else jsonArray ++ ",") ++
        server.stateText platform) false server) := by
  rw [batchLoop, if_neg (token_ne_empty op), token_operation platform server h]

/-- The requests for the operations, each with its own version and headers. -/
def requests (ops : List (Operation × String)) : List String :=
  ops.map fun p => fetchPost p.1.url p.2

/-- The loop over the tokens is the run of the requests, with the bodies joined. -/
theorem batchLoop_eq {ops : List (Operation × String)} (h : ∀ p ∈ ops, p.1.Plain)
    (jsonArray : String) (first : Bool) (server : Server) :
    batchLoop platform (ops.map fun p => p.1.token) jsonArray first server =
      (fun r => (jsonArray ++ joined first (r.1.map Response.body), r.2)) <$>
        run (serve platform) (requests ops) server := by
  induction ops generalizing jsonArray first server with
  | nil =>
    simp only [List.map_nil, batchLoop, requests, run]
    simp [joined]
  | cons p ops ih =>
    have hp := h p List.mem_cons_self
    have htail := ih fun q hq => h q (List.mem_cons_of_mem _ hq)
    have hserve := serve_operation platform server hp p.2
    rw [List.map_cons, batchLoop_cons platform hp, requests, List.map_cons]
    cases happly : p.1.apply platform server with
    | error fault =>
      rw [happly] at hserve
      rw [run, hserve]
      rfl
    | ok server₁ =>
      rw [happly] at hserve
      rw [run_cons_ok hserve]
      simp only [bind, Except.bind]
      rw [htail, requests]
      cases run (serve platform) (ops.map fun p => fetchPost p.1.url p.2) server₁ with
      | error fault => rfl
      | ok r =>
        simp only [Functor.map, Except.map, List.map_cons, joined]
        cases first <;> simp [String.append_assoc, Server.jsonResponse, Response.body]

/-- Each answer is the state after the operations up to it. -/
theorem run_requests {ops : List (Operation × String)} (h : ∀ p ∈ ops, p.1.Plain)
    {server server' : Server} {responses : List Response}
    (hrun : run (serve platform) (requests ops) server = .ok (responses, server')) :
    responses.length = ops.length ∧ ∀ i (hi : i < responses.length), ∃ before after,
      run (serve platform) (requests (ops.take (i + 1))) server = .ok (before, after) ∧
        responses[i] = after.jsonResponse platform := by
  induction ops generalizing server responses with
  | nil =>
    cases hrun
    exact ⟨rfl, fun i hi => absurd hi (Nat.not_lt_zero i)⟩
  | cons p ops ih =>
    have hserve := serve_operation platform server (h p List.mem_cons_self) p.2
    rcases of_run_cons hrun with ⟨response, server₁, others, hfirst, hothers, rfl⟩
    rcases ih (fun q hq => h q (List.mem_cons_of_mem p hq)) hothers with ⟨hlen, hstates⟩
    rw [hserve] at hfirst
    rcases bind_eq_ok hfirst with ⟨server₂, happly, hresult⟩
    cases hresult
    rw [happly] at hserve
    refine ⟨by rw [List.length_cons, List.length_cons, hlen], ?_⟩
    intro i hi
    cases i with
    | zero =>
      refine ⟨[server₁.jsonResponse platform], server₁, ?_, rfl⟩
      exact run_cons_ok hserve
    | succ i =>
      rcases hstates i (Nat.lt_of_succ_lt_succ hi) with ⟨before, after, hbefore, hstate⟩
      refine ⟨server₁.jsonResponse platform :: before, after, ?_, hstate⟩
      have hmore : run (serve platform)
          (fetchPost p.1.url p.2 :: requests (ops.take (i + 1))) server = _ := run_cons_ok hserve
      rw [hbefore] at hmore
      exact hmore

/-- A batch leaves the server as the requests for its operations do, and is answered with an array
of their answers: one for each operation, the state after the operations up to it. -/
theorem serve_batch_eq (server : Server) (ops : List (Operation × String)) (rest : String)
    (hplain : ∀ p ∈ ops, p.1.Plain) :
    serve platform (fetchPost (batchUrl (batchStr (ops.map Prod.fst))) rest) server =
        (fun r => (.ok "application/json"
            ("[" ++ ",".intercalate (r.1.map Response.body) ++ "]"), r.2)) <$>
          run (serve platform) (requests ops) server ∧
      ∀ responses server', run (serve platform) (requests ops) server = .ok (responses, server') →
        responses.length = ops.length ∧ ∀ i (hi : i < responses.length), ∃ before after,
          run (serve platform) (requests (ops.take (i + 1))) server = .ok (before, after) ∧
            responses[i] = after.jsonResponse platform := by
  have hops : ∀ op ∈ ops.map Prod.fst, op.Plain := by
    intro op hop
    rcases List.mem_map.mp hop with ⟨p, hp, rfl⟩
    exact hplain p hp
  refine ⟨?_, fun responses server' hrun => run_requests platform hplain hrun⟩
  rw [serve_batch platform server rest (notMem_batchStr hops (by decide))
    (notMem_batchStr hops (by decide)), getlines_batchStr hops, List.map_map]
  have hloop : batchLoop platform (ops.map (Operation.token ∘ Prod.fst)) "[" true server = _ :=
    batchLoop_eq platform hplain "[" true server
  rw [hloop]
  cases run (serve platform) (requests ops) server with
  | error fault => rfl
  | ok r =>
    simp only [Functor.map, Except.map, bind, Except.bind, joined_eq]
    rfl

/-- A put and a get. -/
theorem serve_batch_eq_two : ∃ (platform : Platform) (server : Server) (responses : List Response)
    (server' : Server),
    run (serve platform) (requests [(.put "a" "1", "/1.1"), (.get "a", "/1.1")]) server =
        .ok (responses, server') ∧
      serve platform (fetchPost (batchUrl "P,a,1|G,a|") "/1.1") server =
        .ok (.ok "application/json"
          ("[" ++ ",".intercalate (responses.map Response.body) ++ "]"), server') ∧
      responses.length = 2 := by
  have hnew : ∃ cache, Cache.new 2 = .ok cache ∧ Serves cache (State.init 2 (by decide)) :=
    Serves.new _ (by decide)
  rcases hnew with ⟨cache, _, hserves⟩
  let platform : Platform := { hash := fun _ => 0, jsonState := fun cache _ => toString cache.size
                               readFile := fun _ => "", valueFirst := true }
  let server : Server := { cache := cache, registry := Registry.empty }
  have hplain : ∀ p ∈ [(Operation.put "a" "1", "/1.1"), (.get "a", "/1.1")], p.1.Plain := by
    decide
  have hsound : server.Sound := ⟨_, hserves⟩
  rcases serve_run_sound platform hsound (requests [(.put "a" "1", "/1.1"), (.get "a", "/1.1")])
    with ⟨responses, server', hrun, _⟩
  rcases serve_batch_eq platform server _ "/1.1" hplain with ⟨hbatch, hstates⟩
  rw [hrun] at hbatch
  exact ⟨platform, server, responses, server', hrun, hbatch, (hstates responses server' hrun).1⟩

end Batches

end LruCache
