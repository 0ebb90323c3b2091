import LruCache.Web.Playback

/-!
# Pages, requests and answers in flight

`reqApi` remembers the number of hits that the page shows, asks the server, and says hit or miss
of a `get` by the number of hits in the answer. It does not wait for one answer before it asks
again, and there may be several pages; the server takes requests one by one, in any order, and
answers arrive in any order or not at all.

The network is a transition system: `Network` is its state, `NetStep` a step in which anything may
overtake anything and no page resets the cache. `LruCache.Web.Flight` proves what holds of all its
runs, and `LruCache.Web.Calm` what holds if there is one page that waits.

Main results:

* `Server.Stores.answers`, `Server.Stores.serves` — the server answers every request that a page
  can send, and with the states of the store of texts.
* `hits_step_get` — the hits go up by a `get` exactly if it finds its key.

Deliberate scope limits:

* Of a page there is `st-hits` and `simHistory` only; the buttons that start its functions are in
  `LruCache.Web.Screen`, and here any page may call any of them at any time.
* A request is there as the address carries it (`Askable`): its texts are encoded, and its first
  line fits into the buffer of the server.
* The texts in flight have different numbers, and the counters stay below 2^53, where the page
  reads them exactly. Both are hypotheses of the results, not of the steps.
-/

namespace LruCache

open Recency Transition

/-! ## The network -/

/-- A request on its way, with what `reqApi` remembers meanwhile. -/
structure Asked where
  page : Nat
  req : PageRequest
  headers : String
  prevHits : Nat

/-- An answer on its way, and whether `cache->get` found its key. -/
structure Reply where
  page : Nat
  req : PageRequest
  prevHits : Nat
  body : String
  found : Bool

/-- What was logged of a `get`, and what had come of it. -/
structure GetLine where
  key : String
  hit : Bool
  found : Bool

/-- The server, the pages and what is in between. Of a page there is the number of hits that it
shows, and the states of a simulation that can be shown again; `handled` counts the operations. -/
structure Network where
  server : Server
  stHits : Nat → Nat
  simHistory : Nat → List StateView
  asked : List Asked
  replies : List Reply
  log : List GetLine
  handled : Nat

/-- Does `cache->get` find the key, if this is what is asked for? -/
def Server.finds (platform : Platform) (server : Server) : PageRequest → Bool
  | .operation (.get key) =>
      match server.cache.get (hashKey server.cache.hashMask) (codeOf platform.hash key) with
      | .ok (res, _) => res.found
      | .error _ => false
  | _ => false

namespace Network

/-- What is sent, and remembered, if the page asks now. -/
def request (s : Network) (page : Nat) (req : PageRequest) (headers : String) : Asked where
  page := page
  req := req
  headers := headers
  prevHits := s.stHits page

/-- The first part of `reqApi`, and of the other functions that fetch something. -/
def ask (s : Network) (page : Nat) (req : PageRequest) (headers : String) : Network :=
  { s with asked := s.asked ++ [s.request page req headers] }

/-- The answer to `a`, before the server has changed. -/
def reply (platform : Platform) (s : Network) (a : Asked) (response : Response) : Reply where
  page := a.page
  req := a.req
  prevHits := a.prevHits
  body := response.body
  found := s.server.finds platform a.req

/-- The server has dealt with the request `a`. -/
def handle (platform : Platform) (s : Network) (a : Asked) (others : List Asked)
    (response : Response) (server : Server) : Network :=
  { s with
    server := server
    asked := others
    replies := s.replies ++ [s.reply platform a response]
    handled := s.handled + a.req.cost }

/-- What `reqApi` logs, if it logs hits and misses. -/
def lines (r : Reply) (view : StateView) : List GetLine :=
  match r.req with
  | .operation (.get key) =>
      [{ key := key, hit := decide (view.hits > r.prevHits), found := r.found }]
  | _ => []

/-- The second part of `reqApi`, with `render`. -/
def deliver (s : Network) (r : Reply) (others : List Reply) (view : StateView) : Network :=
  { s with
    replies := others
    stHits := Function.update s.stHits r.page view.hits
    log := s.log ++ lines r view }

/-- The states of a simulation arrive. -/
def record (s : Network) (r : Reply) (others : List Reply) (views : List StateView) : Network :=
  { s with
    replies := others
    simHistory := Function.update s.simHistory r.page (s.simHistory r.page ++ views) }

/-- `applySimState`. -/
def applySimState (s : Network) (page : Nat) (view : StateView) : Network :=
  { s with stHits := Function.update s.stHits page view.hits }

end Network

/-- A request with some of the texts, as the page can send it. -/
structure Askable (texts : List String) (req : PageRequest) : Prop where
  plain : req.Plain
  fits : req.Fits
  texts : req.texts ⊆ texts

/-- The requests of `reqApi`: its endpoints are those of the operations, and the reset. -/
def PageRequest.ByReqApi : PageRequest → Prop
  | .operation _ => True
  | .reset _ => True
  | .state => False
  | .batch _ => False

/-- The request leaves the counters of the cache as they are, or counts on. -/
def PageRequest.Keeps (req : PageRequest) : Prop := ∀ capacity, req ≠ .reset capacity

/-- A step of the pages, of the server or of the network; no page asks for a reset. -/
inductive NetStep (platform : Platform) (browser : Browser) (texts : List String) (s : Network) :
    Network → Prop
  | ask {page : Nat} {req : PageRequest} {headers : String} : Askable texts req →
      req.Keeps → NetStep platform browser texts s (s.ask page req headers)
  | handle {before later : List Asked} {a : Asked} {response : Response} {server : Server} :
      s.asked = before ++ a :: later →
      serve platform (recv (a.req.text a.headers)) s.server = .ok (response, server) →
      NetStep platform browser texts s (s.handle platform a (before ++ later) response server)
  | deliver {before later : List Reply} {r : Reply} {op : Operation} {view : StateView} :
      s.replies = before ++ r :: later → r.req = .operation op →
      browser.state r.body = some view →
      NetStep platform browser texts s (s.deliver r (before ++ later) view)
  | record {before later : List Reply} {r : Reply} {views : List StateView} :
      s.replies = before ++ r :: later → (∀ op, r.req ≠ .operation op) →
      r.req.read browser r.body = some views →
      NetStep platform browser texts s (s.record r (before ++ later) views)
  | applySimState {page : Nat} {view : StateView} : view ∈ s.simHistory page →
      NetStep platform browser texts s (s.applySimState page view)
  | loseRequest {before later : List Asked} {a : Asked} : s.asked = before ++ a :: later →
      NetStep platform browser texts s { s with asked := before ++ later }
  | loseReply {before later : List Reply} {r : Reply} : s.replies = before ++ r :: later →
      NetStep platform browser texts s { s with replies := before ++ later }

/-- The server has been started, and the pages show no hits. -/
structure NetStart (s : Network) : Prop where
  server : Server.start = .ok s.server
  stHits : ∀ page, s.stHits page = 0
  simHistory : ∀ page, s.simHistory page = []
  asked : s.asked = []
  replies : s.replies = []
  log : s.log = []
  handled : s.handled = 0

/-! ## Counting -/

/-- No counter is over `n`. -/
structure Counted (n : Nat) (st : State String String) : Prop where
  hits : st.hits ≤ n
  misses : st.misses ≤ n
  evictions : st.evictions ≤ n

section Counting

variable {st : State String String} {n : Nat} {req : PageRequest}

theorem Counted.exact (h : Counted n st) {m : Nat} (hlt : n + m < exactBelow) : Exact m st where
  hits := Nat.lt_of_le_of_lt (Nat.add_le_add_right h.hits m) hlt
  misses := Nat.lt_of_le_of_lt (Nat.add_le_add_right h.misses m) hlt
  evictions := Nat.lt_of_le_of_lt (Nat.add_le_add_right h.evictions m) hlt

theorem Counted.next (h : Counted n st) (op : Operation) : Counted (n + 1) (op.next st) := by
  have hhits := h.hits
  have hmisses := h.misses
  have hevictions := h.evictions
  cases op with
  | put key value =>
    refine ⟨Nat.le_succ_of_le hhits, Nat.le_succ_of_le hmisses, ?_⟩
    show st.evictions + (if st.evicts key then 1 else 0) ≤ n + 1
    split <;> omega
  | get key =>
    rw [Operation.next]
    cases hfound : st.store.items.lookup key with
    | none =>
      rw [State.get_of_none hfound]
      exact ⟨Nat.le_succ_of_le hhits, Nat.succ_le_succ hmisses, Nat.le_succ_of_le hevictions⟩
    | some value =>
      rw [State.get_of_some hfound]
      exact ⟨Nat.succ_le_succ hhits, Nat.le_succ_of_le hmisses, Nat.le_succ_of_le hevictions⟩
  | remove key =>
    exact ⟨Nat.le_succ_of_le hhits, Nat.le_succ_of_le hmisses, Nat.le_succ_of_le hevictions⟩

/-- Hits are never taken back. -/
theorem Operation.hits_le_next (op : Operation) (st : State String String) :
    st.hits ≤ (op.next st).hits := by
  cases op with
  | put key value => exact Nat.le_refl _
  | get key =>
    rw [Operation.next]
    cases hfound : st.store.items.lookup key with
    | none => rw [State.get_of_none hfound]
    | some value =>
      rw [State.get_of_some hfound]
      exact Nat.le_succ _
  | remove key => exact Nat.le_refl _

/-- The hits of all states that are shown are between those before and those after. -/
theorem hits_runTotal (ops : List Operation) (st : State String String) :
    st.hits ≤ (runTotal Operation.step ops st).2.hits ∧
      ∀ view ∈ (runTotal Operation.step ops st).1,
        view.hits ≤ (runTotal Operation.step ops st).2.hits := by
  induction ops generalizing st with
  | nil => exact ⟨Nat.le_refl _, fun view hview => absurd hview List.not_mem_nil⟩
  | cons op ops ih =>
    rcases ih (op.next st) with ⟨hle, hviews⟩
    refine ⟨Nat.le_trans (op.hits_le_next st) hle, ?_⟩
    intro view hview
    rcases List.mem_cons.mp hview with rfl | hmem
    · exact hle
    · exact hviews view hmem

theorem counted_runTotal (ops : List Operation) (h : Counted n st) :
    Counted (n + ops.length) (runTotal Operation.step ops st).2 := by
  induction ops generalizing n st with
  | nil => exact h
  | cons op ops ih =>
    have hops := ih (h.next op)
    rw [Nat.add_assoc, Nat.add_comm 1] at hops
    exact hops

theorem Counted.step (h : Counted n st) (req : PageRequest) :
    Counted (n + req.cost) (req.step st).2 := by
  cases req with
  | operation op => exact h.next op
  | reset capacity => exact ⟨Nat.zero_le _, Nat.zero_le _, Nat.zero_le _⟩
  | state => exact h
  | batch ops => exact counted_runTotal ops h

/-- Without resets, the hits that are answered lie between those before and those after. -/
theorem hits_step (hkeeps : req.Keeps) (st : State String String) :
    st.hits ≤ (req.step st).2.hits ∧
      ∀ view ∈ (req.step st).1, view.hits ≤ (req.step st).2.hits := by
  cases req with
  | operation op =>
    refine ⟨op.hits_le_next st, fun view hview => ?_⟩
    rw [List.mem_singleton.mp hview]
    exact Nat.le_refl _
  | reset capacity => exact absurd rfl (hkeeps capacity)
  | state =>
    refine ⟨Nat.le_refl _, fun view hview => ?_⟩
    rw [List.mem_singleton.mp hview]
    exact Nat.le_refl _
  | batch ops => exact hits_runTotal ops st

end Counting

/-! ## One request -/

section ByReqApi

variable {req : PageRequest} {browser : Browser} {body : String}

theorem PageRequest.ByReqApi.read_eq (h : req.ByReqApi) (browser : Browser) (body : String) :
    req.read browser body = (browser.state body).map fun view => [view] := by
  cases req with
  | operation op => rfl
  | reset capacity => rfl
  | state => cases h
  | batch ops => cases h

/-- `reqApi` is answered with the state after its request. -/
theorem PageRequest.ByReqApi.step_eq (h : req.ByReqApi) (st : State String String) :
    (req.step st).1 = [viewOf (req.step st).2] := by
  cases req with
  | operation op => rfl
  | reset capacity => rfl
  | state => cases h
  | batch ops => cases h

/-- The state that `reqApi` reads is the one that it is answered with. -/
theorem PageRequest.ByReqApi.view_eq (h : req.ByReqApi) {views : List StateView}
    (hread : req.read browser body = some views) {view : StateView}
    (hview : browser.state body = some view) : views = [view] := by
  rw [h.read_eq, hview, Option.map_some] at hread
  exact (Option.some.inj hread).symm

theorem PageRequest.ByReqApi.state_eq (h : req.ByReqApi) {st : State String String}
    (hread : req.read browser body = some (req.step st).1) :
    browser.state body = some (viewOf (req.step st).2) := by
  rw [h.read_eq, h.step_eq] at hread
  rcases Option.map_eq_some_iff.mp hread with ⟨view, hview, heq⟩
  rw [hview, List.singleton_injective heq]

end ByReqApi

section Handle

variable {platform : Platform} {browser : Browser} {texts : List String} {server : Server}
variable {st : State String String} {req : PageRequest}

/-- `cache->get` finds the keys that are stored. -/
theorem Server.Stores.finds_iff (h : server.Stores platform.hash texts st)
    (hdist : Distinguishes platform.hash texts) {key : String} (hkey : key ∈ texts) :
    server.finds platform (.operation (.get key)) = true ↔ key ∈ keys st.store.items := by
  rcases h.numbers with ⟨st', hserves, hmatches⟩
  rcases Serves.get hserves (codeOf platform.hash key) with ⟨r, cache, hrun, hr, _⟩
  rw [Server.finds, hrun]
  dsimp only
  rw [hmatches.lookup hdist hkey] at hr
  cases hfound : st.store.items.lookup key with
  | none =>
    rw [hfound] at hr
    cases hr
    simp [lookup_eq_none.mp hfound]
  | some value =>
    rw [hfound] at hr
    cases hr
    have hmem : key ∈ keys st.store.items := lookup_isSome.mp (by rw [hfound]; rfl)
    simp [hmem]

/-- The hits go up by a `get` that finds its key. -/
theorem hits_step_get (h : server.Stores platform.hash texts st)
    (hdist : Distinguishes platform.hash texts) {key : String}
    (htexts : (PageRequest.operation (.get key)).texts ⊆ texts) :
    server.finds platform (.operation (.get key)) = true ↔
      (viewOf (Operation.next st (.get key))).hits > st.hits := by
  rw [h.finds_iff hdist (htexts List.mem_cons_self)]
  exact (hits_next_get st key).symm

/-- The server answers what it is asked, with the states of the store. -/
theorem Server.Stores.answers (h : server.Stores platform.hash texts st)
    (hreads : Reads platform browser) (hdist : Distinguishes platform.hash texts)
    (hexact : Exact req.cost st) (hask : Askable texts req) (headers : String) :
    ∃ response server', serve platform (recv (req.text headers)) server = .ok (response, server') ∧
      req.read browser response.body = some (req.step st).1 ∧
      server'.Stores platform.hash texts (req.step st).2 := by
  rcases h.exchange hreads hdist hexact hask.plain hask.texts hask.fits headers with
    ⟨server', hrun, h'⟩
  rcases bind_eq_ok hrun with ⟨⟨response, server₁⟩, hserve, hread⟩
  simp only [pure, Except.pure, Except.ok.injEq, Prod.mk.injEq] at hread
  rcases hread with ⟨hread, rfl⟩
  exact ⟨response, server₁, hserve, hread, h'⟩

/-- So this is what it has answered when it has dealt with a request. -/
theorem Server.Stores.serves (h : server.Stores platform.hash texts st)
    (hreads : Reads platform browser) (hdist : Distinguishes platform.hash texts)
    (hexact : Exact req.cost st) (hask : Askable texts req) {headers : String}
    {response : Response} {server' : Server}
    (hserve : serve platform (recv (req.text headers)) server = .ok (response, server')) :
    req.read browser response.body = some (req.step st).1 ∧
      server'.Stores platform.hash texts (req.step st).2 := by
  rcases h.answers hreads hdist hexact hask headers with ⟨response₁, server₁, hrun, hread, h₁⟩
  rw [hserve] at hrun
  cases hrun
  exact ⟨hread, h₁⟩

end Handle

/-! ## Lists of what is under way -/

section Split

variable {α : Type} {l before later : List α} {a x : α}

theorem mem_of_split (h : l = before ++ a :: later) (hx : x ∈ before ++ later) : x ∈ l := by
  rw [h]
  exact (List.Sublist.append_left (List.sublist_cons_self a later) before).subset hx

theorem mem_split (h : l = before ++ a :: later) : a ∈ l := by
  rw [h]
  exact List.mem_append_right before List.mem_cons_self

end Split

end LruCache
