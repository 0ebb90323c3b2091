import LruCache.Web.Network

/-!
# What a log says in any order

Requests and answers may overtake each other, or get lost, and there may be several pages and
simulations. A miss in the log is a miss then all the same: the hits that a page remembers when it
asks were counted by the server before, so they are fewer than those in the answer to a `get` that
found its key.

Main results:

* `NetInv.step` — every number of hits that is shown, remembered or on its way has been counted.
* `no_hit_logged_as_miss` — a `get` that found its key is never logged as a miss.

Deliberate scope limits:

* No page asks for a reset, which would take hits back (`PageRequest.Keeps`).
* Nothing is said of the hits in the log: other hits may be counted in the meantime, and a page
  may be playing back states of a simulation, so `GET nope -> HIT` does occur.
-/

namespace LruCache

open Recency Transition

/-! ## Any order -/

/-- The hits that a page shows, or remembers, or will be told of, were counted by the server. -/
structure Told (texts : List String) (browser : Browser) (hits : Nat) (s : Network) : Prop where
  shown : ∀ page, s.stHits page ≤ hits
  simulated : ∀ page, ∀ view ∈ s.simHistory page, view.hits ≤ hits
  asked : ∀ a ∈ s.asked, Askable texts a.req ∧ a.req.Keeps ∧ a.prevHits ≤ hits
  replies : ∀ r ∈ s.replies, ∃ views, r.req.read browser r.body = some views ∧
    ∀ view ∈ views, view.hits ≤ hits ∧ (r.found = true → view.hits > r.prevHits)
  log : ∀ line ∈ s.log, line.found = true → line.hit = true

/-- The invariant of the network. -/
structure NetInv (platform : Platform) (browser : Browser) (texts : List String) (s : Network)
    (st : State String String) : Prop where
  stores : s.server.Stores platform.hash texts st
  counted : Counted s.handled st
  told : Told texts browser st.hits s

section Order

variable {platform : Platform} {browser : Browser} {texts : List String} {s s' : Network}
variable {st : State String String}

/-- What has been counted stays counted. -/
theorem Told.mono {hits hits' : Nat} (h : Told texts browser hits s) (hle : hits ≤ hits') :
    Told texts browser hits' s where
  shown := fun page => Nat.le_trans (h.shown page) hle
  simulated := fun page view hview => Nat.le_trans (h.simulated page view hview) hle
  asked := fun a ha => (h.asked a ha).imp_right
    (And.imp_right fun hprev => Nat.le_trans hprev hle)
  replies := by
    intro r hr
    rcases h.replies r hr with ⟨views, hread, hviews⟩
    exact ⟨views, hread, fun view hview =>
      (hviews view hview).imp_left fun hview => Nat.le_trans hview hle⟩
  log := h.log

/-- A page may show any hits that have been counted. -/
theorem Told.show {hits : Nat} (h : Told texts browser hits s) {page n : Nat} (hn : n ≤ hits)
    (page' : Nat) : Function.update s.stHits page n page' ≤ hits := by
  by_cases heq : page' = page
  · rw [heq, Function.update_self]
    exact hn
  · rw [Function.update_of_ne heq]
    exact h.shown page'

/-- An answer is rendered, and logged. -/
theorem Told.deliver {hits : Nat} (h : Told texts browser hits s) {before later : List Reply}
    {r : Reply} (hsplit : s.replies = before ++ r :: later) {op : Operation}
    (hreq : r.req = .operation op) {view : StateView}
    (hview : browser.state r.body = some view) :
    Told texts browser hits (s.deliver r (before ++ later) view) := by
  have hmem := mem_split hsplit
  rcases h.replies r hmem with ⟨views, hread, hviews⟩
  have hone : views = [view] :=
    PageRequest.ByReqApi.view_eq (by rw [hreq]; trivial) hread hview
  subst hone
  rcases hviews view List.mem_cons_self with ⟨hle, hfound⟩
  refine ⟨h.show hle, h.simulated, h.asked, ?_, ?_⟩
  · intro r' hr'
    exact h.replies r' (mem_of_split hsplit hr')
  · intro line hline
    rcases List.mem_append.mp hline with hold | hnew
    · exact h.log line hold
    · unfold Network.lines at hnew
      split at hnew
      · rw [List.mem_singleton.mp hnew]
        exact fun hf => decide_eq_true (hfound hf)
      · cases hnew

/-- The server deals with a request: what it answers is what the hits are now. -/
theorem NetInv.handle (h : NetInv platform browser texts s st) (hreads : Reads platform browser)
    (hdist : Distinguishes platform.hash texts) {before later : List Asked} {a : Asked}
    (hsplit : s.asked = before ++ a :: later) {response : Response} {server : Server}
    (hserve : serve platform (recv (a.req.text a.headers)) s.server = .ok (response, server))
    (hlt : s.handled + a.req.cost < exactBelow) :
    NetInv platform browser texts (s.handle platform a (before ++ later) response server)
      (a.req.step st).2 := by
  have hmem := mem_split hsplit
  rcases h.told.asked a hmem with ⟨hask, hkeeps, hprev⟩
  rcases h.stores.serves hreads hdist (h.counted.exact hlt) hask hserve with ⟨hread, hstores⟩
  rcases hits_step hkeeps st with ⟨hle, hviews⟩
  have htold := h.told.mono hle
  refine ⟨hstores, h.counted.step a.req, htold.shown, htold.simulated, ?_, ?_, htold.log⟩
  · exact fun a' ha' => htold.asked a' (mem_of_split hsplit ha')
  · intro r hr
    rcases List.mem_append.mp hr with hold | hnew
    · exact htold.replies r hold
    · rw [List.mem_singleton.mp hnew]
      refine ⟨_, hread, fun view hview => ⟨hviews view hview, fun hfound => ?_⟩⟩
      -- only a `get` finds anything
      unfold Network.reply at hfound ⊢
      unfold Server.finds at hfound
      split at hfound
      · rename_i key hreq
        have hfinds : s.server.finds platform (.operation (.get key)) = true := by
          unfold Server.finds
          exact hfound
        have hget := (hits_step_get h.stores hdist (hreq ▸ hask.texts)).mp hfinds
        rw [hreq] at hview
        rw [List.mem_singleton.mp hview]
        exact Nat.lt_of_le_of_lt hprev hget
      · cases hfound

/-- A page remembers the hits that it shows. -/
theorem NetInv.ask (h : NetInv platform browser texts s st) {req : PageRequest}
    (hask : Askable texts req) (hkeeps : req.Keeps) (page : Nat) (headers : String) :
    NetInv platform browser texts (s.ask page req headers) st := by
  refine ⟨h.stores, h.counted, h.told.shown, h.told.simulated, ?_, h.told.replies, h.told.log⟩
  intro a ha
  rcases List.mem_append.mp ha with hold | hnew
  · exact h.told.asked a hold
  · rw [List.mem_singleton.mp hnew]
    exact ⟨hask, hkeeps, h.told.shown _⟩

/-- An answer that arrives shows hits that have been counted. -/
theorem NetInv.deliver (h : NetInv platform browser texts s st) {before later : List Reply}
    {r : Reply} (hsplit : s.replies = before ++ r :: later) {op : Operation}
    (hreq : r.req = .operation op) {view : StateView}
    (hview : browser.state r.body = some view) :
    NetInv platform browser texts (s.deliver r (before ++ later) view) st :=
  ⟨h.stores, h.counted, h.told.deliver hsplit hreq hview⟩

/-- What every step keeps, as long as the counters are exact. -/
theorem NetInv.step (hreads : Reads platform browser) (hdist : Distinguishes platform.hash texts)
    (hs : NetStep platform browser texts s s')
    (h : s.handled < exactBelow → ∃ st, NetInv platform browser texts s st) :
    s'.handled < exactBelow → ∃ st, NetInv platform browser texts s' st := by
  intro hlt
  cases hs with
  | ask hask hkeeps =>
    rcases h hlt with ⟨st, h⟩
    exact ⟨st, h.ask hask hkeeps _ _⟩
  | handle hsplit hserve =>
    rcases h (Nat.lt_of_le_of_lt (Nat.le_add_right _ _) hlt) with ⟨st, h⟩
    exact ⟨_, h.handle hreads hdist hsplit hserve hlt⟩
  | deliver hsplit hreq hview =>
    rcases h hlt with ⟨st, h⟩
    exact ⟨st, h.deliver hsplit hreq hview⟩
  | record hsplit _ hread =>
    rename_i before later r views _
    rcases h hlt with ⟨st, h⟩
    have hmem := mem_split hsplit
    rcases h.told.replies r hmem with ⟨views', hread', hviews⟩
    rw [hread] at hread'
    cases hread'
    refine ⟨st, h.stores, h.counted, h.told.shown, ?_, h.told.asked, ?_, h.told.log⟩
    · intro page view hview
      by_cases heq : page = r.page
      · have hview : view ∈ s.simHistory r.page ++ views := by
          rw [heq] at hview
          simpa [Network.record] using hview
        rcases List.mem_append.mp hview with hold | hnew
        · exact h.told.simulated _ view hold
        · exact (hviews view hnew).1
      · have hview : view ∈ s.simHistory page := by
          simpa [Network.record, Function.update_of_ne heq] using hview
        exact h.told.simulated page view hview
    · exact fun r' hr' => h.told.replies r' (mem_of_split hsplit hr')
  | applySimState hview =>
    rcases h hlt with ⟨st, h⟩
    exact ⟨st, h.stores, h.counted, h.told.show (h.told.simulated _ _ hview), h.told.simulated,
      h.told.asked, h.told.replies, h.told.log⟩
  | loseRequest hsplit =>
    rcases h hlt with ⟨st, h⟩
    exact ⟨st, h.stores, h.counted, h.told.shown, h.told.simulated,
      fun a ha => h.told.asked a (mem_of_split hsplit ha), h.told.replies, h.told.log⟩
  | loseReply hsplit =>
    rcases h hlt with ⟨st, h⟩
    exact ⟨st, h.stores, h.counted, h.told.shown, h.told.simulated, h.told.asked,
      fun r hr => h.told.replies r (mem_of_split hsplit hr), h.told.log⟩

/-- At the start nothing has been counted, and nothing is shown. -/
theorem NetInv.start (hs : NetStart s) :
    NetInv platform browser texts s (State.init 10 (by decide)) := by
  rcases stores_start platform.hash texts with ⟨server, hstart, hstores⟩
  rw [hs.server] at hstart
  cases hstart
  refine ⟨hstores, ⟨Nat.zero_le _, Nat.zero_le _, Nat.zero_le _⟩, ?_, ?_, ?_, ?_, ?_⟩
  · exact fun page => Nat.le_of_eq (hs.stHits page)
  · intro page view hview
    rw [hs.simHistory page] at hview
    cases hview
  · intro a ha
    rw [hs.asked] at ha
    cases ha
  · intro r hr
    rw [hs.replies] at hr
    cases hr
  · intro line hline
    rw [hs.log] at hline
    cases hline

/-- However the requests and the answers of the pages overtake each other, and whatever is lost of
them, a `get` that found its key is logged as a hit: there are no false misses. -/
theorem no_hit_logged_as_miss (platform : Platform) (browser : Browser)
    (hreads : Reads platform browser) (texts : List String)
    (hdist : Distinguishes platform.hash texts) (s : Network)
    (hs : Reachable NetStart (NetStep platform browser texts) s) (hcount : s.handled < 2 ^ 53) :
    ∀ line ∈ s.log, line.found = true → line.hit = true := by
  have hinv := Reachable.invariant
    (I := fun s => s.handled < exactBelow → ∃ st, NetInv platform browser texts s st)
    (fun s hs _ => ⟨_, NetInv.start hs⟩)
    (fun s s' hstep h => NetInv.step hreads hdist hstep h) hs
  rcases hinv hcount with ⟨st, h⟩
  exact h.told.log

end Order

/-! ## A run -/

section Run

variable {platform : Platform} {browser : Browser} {texts : List String} {s : Network}
variable {st : State String String}

/-- Any request under way can be dealt with next. -/
theorem NetInv.exists_handle (h : NetInv platform browser texts s st)
    (hreads : Reads platform browser) (hdist : Distinguishes platform.hash texts)
    {before later : List Asked} {a : Asked} (hsplit : s.asked = before ++ a :: later)
    (hlt : s.handled + a.req.cost < exactBelow) : ∃ response server,
      NetStep platform browser texts s (s.handle platform a (before ++ later) response server) ∧
      a.req.read browser response.body = some (a.req.step st).1 ∧
      NetInv platform browser texts (s.handle platform a (before ++ later) response server)
        (a.req.step st).2 := by
  rcases h.told.asked a (mem_split hsplit) with ⟨hask, _⟩
  rcases h.stores.answers hreads hdist (h.counted.exact hlt) hask a.headers with
    ⟨response, server, hserve, hread, _⟩
  exact ⟨response, server, .handle hsplit hserve, hread, h.handle hreads hdist hsplit hserve hlt⟩

/-- Two pages look up a key that has been put; the one that asks first is dealt with last, and
told first. -/
theorem overtaking_run (hash : String → UInt64) (hdist : Distinguishes hash ["apple", "red"]) :
    ∃ s, Reachable NetStart (NetStep (digitsPlatform hash) digitsBrowser ["apple", "red"]) s ∧
      s.handled < 2 ^ 53 ∧ s.log.length = 2 ∧
      ∀ line ∈ s.log, line.key = "apple" ∧ line.found = true := by
  have hput : Askable ["apple", "red"] (.operation (.put "apple" "red")) :=
    ⟨by decide, by decide, List.Subset.refl _⟩
  have hget : Askable ["apple", "red"] (.operation (.get "apple")) :=
    ⟨by decide, by decide, by decide⟩
  have hreads := reads_digits hash
  rcases stores_start hash ["apple", "red"] with ⟨server₀, hstart, _⟩
  have hs : NetStart (Network.mk server₀ (fun _ => 0) (fun _ => []) [] [] [] 0) :=
    ⟨hstart, fun _ => rfl, fun _ => rfl, rfl, rfl, rfl, rfl⟩
  have h₀ : NetInv (digitsPlatform hash) digitsBrowser ["apple", "red"] _ _ := .start hs
  -- the key is put; that the answer arrives does not matter
  have h₁ := h₀.ask hput (fun _ => nofun) 0 ""
  rcases h₁.exists_handle hreads hdist (rfl : _ = [] ++ _ :: [])
    (show 0 + 1 < exactBelow by decide) with ⟨response₂, server₂, hstep₂, _, h₂⟩
  have hstored : "apple" ∈ keys (Operation.next (State.init 10 (by decide))
      (.put "apple" "red")).store.items :=
    List.mem_map_of_mem (mem_of_lookup (Store.lookup_put_self _ "apple" "red"))
  -- both pages ask, and the second one is dealt with first
  have h₃ := h₂.ask hget (fun _ => nofun) 0 ""
  have h₄ := h₃.ask hget (fun _ => nofun) 1 ""
  have hfound₁ := (h₄.stores.finds_iff hdist List.mem_cons_self).mpr hstored
  rcases h₄.exists_handle hreads hdist (rfl : _ = [_] ++ _ :: [])
    (show 0 + 1 + 1 < exactBelow by decide) with ⟨response₅, server₅, hstep₅, hread₁, h₅⟩
  have hstored₅ : "apple" ∈ keys (Operation.next (Operation.next (State.init 10 (by decide))
      (.put "apple" "red")) (.get "apple")).store.items := by decide
  have hfound₀ := (h₅.stores.finds_iff hdist List.mem_cons_self).mpr hstored₅
  rcases h₅.exists_handle hreads hdist (rfl : _ = [] ++ _ :: [])
    (show 0 + 1 + 1 + 1 < exactBelow by decide) with ⟨response₆, server₆, hstep₆, hread₀, h₆⟩
  have hreq : (PageRequest.operation (.get "apple")).ByReqApi := trivial
  have hview₁ := hreq.state_eq hread₁
  have hview₀ := hreq.state_eq hread₀
  have hrun := (((((Reachable.start hs).tail (.ask hput fun _ => nofun)).tail hstep₂).tail
    (.ask hget fun _ => nofun)).tail (.ask hget fun _ => nofun)).tail hstep₅ |>.tail hstep₆
  have hrun₇ := hrun.tail (.deliver (rfl : _ = [_, _] ++ _ :: []) rfl hview₀)
  have hrun₈ := hrun₇.tail (.deliver (rfl : _ = [_] ++ _ :: []) rfl hview₁)
  refine ⟨_, hrun₈, (show 0 + 1 + 1 + 1 < 2 ^ 53 by decide), rfl, ?_⟩
  intro line hline
  rcases List.mem_cons.mp hline with rfl | hline
  · exact ⟨rfl, hfound₀⟩
  · cases List.mem_singleton.mp hline
    exact ⟨rfl, hfound₁⟩

/-- Both pages log a hit. -/
theorem no_hit_logged_as_miss_apple : ∃ s : Network,
    Reachable NetStart (NetStep (digitsPlatform fun str => if str = "apple" then 10 else 20)
      digitsBrowser ["apple", "red"]) s ∧
    s.log.map (fun line => (line.key, line.hit)) = [("apple", true), ("apple", true)] := by
  have hdist : Distinguishes (fun str => if str = "apple" then 10 else 20) ["apple", "red"] := by
    decide
  rcases overtaking_run _ hdist with ⟨s, hs, hcount, hlen, hlines⟩
  refine ⟨s, hs, ?_⟩
  have hline : ∀ line ∈ s.log, (line.key, line.hit) = ("apple", true) := by
    intro line hmem
    rcases hlines line hmem with ⟨hkey, hfound⟩
    rw [hkey, no_hit_logged_as_miss _ _ (reads_digits _) _ hdist s hs hcount line hmem hfound]
  rw [List.map_eq_replicate_iff.mpr hline, hlen]
  rfl

end Run

end LruCache
