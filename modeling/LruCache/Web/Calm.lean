import LruCache.Web.Network

/-!
# A page that waits

What `reqApi` says of a `get` is right if there is one page, and it waits for each answer before it
asks again: the hits that it shows are those that the server has counted, also after a reset.

Main results:

* `Calm.step` — between two requests the page shows the hits of the server.
* `calm_round` — a request can always be carried out, and what is logged of a `get` is what comes
  of it.
* `calm_log_exact` — in every run of such a page, a `get` is logged as a hit exactly if the key was
  found.

Deliberate scope limits:

* The page is there from the start of the server on, and its requests are those of `reqApi`: the
  operations, and the reset of `bootSystem`. It runs no simulation. One that does shows the hits of
  the state that is played back, and logs `GET nope -> HIT` if it asks meanwhile.
* No other page asks for anything, and nothing is lost; `LruCache.Web.Flight` is about the log
  without these assumptions.
-/

namespace LruCache

open Recency Transition

/-! ## Steps -/

/-- The page waits for each answer, no other page asks for anything, and nothing is lost. -/
inductive CalmStep (platform : Platform) (browser : Browser) (texts : List String) (s : Network) :
    Network → Prop
  | ask {req : PageRequest} {headers : String} : s.asked = [] → s.replies = [] →
      Askable texts req → req.ByReqApi → CalmStep platform browser texts s (s.ask 0 req headers)
  | handle {a : Asked} {response : Response} {server : Server} : s.asked = [a] →
      serve platform (recv (a.req.text a.headers)) s.server = .ok (response, server) →
      CalmStep platform browser texts s (s.handle platform a [] response server)
  | deliver {r : Reply} {view : StateView} : s.replies = [r] → browser.state r.body = some view →
      CalmStep platform browser texts s (s.deliver r [] view)

/-- What is true of the answer `r`, if the server has counted `hits` now. -/
structure CalmReply (browser : Browser) (hits : Nat) (r : Reply) : Prop where
  page : r.page = 0
  told : ∀ view, browser.state r.body = some view → view.hits = hits ∧
    ∀ key, r.req = .operation (.get key) → (view.hits > r.prevHits ↔ r.found = true)

/-- Between two requests the page shows the hits that the server has counted. -/
structure Calm (platform : Platform) (browser : Browser) (texts : List String) (s : Network)
    (st : State String String) : Prop where
  stores : s.server.Stores platform.hash texts st
  counted : Counted s.handled st
  idle : s.asked = [] → s.replies = [] → s.stHits 0 = st.hits
  alone : s.asked = [] ∨ s.replies = []
  asked : ∀ a ∈ s.asked,
    Askable texts a.req ∧ a.req.ByReqApi ∧ a.page = 0 ∧ a.prevHits = st.hits
  replies : ∀ r ∈ s.replies, CalmReply browser st.hits r
  log : ∀ line ∈ s.log, line.hit = line.found

/-! ## One step -/

section Step

variable {platform : Platform} {browser : Browser} {texts : List String} {s s' : Network}
variable {st : State String String}

/-- The page asks: it remembers the hits of the server. -/
theorem Calm.ask (h : Calm platform browser texts s st) (hasked : s.asked = [])
    (hreplies : s.replies = []) {req : PageRequest} (hask : Askable texts req)
    (hapi : req.ByReqApi) (headers : String) :
    Calm platform browser texts (s.ask 0 req headers) st := by
  refine ⟨h.stores, h.counted, ?_, Or.inr hreplies, ?_, h.replies, h.log⟩
  · intro hnone
    exact absurd hnone (by simp [Network.ask])
  · intro a ha
    have ha : a ∈ s.asked ++ [_] := ha
    rw [hasked, List.nil_append] at ha
    rw [List.mem_singleton.mp ha]
    exact ⟨hask, hapi, rfl, h.idle hasked hreplies⟩

/-- The answer to a `get` has more hits than are remembered exactly if its key was found. -/
theorem Calm.reply (h : Calm platform browser texts s st)
    (hdist : Distinguishes platform.hash texts) {a : Asked} (ha : a ∈ s.asked)
    {response : Response}
    (hread : a.req.read browser response.body = some (a.req.step st).1) :
    CalmReply browser (a.req.step st).2.hits (s.reply platform a response) := by
  rcases h.asked a ha with ⟨hask, hapi, hpage, hprev⟩
  refine ⟨hpage, fun view hview => ?_⟩
  have hstate := hapi.state_eq hread
  have hview : browser.state response.body = some view := hview
  rw [hview] at hstate
  cases hstate
  refine ⟨rfl, ?_⟩
  intro key hkey
  have hreq : a.req = .operation (.get key) := hkey
  have hget := hits_step_get h.stores hdist (hreq ▸ hask.texts)
  unfold Network.reply
  rw [hprev, hreq]
  exact hget.symm

/-- The server deals with the only request. -/
theorem Calm.handle (h : Calm platform browser texts s st) (hreads : Reads platform browser)
    (hdist : Distinguishes platform.hash texts) {a : Asked} (ha : s.asked = [a])
    {response : Response} {server : Server}
    (hserve : serve platform (recv (a.req.text a.headers)) s.server = .ok (response, server))
    (hlt : s.handled + a.req.cost < exactBelow) :
    Calm platform browser texts (s.handle platform a [] response server) (a.req.step st).2 := by
  have hmem : a ∈ s.asked := ha ▸ List.mem_cons_self
  have hnone : s.replies = [] := by
    refine h.alone.resolve_left ?_
    rw [ha]
    exact List.cons_ne_nil a []
  rcases h.asked a hmem with ⟨hask, _⟩
  rcases h.stores.serves hreads hdist (h.counted.exact hlt) hask hserve with ⟨hread, hstores⟩
  refine ⟨hstores, h.counted.step a.req, ?_, Or.inl rfl, nofun, ?_, h.log⟩
  · intro _ hreplies
    exact absurd hreplies (by simp [Network.handle])
  · intro r hr
    have hr : r ∈ s.replies ++ [_] := hr
    rw [hnone, List.nil_append] at hr
    rw [List.mem_singleton.mp hr]
    exact h.reply hdist hmem hread

/-- The answer is rendered, and logged. -/
theorem Calm.deliver (h : Calm platform browser texts s st) {r : Reply} (hr : s.replies = [r])
    {view : StateView} (hview : browser.state r.body = some view) :
    Calm platform browser texts (s.deliver r [] view) st := by
  rcases h.replies r (hr ▸ List.mem_cons_self) with ⟨hpage, htold⟩
  rcases htold view hview with ⟨hhits, hfound⟩
  refine ⟨h.stores, h.counted, ?_, Or.inr rfl, h.asked, nofun, ?_⟩
  · intro _ _
    show Function.update s.stHits r.page view.hits 0 = st.hits
    rw [hpage, Function.update_self, hhits]
  · intro line hline
    rcases List.mem_append.mp hline with hold | hnew
    · exact h.log line hold
    · unfold Network.lines at hnew
      split at hnew
      · rename_i key hget
        rw [List.mem_singleton.mp hnew]
        have hiff := hfound key hget
        dsimp only
        cases hf : r.found with
        | true => exact decide_eq_true (hiff.mpr hf)
        | false =>
          refine decide_eq_false fun hgt => ?_
          rw [hiff.mp hgt] at hf
          cases hf
      · cases hnew

/-- What every step keeps, as long as the counters are exact. -/
theorem Calm.step (hs : CalmStep platform browser texts s s')
    (hreads : Reads platform browser) (hdist : Distinguishes platform.hash texts)
    (h : s.handled < exactBelow → ∃ st, Calm platform browser texts s st) :
    s'.handled < exactBelow → ∃ st, Calm platform browser texts s' st := by
  intro hlt
  cases hs with
  | ask hasked hreplies hask hapi =>
    rcases h hlt with ⟨st, h⟩
    exact ⟨st, h.ask hasked hreplies hask hapi _⟩
  | handle ha hserve =>
    rcases h (Nat.lt_of_le_of_lt (Nat.le_add_right _ _) hlt) with ⟨st, h⟩
    exact ⟨_, h.handle hreads hdist ha hserve hlt⟩
  | deliver hr hview =>
    rcases h hlt with ⟨st, h⟩
    exact ⟨st, h.deliver hr hview⟩

theorem Calm.start (hs : NetStart s) :
    Calm platform browser texts s (State.init 10 (by decide)) := by
  rcases stores_start platform.hash texts with ⟨server, hstart, hstores⟩
  rw [hs.server] at hstart
  cases hstart
  refine ⟨hstores, ⟨Nat.zero_le _, Nat.zero_le _, Nat.zero_le _⟩, fun _ _ => hs.stHits 0,
    Or.inl hs.asked, ?_, ?_, ?_⟩
  · rw [hs.asked]
    exact nofun
  · rw [hs.replies]
    exact nofun
  · rw [hs.log]
    exact nofun

end Step

/-! ## Any run -/

/-- A page that is alone and waits for its answers logs of every `get` what came of it. -/
theorem calm_log_exact (platform : Platform) (browser : Browser)
    (hreads : Reads platform browser) (texts : List String)
    (hdist : Distinguishes platform.hash texts) (s : Network)
    (hs : Reachable NetStart (CalmStep platform browser texts) s) (hcount : s.handled < 2 ^ 53) :
    ∀ line ∈ s.log, line.hit = line.found := by
  have hinv := Reachable.invariant
    (I := fun s => s.handled < exactBelow → ∃ st, Calm platform browser texts s st)
    (fun s hs _ => ⟨_, Calm.start hs⟩)
    (fun s s' hstep h => Calm.step hstep hreads hdist h) hs
  rcases hinv hcount with ⟨st, h⟩
  exact h.log

section Round

variable {platform : Platform} {browser : Browser} {texts : List String} {s : Network}
variable {st : State String String}

/-- The page can carry out a request: ask, and wait for the answer. -/
theorem calm_round (h : Calm platform browser texts s st) (hreads : Reads platform browser)
    (hdist : Distinguishes platform.hash texts) (hasked : s.asked = []) (hreplies : s.replies = [])
    {req : PageRequest} (hask : Askable texts req) (hapi : req.ByReqApi)
    (hlt : s.handled + req.cost < exactBelow) : ∃ s',
      Relation.ReflTransGen (CalmStep platform browser texts) s s' ∧
      Calm platform browser texts s' (req.step st).2 ∧ s'.asked = [] ∧ s'.replies = [] ∧
      s'.handled = s.handled + req.cost ∧ ∃ lines, s'.log = s.log ++ lines ∧
        ((∀ key, req ≠ .operation (.get key)) → lines = []) ∧
        ∀ key, req = .operation (.get key) → ∃ line, lines = [line] ∧ line.key = key ∧
          (line.hit = true ↔ key ∈ keys st.store.items) := by
  have h₁ := h.ask hasked hreplies hask hapi ""
  have hone : (s.ask 0 req "").asked = [s.request 0 req ""] := by
    simp [Network.ask, hasked]
  have hstep₁ : CalmStep platform browser texts s (s.ask 0 req "") :=
    .ask hasked hreplies hask hapi
  rcases h₁.stores.answers hreads hdist (h₁.counted.exact hlt) hask "" with
    ⟨response, server, hserve, hread, _⟩
  have hview := hapi.state_eq hread
  have h₂ := h₁.handle hreads hdist hone hserve hlt
  have hreply : ((s.ask 0 req "").handle platform (s.request 0 req "") [] response server).replies =
      [(s.ask 0 req "").reply platform (s.request 0 req "") response] := by
    simp [Network.handle, Network.ask, hreplies]
  have hstep₂ : CalmStep platform browser texts _ _ := .handle hone hserve
  have hstep₃ : CalmStep platform browser texts _ _ := .deliver hreply hview
  have h₃ := h₂.deliver hreply hview
  refine ⟨_, .tail (.tail (.tail .refl hstep₁) hstep₂) hstep₃, h₃, rfl, rfl, rfl, _, rfl, ?_, ?_⟩
  · intro hother
    unfold Network.lines
    split
    · rename_i key hget
      exact absurd hget (hother key)
    · rfl
  rintro key rfl
  refine ⟨_, rfl, rfl, ?_⟩
  have hexact := h₃.log _ (List.mem_append_right _ List.mem_cons_self)
  rw [hexact]
  exact h.stores.finds_iff hdist (hask.texts List.mem_cons_self)

end Round

/-- A page puts a key and finds it, resets the cache, and looks for the key again. -/
theorem calm_log_exact_apple : ∃ s : Network,
    Reachable NetStart (CalmStep (digitsPlatform fun str => if str = "apple" then 10 else 20)
      digitsBrowser ["apple", "red"]) s ∧
    s.log.map (fun line => (line.key, line.hit)) = [("apple", true), ("apple", false)] ∧
    s.log.map GetLine.found = [true, false] := by
  let hash : String → UInt64 := fun str => if str = "apple" then 10 else 20
  have hdist : Distinguishes hash ["apple", "red"] := by decide
  have hreads := reads_digits hash
  have hput : Askable ["apple", "red"] (.operation (.put "apple" "red")) :=
    ⟨by decide, by decide, List.Subset.refl _⟩
  have hget : Askable ["apple", "red"] (.operation (.get "apple")) :=
    ⟨by decide, by decide, by decide⟩
  have hreset : Askable ["apple", "red"] (.reset "3") :=
    ⟨by decide, by decide, List.nil_subset _⟩
  rcases stores_start hash ["apple", "red"] with ⟨server, hstart, _⟩
  have hs : NetStart (Network.mk server (fun _ => 0) (fun _ => []) [] [] [] 0) :=
    ⟨hstart, fun _ => rfl, fun _ => rfl, rfl, rfl, rfl, rfl⟩
  have h : Calm (digitsPlatform hash) digitsBrowser ["apple", "red"] _ _ := .start hs
  -- four rounds: put, get, reset, get
  rcases calm_round h hreads hdist rfl rfl hput trivial (show 0 + 1 < exactBelow by decide) with
    ⟨s₁, hrun₁, h₁, hasked₁, hreplies₁, hhandled₁, lines₁, hlog₁, hnone₁, _⟩
  have hhandled₁ : s₁.handled = 1 := hhandled₁
  rcases calm_round h₁ hreads hdist hasked₁ hreplies₁ hget trivial
    (by rw [hhandled₁]; decide) with
    ⟨s₂, hrun₂, h₂, hasked₂, hreplies₂, hhandled₂, lines₂, hlog₂, _, hline₂⟩
  have hhandled₂ : s₂.handled = 2 := by rw [hhandled₂, hhandled₁]; rfl
  rcases calm_round h₂ hreads hdist hasked₂ hreplies₂ hreset trivial
    (by rw [hhandled₂]; decide) with
    ⟨s₃, hrun₃, h₃, hasked₃, hreplies₃, hhandled₃, lines₃, hlog₃, hnone₃, _⟩
  have hhandled₃ : s₃.handled = 2 := by rw [hhandled₃, hhandled₂]; rfl
  rcases calm_round h₃ hreads hdist hasked₃ hreplies₃ hget trivial
    (by rw [hhandled₃]; decide) with
    ⟨s₄, hrun₄, _, _, _, hhandled₄, lines₄, hlog₄, _, hline₄⟩
  rcases hline₂ "apple" rfl with ⟨line₂, rfl, hkey₂, hhit₂⟩
  rcases hline₄ "apple" rfl with ⟨line₄, rfl, hkey₄, hhit₄⟩
  have hlog : s₄.log = [line₂, line₄] := by
    rw [hlog₄, hlog₃, hlog₂, hlog₁, hnone₁ (fun _ => nofun), hnone₃ (fun _ => nofun)]
    rfl
  have hreach : Reachable NetStart (CalmStep (digitsPlatform hash) digitsBrowser
      ["apple", "red"]) s₄ := ⟨_, hs, ((hrun₁.trans hrun₂).trans hrun₃).trans hrun₄⟩
  have hexact := calm_log_exact _ _ hreads _ hdist s₄ hreach
    (by rw [hhandled₄, hhandled₃]; decide)
  rw [hlog] at hexact
  have hyes : line₂.hit = true := hhit₂.mpr (by decide)
  have hno : line₄.hit = false := Bool.eq_false_iff.mpr (mt hhit₄.mp (by decide))
  have hfound₂ := hexact line₂ List.mem_cons_self
  have hfound₄ := hexact line₄ (List.mem_cons_of_mem _ List.mem_cons_self)
  refine ⟨s₄, hreach, ?_, ?_⟩
  · rw [hlog, List.map_cons, List.map_cons, hkey₂, hkey₄, hyes, hno]
    rfl
  · rw [hlog, List.map_cons, List.map_cons, ← hfound₂, ← hfound₄, hyes, hno]
    rfl

end LruCache
