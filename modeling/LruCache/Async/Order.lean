import LruCache.Async.Sequential

/-!
# Requests and responses in order

`AsyncInv` accounts for every request and every response at every point of every interleaving:
the requests are, in the order of the calls, those applied, those flushed, the one in the
worker's hands, those in the inbox and the one the client is trying to push; the responses are,
in the same order, those polled, those in the outbox and the one the worker is trying to push.
What the worker did to the cache is what one thread would have done.

Main results:

* `AsyncInv.clientStep`, `AsyncInv.moves`: one lemma for each thread, from one for each kind of
  move;
* `AsyncInv.progress`: the worker never faults;
* `responses_in_order`: before the shutdown, what was answered is what one thread would be told.
-/

namespace LruCache

open BoundedFifo Transition

/-! ## Where requests and responses are -/

/-- The request that the worker has popped and not yet dealt with. -/
def Worker.holds : Worker → List CacheRequest
  | .apply req => [req]
  | .flush req => [req]
  | _ => []

/-- The response that the worker is trying to push. -/
def Worker.answers : Worker → List CacheResponse
  | .respond res => [res]
  | .retry res => [res]
  | _ => []

/-- Has the worker left the main loop? -/
def Worker.draining : Worker → Bool
  | .drain => true
  | .flush _ => true
  | .done => true
  | _ => false

/-- The request that the client is trying to push. -/
def Client.holds : Client → List CacheRequest
  | .pushing req => [req]
  | _ => []

/-- The last request is a GET. -/
def EndsWithGet (reqs : List CacheRequest) : Prop :=
  ∃ reqs' req, reqs = reqs' ++ [req] ∧ req.type = .get

/-- The responses `out` to the requests applied so far are polled, in the outbox, or in the
worker's hands; or the last of them, to a GET, was dropped when the worker stopped. -/
def Answered (s : AsyncState) (out : List CacheResponse) : Prop :=
  (s.polled ++ s.outbox ++ s.worker.answers = out ∧
    (s.worker.answers ≠ [] → EndsWithGet s.applied)) ∨
  (s.running = false ∧ (s.worker = .test ∨ s.worker.draining = true) ∧ EndsWithGet s.applied ∧
    ∃ res, s.polled ++ s.outbox ++ [res] = out)

/-- What is in the cache and in the responses is what one thread would have computed. -/
def Served (hash : UInt64 → Nat) (c₀ : Cache) (s : AsyncState) : Prop :=
  ∃ out c out', sequential hash s.applied c₀ = .ok (out, c) ∧ Answered s out ∧
    sequential hash (puts s.flushed) c = .ok (out', s.cache)

structure AsyncInv (hash : UInt64 → Nat) (c₀ : Cache) (q : Nat) (s : AsyncState) : Prop where
  accounted : s.submitted =
    s.applied ++ s.flushed ++ s.worker.holds ++ s.inbox ++ s.client.holds
  served : Served hash c₀ s
  sim : ∃ t, Sim hash s.cache t
  unflushed : s.worker.draining = false → s.flushed = []
  stopped : s.worker.draining = true → s.running = false
  joining : s.running = false → s.client = .joining
  finished : s.worker = .done → s.inbox = []
  inbox_le : s.inbox.length ≤ q
  outbox_le : s.outbox.length ≤ q

/-! ## The client -/

section Client

variable {hash : UInt64 → Nat} {c₀ : Cache} {q : Nat} {s : AsyncState}

/-- While the client is not in the destructor, the worker has not been told to stop. -/
theorem AsyncInv.running_of_client (h : AsyncInv hash c₀ q s) (hc : s.client ≠ .joining) :
    s.running = true := by
  cases hr : s.running with
  | true => rfl
  | false => exact absurd (h.joining hr) hc

theorem AsyncInv.submit (h : AsyncInv hash c₀ q s) (hc : s.client = .idle) (req : CacheRequest) :
    AsyncInv hash c₀ q (s.submit req) := by
  have hrun := h.running_of_client (by rw [hc]; exact Client.noConfusion)
  refine { h with accounted := ?_, served := h.served, joining := ?_ }
  · have haccounted := h.accounted
    rw [hc] at haccounted
    show s.submitted ++ [req] = s.applied ++ s.flushed ++ s.worker.holds ++ s.inbox ++ [req]
    rw [haccounted, Client.holds]
    · rw [List.append_nil]
    · exact fun _ => Client.noConfusion
  · intro hstop
    exact absurd (hrun.symm.trans hstop) Bool.noConfusion

/-- The first response moves from the outbox to the polled ones. -/
theorem AsyncInv.poll (h : AsyncInv hash c₀ q s) : AsyncInv hash c₀ q
    { s with outbox := (pop s.outbox).2, polled := s.polled ++ (pop s.outbox).1.toList } := by
  have hmove : s.polled ++ (pop s.outbox).1.toList ++ (pop s.outbox).2 = s.polled ++ s.outbox := by
    cases s.outbox with
    | nil => simp
    | cons res outbox => simp
  have hle : (pop s.outbox).2.length ≤ s.outbox.length := by
    cases s.outbox with
    | nil => exact Nat.le_refl _
    | cons res outbox => exact Nat.le_succ _
  refine { h with served := ?_, outbox_le := Nat.le_trans hle h.outbox_le }
  rcases h.served with ⟨out, c, out', hseq, hans, hflush⟩
  refine ⟨out, c, out', hseq, ?_, hflush⟩
  unfold Answered at hans ⊢
  rw [← hmove] at hans
  exact hans

theorem AsyncInv.destroy (h : AsyncInv hash c₀ q s) (hc : s.client = .idle) :
    AsyncInv hash c₀ q { s with running := false, client := .joining } := by
  have haccounted := h.accounted
  rw [hc] at haccounted
  refine { h with accounted := haccounted, served := ?_, stopped := fun _ => rfl
                  joining := fun _ => rfl }
  rcases h.served with ⟨out, c, out', hseq, hans, hflush⟩
  refine ⟨out, c, out', hseq, ?_, hflush⟩
  rcases hans with hall | ⟨_, hrest⟩
  · exact Or.inl hall
  · exact Or.inr ⟨rfl, hrest⟩

/-- The request moves from the client to the inbox. -/
theorem AsyncInv.pushed (h : AsyncInv hash c₀ q s) {req : CacheRequest}
    (hc : s.client = .pushing req) (hlt : s.inbox.length < q) :
    AsyncInv hash c₀ q { s with inbox := s.inbox ++ [req], client := .idle } := by
  have hrun := h.running_of_client (by rw [hc]; exact Client.noConfusion)
  have haccounted := h.accounted
  rw [hc] at haccounted
  refine { h with accounted := ?_, served := h.served, joining := ?_, finished := ?_
                  inbox_le := ?_ }
  · show s.submitted = _ ++ (s.inbox ++ [req]) ++ []
    rw [haccounted, List.append_nil, ← List.append_assoc]
    rfl
  · intro hstop
    exact absurd (hrun.symm.trans hstop) Bool.noConfusion
  -- a worker that has returned was told to stop, and then the client is not here
  · intro hdone
    have hdraining : s.worker.draining = true := by
      rw [show s.worker = .done from hdone]
      rfl
    exact absurd (hrun.symm.trans (h.stopped hdraining)) Bool.noConfusion
  · rw [List.length_append, List.length_singleton]
    exact hlt

/-- A step of the client keeps the invariant. -/
theorem AsyncInv.clientStep (h : AsyncInv hash c₀ q s) (call : ClientCall) :
    AsyncInv hash c₀ q (clientStep q call s) := by
  cases hc : s.client with
  | idle =>
    rw [clientStep_call hc]
    cases call with
    | asyncPut key value => exact h.submit hc _
    | asyncGet reqId key => exact h.submit hc _
    | pollResponse => exact h.poll
    | destroy => exact h.destroy hc
  | pushing req =>
    rcases Nat.lt_or_ge s.inbox.length q with hlt | hfull
    · rw [clientStep_push hc hlt]
      exact h.pushed hc hlt
    · rw [clientStep_spin hc hfull]
      exact h
  | joining =>
    rw [clientStep_joining hc]
    exact h

end Client

/-! ## The worker -/

section Worker

variable {hash : UInt64 → Nat} {c₀ : Cache} {q : Nat} {s : AsyncState} {req : CacheRequest}
variable {res : CacheResponse}

/-- In the main loop nothing has been dropped, unless the worker is about to leave it. -/
theorem Answered.all {out : List CacheResponse} (h : Answered s out) (hw : s.worker ≠ .test)
    (hd : s.worker.draining = false) : s.polled ++ s.outbox ++ s.worker.answers = out ∧
      (s.worker.answers ≠ [] → EndsWithGet s.applied) := by
  rcases h with hall | ⟨_, htest | hdraining, _⟩
  · exact hall
  · exact absurd htest hw
  · exact absurd (hd.symm.trans hdraining) Bool.noConfusion

/-- The worker goes on without taking or giving anything. -/
theorem AsyncInv.goto (h : AsyncInv hash c₀ q s) {w : Worker} (hholds : w.holds = s.worker.holds)
    (hanswers : w.answers = s.worker.answers)
    (hunflushed : w.draining = false → s.worker.draining = false)
    (hstopped : w.draining = true → s.running = false)
    (hfinished : w = .done → s.inbox = [])
    (hdropped : s.running = false → s.worker = .test ∨ s.worker.draining = true →
      w = .test ∨ w.draining = true) :
    AsyncInv hash c₀ q { s with worker := w } := by
  refine { h with accounted := ?_, served := ?_
                  unflushed := fun hd => h.unflushed (hunflushed hd)
                  stopped := hstopped, finished := hfinished }
  · show s.submitted = s.applied ++ s.flushed ++ w.holds ++ s.inbox ++ s.client.holds
    rw [hholds]
    exact h.accounted
  · rcases h.served with ⟨out, c, out', hseq, hans, hflush⟩
    refine ⟨out, c, out', hseq, ?_, hflush⟩
    unfold Answered at hans ⊢
    show (s.polled ++ s.outbox ++ w.answers = out ∧ (w.answers ≠ [] → EndsWithGet s.applied)) ∨ _
    rw [hanswers]
    -- a response dropped before stays the last one as long as the worker only drains
    rcases hans with hall | ⟨hstop, hwork, hrest⟩
    · exact Or.inl hall
    · exact Or.inr ⟨hstop, hdropped hstop hwork, hrest⟩

/-- The request moves from the inbox to the worker. -/
theorem AsyncInv.popped (h : AsyncInv hash c₀ q s) {inbox : List CacheRequest} {w : Worker}
    (hi : s.inbox = req :: inbox) (hold : s.worker.holds = []) (hholds : w.holds = [req])
    (hanswers : w.answers = s.worker.answers) (hdraining : w.draining = s.worker.draining)
    (hw : s.worker ≠ .test) (hdone : w ≠ .done) :
    AsyncInv hash c₀ q { s with inbox := inbox, worker := w } := by
  have hle := h.inbox_le
  rw [hi, List.length_cons] at hle
  refine { h with accounted := ?_, served := ?_, unflushed := ?_, stopped := ?_
                  finished := fun hd => absurd hd hdone, inbox_le := Nat.le_of_succ_le hle }
  · show s.submitted = s.applied ++ s.flushed ++ w.holds ++ inbox ++ s.client.holds
    rw [h.accounted, hold, hholds, hi]
    simp
  · rcases h.served with ⟨out, c, out', hseq, hans, hflush⟩
    refine ⟨out, c, out', hseq, ?_, hflush⟩
    unfold Answered at hans ⊢
    show (s.polled ++ s.outbox ++ w.answers = out ∧ (w.answers ≠ [] → EndsWithGet s.applied)) ∨ _
    rw [hanswers]
    rcases hans with hall | ⟨hstop, hwork, hrest⟩
    · exact Or.inl hall
    · refine Or.inr ⟨hstop, Or.inr ?_, hrest⟩
      show w.draining = true
      rw [hdraining]
      exact hwork.resolve_left hw
  · intro hd
    exact h.unflushed (hdraining.symm.trans hd)
  · intro hd
    exact h.stopped (hdraining.symm.trans hd)

/-- The request moves from the worker's hands to the applied ones, and its response, if any,
into the worker's hands. -/
theorem AsyncInv.applied (h : AsyncInv hash c₀ q s) (hw : s.worker = .apply req)
    {r : Option CacheResponse} {cache : Cache}
    (happly : applyRequest hash req s.cache = .ok (r, cache)) :
    AsyncInv hash c₀ q { s with
      cache := cache, applied := s.applied ++ [req], worker := Worker.after r } := by
  rcases h.sim with ⟨t, ht⟩
  have hsim := ht.of_apply happly
  have hd : s.worker.draining = false := by rw [hw]; rfl
  have hnone : s.flushed = [] := h.unflushed hd
  have hafter : (Worker.after r).holds = [] ∧ (Worker.after r).answers = r.toList ∧
      (Worker.after r).draining = false ∧ Worker.after r ≠ .done := by
    cases r with
    | none => exact ⟨rfl, rfl, rfl, Worker.noConfusion⟩
    | some res => exact ⟨rfl, rfl, rfl, Worker.noConfusion⟩
  rcases hafter with ⟨hholds, hanswers, hdraining, hdone⟩
  refine { h with accounted := ?_, served := ?_, sim := hsim, unflushed := fun _ => hnone
                  stopped := ?_, finished := fun hd => absurd hd hdone }
  · have haccounted := h.accounted
    rw [hw, hnone] at haccounted
    show s.submitted = s.applied ++ [req] ++ s.flushed ++ (Worker.after r).holds ++ s.inbox ++
      s.client.holds
    rw [haccounted, hnone, hholds]
    simp [Worker.holds]
  · rcases h.served with ⟨out, c, out', hseq, hans, hflush⟩
    have hall := (hans.all (by rw [hw]; exact Worker.noConfusion) hd).1
    rw [hw] at hall
    -- nothing is flushed yet, so the cache is what the applied requests have made of it
    have hcache : c = s.cache := by
      rw [hnone] at hflush
      cases hflush
      rfl
    rw [hcache] at hseq
    refine ⟨_, cache, [], sequential_snoc hseq happly, Or.inl ⟨?_, ?_⟩, ?_⟩
    · show s.polled ++ s.outbox ++ (Worker.after r).answers = out ++ r.toList
      rw [hanswers, ← hall, Worker.answers]
      · rw [List.append_nil]
      · exact fun _ => Worker.noConfusion
      · exact fun _ => Worker.noConfusion
    · intro hne
      refine ⟨s.applied, req, rfl, ?_⟩
      have hsome := applyRequest_isSome happly
      cases r with
      | none => exact absurd rfl hne
      | some res => exact of_decide_eq_true hsome.symm
    · show sequential hash (puts s.flushed) cache = .ok ([], cache)
      rw [hnone]
      rfl
  · intro hd'
    exact absurd (hdraining.symm.trans hd') Bool.noConfusion

/-- The response moves from the worker to the outbox. -/
theorem AsyncInv.responded (h : AsyncInv hash c₀ q s) (hw : s.worker = .respond res)
    (hlt : s.outbox.length < q) :
    AsyncInv hash c₀ q { s with outbox := s.outbox ++ [res], worker := .test } := by
  have hd : s.worker.draining = false := by rw [hw]; rfl
  have haccounted := h.accounted
  rw [hw] at haccounted
  refine { h with accounted := haccounted, served := ?_
                  unflushed := fun _ => h.unflushed hd, stopped := Bool.noConfusion
                  finished := Worker.noConfusion, outbox_le := ?_ }
  · rcases h.served with ⟨out, c, out', hseq, hans, hflush⟩
    have hall := (hans.all (by rw [hw]; exact Worker.noConfusion) hd).1
    rw [hw] at hall
    refine ⟨out, c, out', hseq, Or.inl ⟨?_, fun hne => absurd rfl hne⟩, hflush⟩
    show s.polled ++ (s.outbox ++ [res]) ++ [] = out
    rw [List.append_nil, ← List.append_assoc]
    exact hall
  · rw [List.length_append, List.length_singleton]
    exact hlt

/-- The worker was told to stop while it was trying to push a response: it is dropped. -/
theorem AsyncInv.dropped (h : AsyncInv hash c₀ q s) (hw : s.worker = .retry res)
    (hstop : s.running = false) : AsyncInv hash c₀ q { s with worker := .test } := by
  have hd : s.worker.draining = false := by rw [hw]; rfl
  have haccounted := h.accounted
  rw [hw] at haccounted
  refine { h with accounted := haccounted, served := ?_
                  unflushed := fun _ => h.unflushed hd, stopped := Bool.noConfusion
                  finished := Worker.noConfusion }
  rcases h.served with ⟨out, c, out', hseq, hans, hflush⟩
  have hall := hans.all (by rw [hw]; exact Worker.noConfusion) hd
  rw [hw] at hall
  exact ⟨out, c, out', hseq, Or.inr ⟨hstop, Or.inl rfl, hall.2 (List.cons_ne_nil _ _), res,
    hall.1⟩, hflush⟩

/-- The request moves from the worker's hands to the flushed ones; `cache` is the cache after the
PUTs flushed by then. -/
theorem AsyncInv.flushed (h : AsyncInv hash c₀ q s) (hw : s.worker = .flush req) {cache : Cache}
    (hsim : ∃ t, Sim hash cache t)
    (hput : ∀ c out', sequential hash (puts s.flushed) c = .ok (out', s.cache) →
      ∃ out', sequential hash (puts (s.flushed ++ [req])) c = .ok (out', cache)) :
    AsyncInv hash c₀ q { s with
      cache := cache, flushed := s.flushed ++ [req], worker := .drain } := by
  have hd : s.worker.draining = true := by rw [hw]; rfl
  refine { h with accounted := ?_, served := ?_, sim := hsim, unflushed := Bool.noConfusion
                  stopped := fun _ => h.stopped hd, finished := Worker.noConfusion }
  · have haccounted := h.accounted
    rw [hw] at haccounted
    show s.submitted = s.applied ++ (s.flushed ++ [req]) ++ [] ++ s.inbox ++ s.client.holds
    rw [haccounted]
    simp [Worker.holds]
  · rcases h.served with ⟨out, c, out', hseq, hans, hflush⟩
    rcases hput c out' hflush with ⟨out'', hflush'⟩
    refine ⟨out, c, out'', hseq, ?_, hflush'⟩
    rcases hans with ⟨hall, _⟩ | ⟨hstop, _, hrest⟩
    · rw [hw] at hall
      exact Or.inl ⟨hall, fun hne => absurd rfl hne⟩
    · exact Or.inr ⟨hstop, Or.inr rfl, hrest⟩

/-- Every move of the worker keeps the invariant. -/
theorem AsyncInv.moves {s' : AsyncState} (h : AsyncInv hash c₀ q s)
    (hmove : WorkerMoves hash q s s') : AsyncInv hash c₀ q s' := by
  have hgoto := @AsyncInv.goto hash c₀ q s h
  cases hmove with
  | test hw hr =>
    rw [hw] at hgoto
    exact hgoto rfl rfl (fun _ => rfl) Bool.noConfusion Worker.noConfusion
      fun hstop => absurd (hr.symm.trans hstop) Bool.noConfusion
  | stop hw hr =>
    rw [hw] at hgoto
    exact hgoto rfl rfl (fun _ => rfl) (fun _ => hr) Worker.noConfusion fun _ _ => Or.inr rfl
  | fetch hw hi =>
    refine h.popped hi ?_ rfl ?_ ?_ ?_ Worker.noConfusion
    · rw [hw]; rfl
    · rw [hw]; rfl
    · rw [hw]; rfl
    · rw [hw]; exact Worker.noConfusion
  | idle hw hi =>
    rw [hw] at hgoto
    exact hgoto rfl rfl (fun _ => rfl) Bool.noConfusion Worker.noConfusion fun _ _ => Or.inl rfl
  | apply hw happly => exact h.applied hw happly
  | respond hw hlt => exact h.responded hw hlt
  | full hw hfull =>
    rw [hw] at hgoto
    -- The response stays in the worker's hands, so nothing can have been dropped before.
    refine hgoto rfl rfl (fun _ => rfl) Bool.noConfusion Worker.noConfusion fun _ hor => ?_
    rcases hor with hor | hor <;> cases hor
  | retry hw hr =>
    rw [hw] at hgoto
    exact hgoto rfl rfl (fun _ => rfl) Bool.noConfusion Worker.noConfusion
      fun hstop => absurd (hr.symm.trans hstop) Bool.noConfusion
  | drop hw hr => exact h.dropped hw hr
  | drain hw hi =>
    refine h.popped hi ?_ rfl ?_ ?_ ?_ Worker.noConfusion
    · rw [hw]; rfl
    · rw [hw]; rfl
    · rw [hw]; rfl
    · rw [hw]; exact Worker.noConfusion
  | finish hw hi =>
    have hstop : s.running = false := h.stopped (by rw [hw]; rfl)
    rw [hw] at hgoto
    exact hgoto rfl rfl Bool.noConfusion (fun _ => hstop) (fun _ => hi) fun _ _ => Or.inr rfl
  | flushPut hw htype hput =>
    rcases h.sim with ⟨t, hsim⟩
    rcases hsim.apply_put htype with ⟨c', hput', happly, hsim'⟩
    rw [hput'] at hput
    cases hput
    refine h.flushed hw hsim' ?_
    intro c out' hflush
    rw [puts_snoc_put htype]
    exact ⟨_, sequential_snoc hflush happly⟩
  | flushGet hw htype =>
    refine h.flushed hw h.sim ?_
    intro c out' hflush
    rw [puts_snoc_get htype]
    exact ⟨out', hflush⟩
  | done hw => exact h

/-- The worker never faults: it always has a move. -/
theorem AsyncInv.progress (h : AsyncInv hash c₀ q s) : ∃ s', WorkerMoves hash q s s' := by
  rcases h.sim with ⟨t, hsim⟩
  refine exists_workerMoves ?_ ?_
  · intro req _
    cases htype : req.type with
    | put =>
      rcases hsim.apply_put htype with ⟨c', _, happly, _⟩
      exact ⟨_, happly⟩
    | get =>
      rcases hsim.apply_get htype with ⟨res, c', happly, _⟩
      exact ⟨_, happly⟩
  · intro req _ htype
    rcases hsim.apply_put htype with ⟨c', hput, _⟩
    exact ⟨c', hput⟩

theorem AsyncInv.step {s' : AsyncState} (hs : AsyncStep hash q s s') (h : AsyncInv hash c₀ q s) :
    AsyncInv hash c₀ q s' := by
  rcases hs with ⟨call, rfl⟩ | hrun
  · exact h.clientStep call
  · exact h.moves (workerMoves_of_step hrun)

end Worker

/-! ## Every interleaving -/

section Runs

variable {C q : Nat}

/-- A new `async_cache` has a new cache, two empty queues, and its worker before the first test. -/
theorem AsyncState.new_ok (hpos : 0 < C) (hlt : C < 2 ^ 31) (hq : 0 < q) :
    ∃ s₀, AsyncState.new C q = .ok s₀ ∧ Cache.new C = .ok s₀.cache ∧
      (∀ k, hashKey s₀.cache.hashMask k < s₀.cache.hashTable.length) ∧
      (s₀.inbox = [] ∧ s₀.outbox = [] ∧ s₀.running = true ∧ s₀.client = .idle ∧
        s₀.worker = .test ∧ s₀.submitted = [] ∧ s₀.polled = []) ∧
      ∀ hash : UInt64 → Nat, (∀ k, hash k < s₀.cache.hashTable.length) →
        AsyncInv hash s₀.cache q s₀ := by
  rcases Sim.new hpos hlt with ⟨c₀, hnew, hreal, hsim⟩
  have hqueue : ∀ T : Type, ∀ _ : Inhabited T, ∃ queue : Spsc T, Spsc.new q = .ok queue := by
    intro T _
    exact ⟨_, if_neg (by omega)⟩
  rcases hqueue CacheRequest inferInstance with ⟨inbox, hinbox⟩
  rcases hqueue CacheResponse inferInstance with ⟨outbox, houtbox⟩
  refine ⟨{ cache := c₀, inbox := [], outbox := [], running := true, client := .idle
            worker := .test, submitted := [], applied := [], flushed := [], polled := [] }, ?_,
    hnew, hreal, ⟨rfl, rfl, rfl, rfl, rfl, rfl, rfl⟩, ?_⟩
  · rw [AsyncState.new, hnew]
    simp only [bind, Except.bind, hinbox, houtbox]
    rfl
  · intro hash hhash
    exact
      { accounted := rfl
        served := ⟨[], c₀, [], rfl, Or.inl ⟨rfl, fun hne => absurd rfl hne⟩, rfl⟩
        sim := ⟨_, hsim hash hhash⟩
        unflushed := fun _ => rfl
        stopped := Bool.noConfusion
        joining := Bool.noConfusion
        finished := Worker.noConfusion
        inbox_le := Nat.zero_le _
        outbox_le := Nat.zero_le _ }

theorem AsyncInv.reachable {hash : UInt64 → Nat} {s₀ s : AsyncState}
    (h₀ : AsyncInv hash s₀.cache q s₀) (hs : Reachable (fun s => s = s₀) (AsyncStep hash q) s) :
    AsyncInv hash s₀.cache q s := by
  refine Reachable.invariant (I := AsyncInv hash s₀.cache q) ?_ (fun _ _ hstep h => h.step hstep) hs
  rintro _ rfl
  exact h₀

/-- **Order.** At every point of every interleaving before the shutdown, with `n` requests
applied: the cache is what the first `n` requests in the order of the calls make of a new one,
and the responses polled, in the outbox and in the worker's hands are those to the GETs among
these requests, in order. The other requests are in the worker's hands, in the inbox and in the
client's hands, in this order. -/
theorem responses_in_order (hpos : 0 < C) (hlt : C < 2 ^ 31) (hq : 0 < q) :
    ∃ s₀, AsyncState.new C q = .ok s₀ ∧ Cache.new C = .ok s₀.cache ∧
      (∀ k, hashKey s₀.cache.hashMask k < s₀.cache.hashTable.length) ∧
      ∀ hash : UInt64 → Nat, (∀ k, hash k < s₀.cache.hashTable.length) →
        ∀ s, Reachable (fun s => s = s₀) (AsyncStep hash q) s → s.running = true →
          s.submitted = s.applied ++ s.worker.holds ++ s.inbox ++ s.client.holds ∧
          sequential hash (s.submitted.take s.applied.length) s₀.cache =
            .ok (s.polled ++ s.outbox ++ s.worker.answers, s.cache) := by
  rcases AsyncState.new_ok hpos hlt hq with ⟨s₀, hnew, hcache, hreal, _, hinv⟩
  refine ⟨s₀, hnew, hcache, hreal, ?_⟩
  intro hash hhash s hs hrun
  have h := AsyncInv.reachable (hinv hash hhash) hs
  have hd : s.worker.draining = false := by
    cases hd : s.worker.draining with
    | false => rfl
    | true => exact absurd (hrun.symm.trans (h.stopped hd)) Bool.noConfusion
  have hnone := h.unflushed hd
  have haccounted := h.accounted
  rw [hnone, List.append_nil] at haccounted
  refine ⟨haccounted, ?_⟩
  have htake : s.submitted.take s.applied.length = s.applied := by
    rw [haccounted, List.append_assoc, List.append_assoc]
    exact List.take_left' rfl
  rcases h.served with ⟨out, c, out', hseq, hans, hflush⟩
  rw [hnone] at hflush
  cases hflush
  rcases hans with ⟨hall, _⟩ | ⟨hstop, _⟩
  · rw [htake, hall]
    exact hseq
  · exact absurd (hrun.symm.trans hstop) Bool.noConfusion

/-- A PUT and two GETs, of which the first one hits: its response is polled while the worker has
the second one in its hands, and the client a third PUT. -/
theorem responses_in_order_one :
    ∃ s, Reachable (fun s => s = .one) (AsyncStep (hashKey AsyncState.one.cache.hashMask) 1) s ∧
      AsyncState.new 1 1 = .ok .one ∧
      s.applied = [asyncPut 5 50, asyncGet 7 5, asyncGet 8 6] ∧
      s.polled = [{ reqId := 7, found := true, value := 50 }] ∧
      s.worker.answers = [{ reqId := 8, found := false, value := 0 }] ∧
      s.client = .pushing (asyncPut 6 60) ∧
      sequential (hashKey AsyncState.one.cache.hashMask) (s.submitted.take 3)
          AsyncState.one.cache =
        .ok ([{ reqId := 7, found := true, value := 50 },
          { reqId := 8, found := false, value := 0 }], s.cache) := by
  rcases responses_in_order (C := 1) (q := 1) (by decide) (by decide) (by decide) with
    ⟨s₀, hnew, _, hreal, horder⟩
  cases AsyncState.new_one.symm.trans hnew
  let put (key value : UInt64) : List (Option ClientCall) :=
    [some (.asyncPut key value), some .pollResponse, none, none, none]
  let get (reqId key : UInt64) : List (Option ClientCall) :=
    [some (.asyncGet reqId key), some .pollResponse, none, none, none]
  let schedule : List (Option ClientCall) :=
    put 5 50 ++ get 7 5 ++ [none, some .pollResponse] ++ get 8 6 ++ [some (.asyncPut 6 60)]
  have hrun : ∃ s, play (asyncMove (hashKey 1) 1) schedule .one = .ok s ∧ s.running = true ∧
      s.applied = [asyncPut 5 50, asyncGet 7 5, asyncGet 8 6] ∧
      s.polled = [{ reqId := 7, found := true, value := 50 }] ∧ s.outbox = [] ∧
      s.worker.answers = [{ reqId := 8, found := false, value := 0 }] ∧
      s.client = .pushing (asyncPut 6 60) := by
    refine ⟨_, rfl, ?_⟩
    decide +kernel
  rcases hrun with ⟨s, hrun, hrunning, happlied, hpolled, houtbox, hanswers, hclient⟩
  have h₀ : Reachable (fun s => s = .one) (AsyncStep (hashKey 1) 1) .one := .start rfl
  have hs := h₀.play asyncMove_step schedule hrun
  have hseq := (horder _ hreal s hs hrunning).2
  rw [happlied, hpolled, houtbox, hanswers] at hseq
  exact ⟨s, hs, hnew, happlied, hpolled, hanswers, hclient, hseq⟩

end Runs

end LruCache
