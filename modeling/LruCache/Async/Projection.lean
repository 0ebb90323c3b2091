import LruCache.Async.Accesses
import LruCache.Async.Order
import LruCache.Queue.Calls

/-!
# Accesses are steps

Every access is a step of `AsyncStep` or no step at all. One lemma for each point at which a
thread may be: the accesses of a `push` or a `pop` change nothing that `FineState.coarse` shows
until the call returns, and then the whole call happens.

Main results:

* `FineInv.client_step`, `FineInv.worker_step`: an access does not fault, keeps the queues in
  order, and is invisible or a step with atomic queues;
* `FineInv.both_step`: with it the invariant of the atomic system holds of the projection.
-/

namespace LruCache

open BoundedFifo Transition

/-- The queues are in order, and what a thread is pushing is what it was called with. -/
structure FineInv (q : Nat) (s : FineState) : Prop where
  inbox : SpscInv q s.inbox
  outbox : SpscInv q s.outbox
  client : ∀ req, s.inbox.producer.item? = some req → s.client = .pushing req
  worker : ∀ res, s.outbox.producer.item? = some res → s.worker = .respond res

/-- The client's next access has a result that is invisible or a step of the client. -/
def ClientAccess (q : Nat) (call : ClientCall) (s : FineState) : Prop :=
  ∃ s', fineClientStep call s = .ok s' ∧ FineInv q s' ∧
    (s'.coarse = s.coarse ∨ ∃ call', clientStep q call' s.coarse = s'.coarse)

/-- The worker's next access has a result that is one more access of the call it is in, or a step
of the worker. -/
def WorkerAccess (hash : UInt64 → Nat) (q : Nat) (s : FineState) : Prop :=
  ∃ s', fineWorkerStep hash s = .ok s' ∧ FineInv q s' ∧
    (s'.coarse = s.coarse ∧ s'.workerPoint = s.workerPoint + 1 ∨
      WorkerMoves hash q s.coarse s'.coarse)

/-! ## The client -/

section Client

variable {q : Nat} {s : FineState}

/-- The client is in a `push` to the inbox only while it is pushing. -/
theorem FineInv.not_pushing (h : FineInv q s) (hc : ∀ req, s.client ≠ .pushing req)
    (client : FineClient) :
    ∀ req, s.inbox.producer.item? = some req → client = .pushing req :=
  fun req hreq => absurd (h.client req hreq) (hc req)

theorem FineInv.client_idle (h : FineInv q s) (hclient : s.client = .idle) (call : ClientCall) :
    ClientAccess q call s := by
  have hcoarse : s.coarse.client = .idle := by
    simp only [FineState.coarse, hclient, FineClient.coarse]
  have hnone := h.not_pushing (fun req => by rw [hclient]; exact FineClient.noConfusion)
  unfold ClientAccess fineClientStep
  rw [hclient]
  cases call with
  | asyncPut key value =>
    refine ⟨_, rfl, { h with client := hnone _ }, Or.inr ⟨.asyncPut key value, ?_⟩⟩
    exact clientStep_call hcoarse _
  | asyncGet reqId key =>
    refine ⟨_, rfl, { h with client := hnone _ }, Or.inr ⟨.asyncGet reqId key, ?_⟩⟩
    exact clientStep_call hcoarse _
  | pollResponse =>
    -- nothing is polled before the call returns
    refine ⟨_, rfl, { h with client := hnone _ }, Or.inl ?_⟩
    simp only [FineState.coarse, hclient, FineClient.coarse]
  | destroy =>
    refine ⟨_, rfl, { h with client := hnone _ }, Or.inr ⟨.destroy, ?_⟩⟩
    exact clientStep_call hcoarse _

theorem FineInv.client_pushing (hc : q + 1 < 2 ^ 64) (h : FineInv q s) {req : CacheRequest}
    (hclient : s.client = .pushing req) (call : ClientCall) : ClientAccess q call s := by
  have hcoarse : s.coarse.client = .pushing req := by
    simp only [FineState.coarse, hclient, FineClient.coarse]
  have hitem : ∀ x, s.inbox.producer.item? = some x → x = req := by
    intro x hx
    have hpushing := h.client x hx
    rw [hclient] at hpushing
    cases hpushing
    rfl
  rcases h.inbox.push_moves hc hitem with ⟨inbox, hrun, hinv, hmove⟩
  unfold ClientAccess fineClientStep
  simp only [hclient, hrun, bind, Except.bind, pure, Except.pure]
  refine ⟨_, rfl, ?_⟩
  cases hmove with
  | access hret hcontent hitem' _ =>
    simp only [hret, reduceCtorEq, if_false]
    refine ⟨{ h with inbox := hinv, client := ?_ }, Or.inl ?_⟩
    · intro x hx
      cases hitem'.symm.trans hx
      rfl
    · simp only [FineState.coarse, hclient, hcontent]
  | full hret hcontent hitem' _ =>
    -- the queue was full: the call is made once more
    simp only [hret, Option.some.injEq, Bool.false_eq_true, if_false]
    refine ⟨{ h with inbox := hinv, client := ?_ }, Or.inl ?_⟩
    · intro x hx
      cases hitem'.symm.trans hx
    · simp only [FineState.coarse, hclient, hcontent]
  | stored hret hcontent hitem' hroom =>
    simp only [hret, if_true]
    refine ⟨{ h with inbox := hinv, client := ?_ }, Or.inr ⟨.pollResponse, ?_⟩⟩
    · intro x hx
      cases hitem'.symm.trans hx
    · rw [clientStep_push hcoarse hroom]
      simp only [FineState.coarse, FineClient.coarse, hcontent]

theorem FineInv.client_polling (hc : q + 1 < 2 ^ 64) (h : FineInv q s)
    (hclient : s.client = .polling) (call : ClientCall) : ClientAccess q call s := by
  have hcoarse : s.coarse.client = .idle := by
    simp only [FineState.coarse, hclient, FineClient.coarse]
  have hnone := h.not_pushing (fun req => by rw [hclient]; exact FineClient.noConfusion)
  rcases h.outbox.pop_moves hc with ⟨outbox, hrun, hinv, hproducer, hmove⟩
  have hworker : ∀ res, outbox.producer.item? = some res → s.worker = .respond res := by
    rw [hproducer]
    exact h.worker
  unfold ClientAccess fineClientStep
  simp only [hclient, hrun, bind, Except.bind, pure, Except.pure]
  cases hmove with
  | access hret hcontent _ =>
    simp only [hret]
    refine ⟨_, rfl, { h with outbox := hinv, client := hnone _, worker := hworker }, Or.inl ?_⟩
    simp only [FineState.coarse, hclient, hcontent]
  | empty hret hnil' hnil =>
    simp only [hret]
    refine ⟨_, rfl, { h with outbox := hinv, client := hnone _, worker := hworker },
      Or.inr ⟨.pollResponse, ?_⟩⟩
    rw [clientStep_call hcoarse]
    simp only [FineState.coarse, hclient, FineClient.coarse, hnil, hnil', pop_nil]
  | released item hret hcontent =>
    simp only [hret]
    refine ⟨_, rfl, { h with outbox := hinv, client := hnone _, worker := hworker },
      Or.inr ⟨.pollResponse, ?_⟩⟩
    rw [clientStep_call hcoarse]
    simp only [FineState.coarse, hclient, FineClient.coarse, hcontent, pop_cons]

/-- An access of the client is invisible or a step of the client. -/
theorem FineInv.client_step (hc : q + 1 < 2 ^ 64) (h : FineInv q s) (call : ClientCall) :
    ClientAccess q call s := by
  cases hclient : s.client with
  | idle => exact h.client_idle hclient call
  | pushing req => exact h.client_pushing hc hclient call
  | polling => exact h.client_polling hc hclient call
  | joining =>
    refine ⟨s, ?_, h, Or.inl rfl⟩
    unfold fineClientStep
    rw [hclient]

end Client

/-! ## The worker -/

section Worker

variable {hash : UInt64 → Nat} {q : Nat} {s : FineState}

/-- The worker pushes nothing outside `respond`. -/
theorem FineInv.not_responding (h : FineInv q s) (hw : ∀ res, s.worker ≠ .respond res)
    (worker : Worker) :
    ∀ res, s.outbox.producer.item? = some res → worker = .respond res :=
  fun res hres => absurd (h.worker res hres) (hw res)

/-- A load of `running_`: `on` and `off` are where its two values lead. -/
theorem FineInv.worker_load (h : FineInv q s) (hw : ∀ res, s.worker ≠ .respond res)
    {on off : Worker}
    (hload : fineWorkerStep hash s = .ok { s with worker := if s.running then on else off })
    (hon : s.coarse.running = true → WorkerMoves hash q s.coarse { s.coarse with worker := on })
    (hoff : s.coarse.running = false →
      WorkerMoves hash q s.coarse { s.coarse with worker := off }) :
    WorkerAccess hash q s := by
  refine ⟨_, hload, { h with worker := h.not_responding hw _ }, Or.inr ?_⟩
  rcases Bool.eq_false_or_eq_true s.running with hr | hr
  · have hmove := hon hr
    simpa only [FineState.coarse, hr, if_true] using hmove
  · have hmove := hoff hr
    simpa only [FineState.coarse, hr, Bool.false_eq_true, if_false] using hmove

/-- An access of a `pop` from the inbox, in either loop: `taken` and `left` are where its two
results lead. -/
theorem FineInv.worker_pop (hc : q + 1 < 2 ^ 64) (h : FineInv q s)
    (hw : s.worker = .fetch ∨ s.worker = .drain) {taken : CacheRequest → Worker} {left : Worker}
    (hpop : fineWorkerStep hash s = (consumerStep s.inbox >>= fun inbox =>
      match inbox.popReturned with
      | some (some req) => pure { s with inbox := inbox, worker := taken req }
      | some none => pure { s with inbox := inbox, worker := left }
      | none => pure { s with inbox := inbox }))
    (htaken : ∀ req inbox, s.coarse.inbox = req :: inbox →
      WorkerMoves hash q s.coarse { s.coarse with inbox := inbox, worker := taken req })
    (hleft : s.coarse.inbox = [] →
      WorkerMoves hash q s.coarse { s.coarse with worker := left }) :
    WorkerAccess hash q s := by
  have hnone : ∀ res, s.worker ≠ .respond res := by
    intro res hres
    rcases hw with hw | hw <;> cases hw.symm.trans hres
  have hworker := h.not_responding hnone
  rcases h.inbox.pop_moves hc with ⟨inbox, hrun, hinv, hproducer, hmove⟩
  have hclient : ∀ req, inbox.producer.item? = some req → s.client = .pushing req := by
    rw [hproducer]
    exact h.client
  unfold WorkerAccess
  simp only [hpop, hrun, bind, Except.bind, pure, Except.pure]
  cases hmove with
  | access hret hcontent hpoint =>
    simp only [hret]
    refine ⟨_, rfl, { h with inbox := hinv, client := hclient, worker := hworker _ },
      Or.inl ⟨?_, ?_⟩⟩
    · simp only [FineState.coarse, hcontent]
    · rcases hw with hw | hw <;> simp only [FineState.workerPoint, hw, hpoint]
  | empty hret hnil' hnil =>
    simp only [hret]
    refine ⟨_, rfl, { h with inbox := hinv, client := hclient, worker := hworker _ }, Or.inr ?_⟩
    have hmove := hleft hnil
    simp only [FineState.coarse, hnil, hnil'] at hmove ⊢
    exact hmove
  | released item hret hcontent =>
    simp only [hret]
    refine ⟨_, rfl, { h with inbox := hinv, client := hclient, worker := hworker _ }, Or.inr ?_⟩
    exact htaken item _ hcontent

theorem FineInv.worker_apply (h : FineInv q s) (hsim : ∃ t, Sim hash s.cache t)
    {req : CacheRequest} (hw : s.worker = .apply req) : WorkerAccess hash q s := by
  have hworker := h.not_responding (fun res => by rw [hw]; exact Worker.noConfusion)
  have hprogress : ∃ r cache, applyRequest hash req s.cache = .ok (r, cache) := by
    rcases hsim with ⟨t, hsim⟩
    cases htype : req.type with
    | put =>
      rcases hsim.apply_put htype with ⟨cache, _, happly, _⟩
      exact ⟨none, cache, happly⟩
    | get =>
      rcases hsim.apply_get htype with ⟨res, cache, happly, _⟩
      exact ⟨some res, cache, happly⟩
  rcases hprogress with ⟨r, cache, happly⟩
  unfold WorkerAccess fineWorkerStep
  simp only [hw, happly, bind, Except.bind, pure, Except.pure]
  exact ⟨_, rfl, { h with worker := hworker _ }, Or.inr (.apply hw happly)⟩

/-- An access of the worker's `push` to the outbox. -/
theorem FineInv.worker_respond (hc : q + 1 < 2 ^ 64) (h : FineInv q s) {res : CacheResponse}
    (hw : s.worker = .respond res) : WorkerAccess hash q s := by
  have hitem : ∀ x, s.outbox.producer.item? = some x → x = res := by
    intro x hx
    have hrespond := h.worker x hx
    rw [hw] at hrespond
    cases hrespond
    rfl
  rcases h.outbox.push_moves hc hitem with ⟨outbox, hrun, hinv, hpush⟩
  unfold WorkerAccess fineWorkerStep
  simp only [hw, hrun, bind, Except.bind, pure, Except.pure]
  cases hpush with
  | access hret hcontent hitem' hpoint =>
    simp only [hret]
    refine ⟨_, rfl, { h with outbox := hinv, worker := ?_ }, Or.inl ⟨?_, ?_⟩⟩
    · intro x hx
      cases hitem'.symm.trans hx
      rfl
    · simp only [FineState.coarse, hcontent, hw]
    · simp only [FineState.workerPoint, hw, hpoint]
  | full hret hcontent hitem' hfull =>
    simp only [hret]
    refine ⟨_, rfl, { h with outbox := hinv, worker := ?_ }, Or.inr ?_⟩
    · intro x hx
      cases hitem'.symm.trans hx
    · have hmoves : WorkerMoves hash q s.coarse _ := .full hw hfull
      simp only [FineState.coarse, hcontent] at hmoves ⊢
      exact hmoves
  | stored hret hcontent hitem' hroom =>
    simp only [hret]
    refine ⟨_, rfl, { h with outbox := hinv, worker := ?_ }, Or.inr ?_⟩
    · intro x hx
      cases hitem'.symm.trans hx
    · have hmoves : WorkerMoves hash q s.coarse _ := .respond hw hroom
      simp only [FineState.coarse, hcontent] at hmoves ⊢
      exact hmoves

theorem FineInv.worker_flush (h : FineInv q s) (hsim : ∃ t, Sim hash s.cache t)
    {req : CacheRequest} (hw : s.worker = .flush req) : WorkerAccess hash q s := by
  have hworker := h.not_responding (fun res => by rw [hw]; exact Worker.noConfusion)
  unfold WorkerAccess fineWorkerStep
  cases htype : req.type with
  | put =>
    rcases hsim with ⟨t, hsim⟩
    rcases hsim.apply_put htype with ⟨cache, hput, _⟩
    simp only [hw, htype, if_true, hput, bind, Except.bind, pure, Except.pure]
    exact ⟨_, rfl, { h with worker := hworker _ }, Or.inr (.flushPut hw htype hput)⟩
  | get =>
    simp only [hw, htype, reduceCtorEq, if_false, bind, Except.bind, pure, Except.pure]
    exact ⟨_, rfl, { h with worker := hworker _ }, Or.inr (.flushGet hw htype)⟩

/-- An access of the worker is one more of the call it is in, or a step of the worker. -/
theorem FineInv.worker_step (hc : q + 1 < 2 ^ 64) (h : FineInv q s)
    (hsim : ∃ t, Sim hash s.cache t) : WorkerAccess hash q s := by
  cases hw : s.worker with
  | test =>
    refine h.worker_load (fun res => by rw [hw]; exact Worker.noConfusion) ?_ (.test hw) (.stop hw)
    simp only [fineWorkerStep, hw]
  | fetch =>
    refine h.worker_pop hc (Or.inl hw) ?_ (fun req inbox hi => .fetch hw hi) (.idle hw)
    rewrite [fineWorkerStep, hw]
    rfl
  | apply req => exact h.worker_apply hsim hw
  | respond res => exact h.worker_respond hc hw
  | retry res =>
    refine h.worker_load (fun res => by rw [hw]; exact Worker.noConfusion) ?_ (.retry hw) (.drop hw)
    simp only [fineWorkerStep, hw]
  | drain =>
    refine h.worker_pop hc (Or.inr hw) ?_ (fun req inbox hi => .drain hw hi) (.finish hw)
    rewrite [fineWorkerStep, hw]
    rfl
  | flush req => exact h.worker_flush hsim hw
  | done =>
    refine ⟨s, ?_, h, Or.inr (.done hw)⟩
    simp only [fineWorkerStep, hw]

end Worker

/-! ## Both threads -/

section Runs

variable {hash : UInt64 → Nat} {c₀ : Cache} {C q : Nat} {s s' : FineState}

/-- Every access is a step with atomic queues, or invisible. -/
theorem FineInv.step_refines (hc : q + 1 < 2 ^ 64) (h : FineInv q s)
    (hsim : ∃ t, Sim hash s.cache t) (hs : FineStep hash s s') :
    FineInv q s' ∧ (s'.coarse = s.coarse ∨ AsyncStep hash q s.coarse s'.coarse) := by
  rcases hs with ⟨call, hrun⟩ | hrun
  · rcases h.client_step hc call with ⟨s₁, hrun₁, hinv, hmove⟩
    rw [hrun] at hrun₁
    cases hrun₁
    refine ⟨hinv, ?_⟩
    rcases hmove with hsame | hcall
    · exact Or.inl hsame
    · exact Or.inr (Or.inl hcall)
  · rcases h.worker_step hc hsim with ⟨s₁, hrun₁, hinv, hmove⟩
    rw [hrun] at hrun₁
    cases hrun₁
    refine ⟨hinv, ?_⟩
    rcases hmove with ⟨hsame, _⟩ | hmove
    · exact Or.inl hsame
    · exact Or.inr (Or.inr hmove.run)

/-- The two invariants, of the queues and of what goes through them. -/
theorem FineInv.both_step (hc : q + 1 < 2 ^ 64) (hs : FineStep hash s s')
    (h : FineInv q s ∧ AsyncInv hash c₀ q s.coarse) :
    FineInv q s' ∧ AsyncInv hash c₀ q s'.coarse := by
  rcases h.1.step_refines hc h.2.sim hs with ⟨hinv, hsame | hstep⟩
  · refine ⟨hinv, ?_⟩
    rw [hsame]
    exact h.2
  · exact ⟨hinv, h.2.step hstep⟩

theorem FineInv.both {s₀ : FineState} (hc : q + 1 < 2 ^ 64) (h₀ : FineInv q s₀)
    (hasync : AsyncInv hash c₀ q s₀.coarse)
    (hs : Reachable (fun s => s = s₀) (FineStep hash) s) :
    FineInv q s ∧ AsyncInv hash c₀ q s.coarse := by
  refine Reachable.invariant (I := fun s => FineInv q s ∧ AsyncInv hash c₀ q s.coarse) ?_
    (fun _ _ hstep h => FineInv.both_step hc hstep h) hs
  rintro _ rfl
  exact ⟨h₀, hasync⟩

theorem FineState.new_ok (hpos : 0 < C) (hlt : C < 2 ^ 31) (hq : 0 < q) (hc : q + 1 < 2 ^ 64) :
    ∃ s₀, FineState.new C q = .ok s₀ ∧ AsyncState.new C q = .ok s₀.coarse ∧
      Cache.new C = .ok s₀.cache ∧
      (∀ k, hashKey s₀.cache.hashMask k < s₀.cache.hashTable.length) ∧ FineInv q s₀ ∧
      ∀ hash : UInt64 → Nat, (∀ k, hash k < s₀.cache.hashTable.length) →
        AsyncInv hash s₀.cache q s₀.coarse := by
  rcases AsyncState.new_ok hpos hlt hq with ⟨t₀, hnew, hcache, hreal, _, hinv⟩
  rcases ring_new (T := CacheRequest) hq hc with ⟨inbox, hinbox, _⟩
  rcases ring_new (T := CacheResponse) hq hc with ⟨outbox, houtbox, _⟩
  let s₀ : FineState :=
    { cache := t₀.cache, inbox := SpscState.fresh inbox, outbox := SpscState.fresh outbox
      running := true, client := .idle, worker := .test, submitted := [], applied := []
      flushed := [], polled := [] }
  have hcoarse : s₀.coarse = t₀ := by
    simp only [AsyncState.new, hcache, hinbox, houtbox, bind, Except.bind] at hnew
    exact Except.ok.inj hnew
  refine ⟨s₀, ?_, ?_, hcache, hreal, ?_, ?_⟩
  · simp only [FineState.new, hcache, hinbox, houtbox, bind, Except.bind]
    rfl
  · rw [hcoarse]
    exact hnew
  · exact
      { inbox := SpscInv.start hc ⟨inbox, hinbox, rfl⟩
        outbox := SpscInv.start hc ⟨outbox, houtbox, rfl⟩
        client := by
          intro _ hnone
          cases hnone
        worker := by
          intro _ hnone
          cases hnone }
  · intro hash hhash
    rw [hcoarse]
    exact hinv hash hhash

end Runs

end LruCache
