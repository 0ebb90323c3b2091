import LruCache.Async.Backpressure
import LruCache.Lib.Fairness
import LruCache.Queue.Calls

/-!
# Every call returns and every request is answered

A client that keeps at most `q` GETs unanswered is never stuck (`backpressure_bound`). If the
threads take turns in a fair order more is true: each of its calls returns, and each of its
requests is applied and its response pushed, however the turns fall.

Main results:

* `patient_progresses` — a measure that falls at every turn of the thread that is to move.
* `requests_answered` — in every fair run, each request is applied and its response pushed, and
  each call returns.

Deliberate scope limits:

* The client never has more than `q` GETs unanswered and does not shut the cache down; one GET
  more, and the two may wait for each other (`backpressure_bound`).
* Fair means that each thread takes turns again and again, a turn being a queue operation of the
  atomic queues. That these are the queues of the code is part of the result: `q + 1 < 2^64`.
-/

namespace LruCache

open BoundedFifo Transition

/-- The two threads. -/
inductive Thread where
  | client
  | worker
deriving DecidableEq, Repr

/-- The client at even times, the worker at odd ones. -/
def alternate (i : Nat) : Thread := if i % 2 = 0 then .client else .worker

/-- Threads that take turns are both fair. -/
theorem alternate_fair (t : Thread) (i : Nat) : ∃ j, i ≤ j ∧ alternate j = t := by
  cases t with
  | client => exact ⟨2 * i, by omega, if_pos (by omega)⟩
  | worker => exact ⟨2 * i + 1, by omega, if_neg (by omega)⟩

/-- A turn of either thread, of a client that does not shut the cache down and keeps at most `q`
GETs unanswered. -/
structure PatientTurn (hash : UInt64 → Nat) (q : Nat) (t : Thread) (s s' : AsyncState) : Prop where
  step : match t with
    | .client => ∃ call, clientStep q call s = s'
    | .worker => workerStep hash q s = .ok s'
  running : s'.running = true
  bound : gets s'.submitted ≤ s'.polled.length + q

/-- What holds at every point of a run of such turns. -/
structure Patient (hash : UInt64 → Nat) (c₀ : Cache) (q : Nat) (s : AsyncState) : Prop where
  flowing : Flowing hash c₀ q s
  running : s.running = true

/-- The worker leaves alone what is the client's. -/
theorem WorkerMoves.keeps {hash : UInt64 → Nat} {q : Nat} {t t' : AsyncState}
    (h : WorkerMoves hash q t t') :
    t'.submitted = t.submitted ∧ t'.polled = t.polled ∧ t'.running = t.running ∧
      t'.client = t.client := by
  cases h <;> exact ⟨rfl, rfl, rfl, rfl⟩

section Patient

variable {hash : UInt64 → Nat} {c₀ : Cache} {q : Nat} {s s' : AsyncState} {t : Thread}

/-- A turn is a step of a client that keeps to the bound. -/
theorem PatientTurn.bounded (h : PatientTurn hash q t s s') : BoundedStep hash q q s s' := by
  refine ⟨?_, h.bound⟩
  have hstep := h.step
  cases t with
  | client => exact Or.inl hstep
  | worker => exact Or.inr hstep

/-- So the invariant of such clients holds on. -/
theorem Patient.turn (h : Patient hash c₀ q s) (hs : PatientTurn hash q t s s') :
    Patient hash c₀ q s' :=
  ⟨h.flowing.step hs.bounded, hs.running⟩

/-- The worker drains its inbox after the shutdown only. -/
theorem AsyncInv.not_draining (h : AsyncInv hash c₀ q s) (hrun : s.running = true) :
    s.worker.draining = false := by
  cases hd : s.worker.draining with
  | false => rfl
  | true => exact absurd (hrun.symm.trans (h.stopped hd)) Bool.noConfusion

/-- While the worker is in its main loop, every request and every response is somewhere. -/
theorem AsyncInv.whereabouts (h : AsyncInv hash c₀ q s) (hrun : s.running = true) :
    s.submitted = s.applied ++ s.worker.holds ++ s.inbox ++ s.client.holds ∧
      ∃ c, sequential hash s.applied c₀ = .ok (s.polled ++ s.outbox ++ s.worker.answers, c) := by
  have haccounted := h.accounted
  rw [h.unflushed (h.not_draining hrun), List.append_nil] at haccounted
  refine ⟨haccounted, ?_⟩
  rcases h.served with ⟨out, c, _, hseq, ⟨hall, _⟩ | ⟨hstop, _⟩, _⟩
  · rw [hall]
    exact ⟨c, hseq⟩
  · exact absurd (hrun.symm.trans hstop) Bool.noConfusion

/-- Where the requests are: applied, in the worker's hands, in the inbox, or in the client's. -/
theorem Patient.whereabouts (h : Patient hash c₀ q s) :
    s.submitted = s.applied ++ s.worker.holds ++ s.inbox ++ s.client.holds :=
  (h.flowing.inv.whereabouts h.running).1

/-- A poll is always possible and keeps the bound. -/
theorem Patient.enabled (h : Patient hash c₀ q s) (t : Thread) :
    ∃ s', PatientTurn hash q t s s' := by
  cases t with
  | client =>
    refine ⟨clientStep q .pollResponse s, ⟨.pollResponse, rfl⟩, ?_, ?_⟩
    · unfold clientStep
      split <;> exact h.running
    · have hbound := h.flowing.bound
      unfold clientStep
      split
      · show gets s.submitted ≤ (s.polled ++ _).length + q
        rw [List.length_append]
        omega
      · exact hbound
      · exact hbound
  | worker =>
    rcases h.flowing.inv.progress with ⟨s', hmove⟩
    rcases hmove.keeps with ⟨hsub, hpolled, hrunning, _⟩
    refine ⟨s', hmove.run, hrunning.trans h.running, ?_⟩
    rw [hsub, hpolled]
    exact h.flowing.bound

end Patient

/-! ## Towards the request number `n` -/

/-- The first `n + 1` requests are applied, and the worker is not holding a response. -/
def Dealt (n : Nat) (s : AsyncState) : Prop := n < s.applied.length ∧ s.worker.answers = []

/-- Where the worker is on its way from one request to the next. -/
def onTheWay (s : AsyncState) : Nat :=
  match s.worker with
  | .respond _ => 4
  | .test => if s.inbox = [] then 3 else 2
  | .fetch => if s.inbox = [] then 3 else 1
  | _ => 0

/-- The requests that are not applied yet, up to the one with the number `n`. -/
def untilDealt (n : Nat) (s : AsyncState) : Nat := 5 * (n + 1 - s.applied.length) + onTheWay s

/-- The worker, unless it waits for a request. -/
def driver (s : AsyncState) : Thread :=
  match s.worker with
  | .test => if s.inbox = [] then .client else .worker
  | .fetch => if s.inbox = [] then .client else .worker
  | _ => .worker

section Progress

variable {hash : UInt64 → Nat} {c₀ : Cache} {q n : Nat} {s s' : AsyncState}

/-- A turn of the worker brings it closer, or it waits for the client. -/
theorem Patient.worker_falls (h : Patient hash c₀ q s) (hs : WorkerMoves hash q s s')
    (hgoal : ¬ Dealt n s) :
    untilDealt n s' < untilDealt n s ∨
      Thread.worker ≠ driver s ∧ untilDealt n s' = untilDealt n s ∧ driver s' = driver s := by
  have hd := h.flowing.inv.not_draining h.running
  cases hs with
  | test hw _ =>
    by_cases hi : s.inbox = []
    · right
      simp [untilDealt, onTheWay, driver, hw, hi]
    · left
      simp [untilDealt, onTheWay, hw, hi]
  | stop _ hr => exact absurd (h.running.symm.trans hr) Bool.noConfusion
  | fetch hw hi =>
    left
    simp [untilDealt, onTheWay, hw, hi]
  | idle hw hi =>
    right
    simp [untilDealt, onTheWay, driver, hw, hi]
  | @apply req r cache hw _ =>
    left
    have hnone : s.worker.answers = [] := by
      rw [hw]
      rfl
    -- the request in its hands is one of those still to be applied
    have hless : s.applied.length ≤ n := Nat.le_of_not_lt fun hlt => hgoal ⟨hlt, hnone⟩
    cases r with
    | none =>
      simp only [untilDealt, onTheWay, hw, Worker.after, List.length_append,
        List.length_singleton]
      split <;> omega
    | some res =>
      simp only [untilDealt, onTheWay, hw, Worker.after, List.length_append,
        List.length_singleton]
      omega
  | respond hw _ =>
    left
    simp only [untilDealt, onTheWay, hw]
    split <;> omega
  | full hw hfull =>
    have hroom := h.flowing.room hw
    omega
  | retry hw _ => exact absurd hw (h.flowing.no_retry _)
  | drop hw _ => exact absurd hw (h.flowing.no_retry _)
  | drain hw | finish hw | flushPut hw | flushGet hw | done hw =>
    rw [hw] at hd
    cases hd

/-- A call that begins, or a poll, is nothing to the worker. -/
theorem untilDealt_congr (happlied : s'.applied = s.applied) (hworker : s'.worker = s.worker)
    (hinbox : s'.inbox = s.inbox) :
    untilDealt n s' = untilDealt n s ∧ driver s' = driver s := by
  unfold untilDealt onTheWay driver
  rw [happlied, hworker, hinbox]
  exact ⟨rfl, rfl⟩

/-- A request for a worker that waits brings it closer; one more is nothing to it. -/
theorem untilDealt_push (req : CacheRequest) :
    untilDealt n { s with inbox := s.inbox ++ [req], client := .idle } < untilDealt n s ∨
      driver s = .worker ∧
        untilDealt n { s with inbox := s.inbox ++ [req], client := .idle } = untilDealt n s ∧
        driver { s with inbox := s.inbox ++ [req], client := .idle } = driver s := by
  unfold untilDealt onTheWay driver
  cases hw : s.worker with
  | test =>
    by_cases hi : s.inbox = []
    · left
      simp [hi]
    · right
      simp [hi]
  | fetch =>
    by_cases hi : s.inbox = []
    · left
      simp [hi]
    · right
      simp [hi]
  | _ => exact Or.inr ⟨rfl, rfl, rfl⟩

/-- While the worker waits for a request that was submitted, the client is pushing it. -/
theorem Patient.client_pushes (h : Patient hash c₀ q s) (hn : n < s.submitted.length)
    (hgoal : ¬ Dealt n s) (hdriver : driver s ≠ .worker) :
    s.inbox = [] ∧ ∃ req, s.client = .pushing req := by
  have hwaits : s.inbox = [] ∧ s.worker.holds = [] ∧ s.worker.answers = [] := by
    unfold driver at hdriver
    cases hw : s.worker with
    | test =>
      rw [hw] at hdriver
      by_cases hi : s.inbox = []
      · exact ⟨hi, rfl, rfl⟩
      · simp [hi] at hdriver
    | fetch =>
      rw [hw] at hdriver
      by_cases hi : s.inbox = []
      · exact ⟨hi, rfl, rfl⟩
      · simp [hi] at hdriver
    | _ =>
      rw [hw] at hdriver
      exact absurd rfl hdriver
  rcases hwaits with ⟨hi, hholds, hanswers⟩
  refine ⟨hi, ?_⟩
  cases hclient : s.client with
  | pushing req => exact ⟨req, rfl⟩
  | _ =>
    -- otherwise all that was submitted is applied
    have hwhere := h.whereabouts
    rw [hi, hholds, hclient] at hwhere
    simp only [Client.holds, List.append_nil] at hwhere
    rw [hwhere] at hn
    exact absurd ⟨hn, hanswers⟩ hgoal

/-- A turn of the client brings the request nearer to its end, unless it is for the worker to move.
-/
theorem Patient.client_falls (h : Patient hash c₀ q s) (hq : 0 < q)
    (hn : n < s.submitted.length) (hgoal : ¬ Dealt n s) (call : ClientCall) :
    untilDealt n (clientStep q call s) < untilDealt n s ∨
      Thread.client ≠ driver s ∧ untilDealt n (clientStep q call s) = untilDealt n s ∧
        driver (clientStep q call s) = driver s := by
  have hother : ∀ s', s'.applied = s.applied → s'.worker = s.worker → s'.inbox = s.inbox →
      driver s = .worker → Thread.client ≠ driver s ∧
        untilDealt n s' = untilDealt n s ∧ driver s' = driver s := by
    intro s' happlied hworker hinbox hdriver
    refine ⟨?_, untilDealt_congr happlied hworker hinbox⟩
    rw [hdriver]
    exact Thread.noConfusion
  have hdrives : (∀ req, s.client ≠ .pushing req) → driver s = .worker := by
    intro hno
    by_contra hdriver
    rcases h.client_pushes hn hgoal hdriver with ⟨_, req, hclient⟩
    exact hno req hclient
  cases hclient : s.client with
  | idle =>
    right
    have hdriver := hdrives (by rw [hclient]; exact fun _ => Client.noConfusion)
    rw [clientStep_call hclient]
    cases call with
    | asyncPut | asyncGet | pollResponse | destroy => exact hother _ rfl rfl rfl hdriver
  | pushing req =>
    rcases Nat.lt_or_ge s.inbox.length q with hlt | hfull
    · rw [clientStep_push hclient hlt]
      rcases untilDealt_push (n := n) (s := s) req with hless | ⟨hdriver, hsame, hkept⟩
      · exact Or.inl hless
      · refine Or.inr ⟨?_, hsame, hkept⟩
        rw [hdriver]
        exact Thread.noConfusion
    · -- a full inbox keeps the worker busy
      right
      rw [clientStep_spin hclient hfull]
      refine hother s rfl rfl rfl ?_
      by_contra hdriver
      rw [(h.client_pushes hn hgoal hdriver).1, List.length_nil] at hfull
      omega
  | joining =>
    right
    rw [clientStep_joining hclient]
    exact hother s rfl rfl rfl (hdrives (by rw [hclient]; exact fun _ => Client.noConfusion))

/-- Requests stay submitted. -/
theorem submitted_clientStep (call : ClientCall) :
    s.submitted <+: (clientStep q call s).submitted := by
  unfold clientStep
  split
  · split
    · exact List.prefix_append _ _
    · exact List.prefix_append _ _
    · exact List.prefix_refl _
    · exact List.prefix_refl _
  · exact List.prefix_refl _
  · exact List.prefix_refl _

/-- What was submitted stays submitted. -/
theorem PatientTurn.submitted {t : Thread} (hs : PatientTurn hash q t s s') :
    s.submitted <+: s'.submitted := by
  have hstep := hs.step
  cases t with
  | client =>
    rcases hstep with ⟨call, rfl⟩
    exact submitted_clientStep call
  | worker =>
    rw [(workerMoves_of_step hstep).keeps.1]

/-- As long as the request is not dealt with, one of the threads can bring it nearer, and the other
one does not take it further away. -/
theorem patient_progresses (hq : 0 < q) (n : Nat) :
    Progresses (PatientTurn hash q) (fun s => Patient hash c₀ q s ∧ n < s.submitted.length)
      (Dealt n) (untilDealt n) driver := by
  constructor
  · rintro t s s' hs ⟨h, hn⟩
    exact ⟨h.turn hs, Nat.lt_of_lt_of_le hn hs.submitted.length_le⟩
  · rintro t s s' hs ⟨h, hn⟩ hgoal
    have hstep := hs.step
    cases t with
    | client =>
      rcases hstep with ⟨call, rfl⟩
      exact h.client_falls hq hn hgoal call
    | worker => exact h.worker_falls (workerMoves_of_step hstep) hgoal

/-- A call goes on with the same request, or has returned. -/
theorem PatientTurn.pushing {t : Thread} (hs : PatientTurn hash q t s s') {req : CacheRequest}
    (hclient : s.client = .pushing req) :
    s'.client = .idle ∨ s'.client = .pushing req ∧ s'.submitted = s.submitted := by
  have hstep := hs.step
  cases t with
  | client =>
    rcases hstep with ⟨call, rfl⟩
    rcases Nat.lt_or_ge s.inbox.length q with hlt | hfull
    · rw [clientStep_push hclient hlt]
      exact Or.inl rfl
    · rw [clientStep_spin hclient hfull]
      exact Or.inr ⟨hclient, rfl⟩
  | worker =>
    rcases (workerMoves_of_step hstep).keeps with ⟨hsub, _, _, hsame⟩
    exact Or.inr ⟨hsame.trans hclient, hsub⟩

end Progress

/-! ## Along a fair run -/

section Run

variable {hash : UInt64 → Nat} {c₀ : Cache} {q : Nat} {s : AsyncState} {e : ℕ → AsyncState}

/-- The same along a run. -/
theorem submitted_run (hfair : FairRun (PatientTurn hash q) e) (k : Nat) :
    (e 0).submitted <+: (e k).submitted := by
  refine hfair.invariant (I := fun s => (e 0).submitted <+: s.submitted) ?_
    (List.prefix_refl _) k
  intro t s s' hs h
  exact h.trans hs.submitted

/-- The requests up to the number `n` are applied at some time, with all responses pushed. -/
theorem Patient.dealt (h : Patient hash c₀ q (e 0)) (hq : 0 < q)
    (hfair : FairRun (PatientTurn hash q) e) {n : Nat} (hn : n < (e 0).submitted.length) :
    ∃ k c, (e 0).submitted.take (n + 1) <+: (e k).applied ∧
      sequential hash (e k).applied c₀ = .ok ((e k).polled ++ (e k).outbox, c) := by
  have hprogress : Progresses (PatientTurn hash q)
      (fun s => Patient hash c₀ q s ∧ n < s.submitted.length) (Dealt n) (untilDealt n) driver :=
    patient_progresses hq n
  rcases hfair.reaches hprogress ⟨h, hn⟩ with ⟨k, happlied, hanswers⟩
  have hk := (hfair.invariant hprogress.keeps ⟨h, hn⟩ k).1
  rcases hk.flowing.inv.whereabouts hk.running with ⟨hwhere, c, hseq⟩
  rw [hanswers, List.append_nil] at hseq
  refine ⟨k, c, ?_, hseq⟩
  -- both are parts of what is submitted by then
  have hpart : (e k).applied <+: (e k).submitted := by
    rw [hwhere]
    simp only [List.append_assoc]
    exact List.prefix_append _ _
  have hold := (List.take_prefix (n + 1) _).trans (submitted_run hfair k)
  refine List.prefix_of_prefix_length_le hold hpart ?_
  rw [List.length_take]
  omega

/-- A call in progress returns: its request is dealt with in the end, so it has been pushed. -/
theorem Patient.call_returns (h : Patient hash c₀ q (e 0)) (hq : 0 < q)
    (hfair : FairRun (PatientTurn hash q) e) {req : CacheRequest}
    (hclient : (e 0).client = .pushing req) : ∃ k, (e k).client = .idle := by
  by_contra hno
  rw [not_exists] at hno
  have hstuck : ∀ k, (e k).client = .pushing req ∧ (e k).submitted = (e 0).submitted := by
    intro k
    rcases hfair with ⟨turn, hstep, _⟩
    induction k with
    | zero => exact ⟨hclient, rfl⟩
    | succ k ih =>
      rcases (hstep k).pushing ih.1 with hidle | ⟨hsame, hsub⟩
      · exact absurd hidle (hno _)
      · exact ⟨hsame, hsub.trans ih.2⟩
  -- the last request is in the client's hands, so it is never applied
  have hheld : ∀ k, (e k).applied.length < (e 0).submitted.length := by
    intro k
    have hk : Patient hash c₀ q (e k) :=
      hfair.invariant (I := Patient hash c₀ q) (fun _ _ _ hs h => h.turn hs) h k
    have hlen := congrArg List.length hk.whereabouts
    rw [(hstuck k).2, (hstuck k).1] at hlen
    simp only [Client.holds, List.length_append, List.length_singleton] at hlen
    omega
  have hpos := hheld 0
  rcases h.dealt hq hfair (n := (e 0).submitted.length - 1) (by omega) with ⟨k, _, hpart, _⟩
  have hlen := hpart.length_le
  have hless := hheld k
  rw [List.length_take] at hlen
  omega

end Run

/-- **Liveness.** At every point of a run in which the client does not shut the cache down and
keeps at most `q` GETs unanswered: there are fair runs from here on; and in each of them every
request submitted so far is applied and every response to it pushed, and if the client is in a
call the call returns. The two queues of this capacity are safe, so the lists of `AsyncState` are
what they hold. -/
theorem requests_answered {C q : Nat} (hpos : 0 < C) (hlt : C < 2 ^ 31) (hq : 0 < q)
    (hc : q + 1 < 2 ^ 64) :
    ∃ s₀, AsyncState.new C q = .ok s₀ ∧ CallsSafe CacheRequest q ∧ CallsSafe CacheResponse q ∧
      (∀ k, hashKey s₀.cache.hashMask k < s₀.cache.hashTable.length) ∧
      ∀ hash : UInt64 → Nat, (∀ k, hash k < s₀.cache.hashTable.length) →
        ∀ s, Reachable (fun s => s = s₀) (fun s s' => ∃ t, PatientTurn hash q t s s') s →
          (∃ e, FairRun (PatientTurn hash q) e ∧ e 0 = s) ∧
          ∀ e, FairRun (PatientTurn hash q) e → e 0 = s →
            (∀ n < s.submitted.length, ∃ k c, s.submitted.take (n + 1) <+: (e k).applied ∧
              sequential hash (e k).applied s₀.cache =
                .ok ((e k).polled ++ (e k).outbox, c)) ∧
            ∀ req, s.client = .pushing req → ∃ k, (e k).client = .idle := by
  rcases AsyncState.new_ok hpos hlt hq with ⟨s₀, hnew, _, hreal, hstart, hinv⟩
  rcases hstart with ⟨_, _, hrun, _, hworker, hsub, _⟩
  refine ⟨s₀, hnew, callsSafe_of_lt hq hc, callsSafe_of_lt hq hc, hreal, ?_⟩
  intro hash hhash s hs
  have h : Patient hash s₀.cache q s := by
    refine Reachable.invariant (I := Patient hash s₀.cache q) ?_ ?_ hs
    · rintro _ rfl
      refine ⟨⟨hinv hash hhash, ?_, ?_⟩, hrun⟩
      · rw [hsub]
        exact Nat.zero_le _
      · intro res hw
        rw [hworker] at hw
        cases hw
    · rintro s s' ⟨t, hstep⟩ h
      exact h.turn hstep
  constructor
  · exact exists_fairRun (I := Patient hash s₀.cache q) alternate_fair
      (fun _ _ _ hs h => h.turn hs) (fun t _ h => h.enabled t) h
  · rintro e hfair rfl
    exact ⟨fun n hn => h.dealt hq hfair hn, fun req hclient => h.call_returns hq hfair hclient⟩

/-- A GET that the client is about to push: in a fair run the call returns, and the GET is applied
with its response polled or in the outbox. -/
theorem requests_answered_one :
    ∃ s e, AsyncState.new 1 1 = .ok .one ∧
      FairRun (PatientTurn (hashKey AsyncState.one.cache.hashMask) 1) e ∧ e 0 = s ∧
      s.client = .pushing (asyncGet 7 5) ∧ (∃ k, (e k).client = .idle) ∧
      ∃ k, [asyncGet 7 5] <+: (e k).applied := by
  rcases requests_answered (C := 1) (q := 1) (by decide) (by decide) (by decide) (by decide) with
    ⟨s₀, hnew, _, _, hreal, h⟩
  cases AsyncState.new_one.symm.trans hnew
  have hturn : PatientTurn (hashKey 1) 1 .client .one (AsyncState.one.submit (asyncGet 7 5)) :=
    ⟨⟨.asyncGet 7 5, rfl⟩, rfl, Nat.le_refl 1⟩
  have h₀ : Reachable (fun s => s = .one)
      (fun s s' => ∃ t, PatientTurn (hashKey 1) 1 t s s') .one := .start rfl
  have hs := h₀.tail ⟨.client, hturn⟩
  rcases h _ hreal _ hs with ⟨⟨e, hfair, hzero⟩, hlive⟩
  rcases hlive e hfair hzero with ⟨hanswered, hreturns⟩
  rcases hanswered 0 Nat.zero_lt_one with ⟨k, _, happlied, _⟩
  exact ⟨_, e, hnew, hfair, hzero, rfl, hreturns _ rfl, k, happlied⟩

end LruCache
