import LruCache.Async.BenchmarkInv

/-!
# When the benchmark ends

Its author made the queues "large enough to prevent deadlock". They are if `num_ops` is at most
twice the queue capacity and one: so many GETs fit into the outbox, the worker's hands and the
inbox. Then every fair run ends, with every GET answered in order and with the value that was put;
with one GET more none ends.

Main results:

* `benchmark_progresses`: the rank `benchRank` falls with the turns of the thread `helpful`;
* `benchmark_completes`: which runs end, and what was polled in any run.
-/

namespace LruCache

open BoundedFifo Recency Transition

/-! ## Every fair run ends -/

/-- Ten for each call to come, and the ends of the three loops. -/
def BenchPoint.ahead (C n : Nat) : BenchPoint → Nat
  | .warming i => 10 * (C - i + n) + 3
  | .blasting i => 10 * (n - i) + 2
  | .receiving _ => 1
  | .finished => 0

/-- What the worker still does with the request in its hands; where it has something to do, one
for finding out. -/
def workerRank (q : Nat) (t : AsyncState) : Nat :=
  match t.worker with
  | .test => if t.inbox = [] then 0 else 1
  | .apply _ => 5
  | .respond _ => 4
  | .retry _ => if t.outbox.length < q then 5 else 4
  | _ => 0

/-- The work to come. A request is worth less the further it has got. -/
def benchRank (C n q : Nat) (s : Bench) : Nat :=
  s.point.ahead C n + 9 * s.async.client.holds.length + 7 * s.async.inbox.length +
    2 * s.async.outbox.length + workerRank q s.async

/-- The thread that can do something. The worker waits for a request or for room for an answer. -/
def helpful (q : Nat) (s : Bench) : Thread :=
  match s.async.worker with
  | .test => if s.async.inbox = [] then .client else .worker
  | .fetch => if s.async.inbox = [] then .client else .worker
  | .respond _ => if s.async.outbox.length < q then .worker else .client
  | .retry _ => if s.async.outbox.length < q then .worker else .client
  | _ => .worker

section Fair

variable {hash : UInt64 → Nat} {C n q : Nat} {c₀ : Cache} {s s' : Bench}

/-- More requests to fetch are at most one more step. -/
theorem workerRank_push (q : Nat) (t : AsyncState) (inbox : List CacheRequest) (client : Client) :
    workerRank q { t with inbox := inbox, client := client } ≤ workerRank q t + 1 := by
  unfold workerRank
  cases t.worker with
  | test =>
    simp only
    split <;> split <;> omega
  | retry res => exact Nat.le_succ _
  | _ => exact Nat.le_succ _

theorem workerRank_poll (q : Nat) (t : AsyncState) (outbox : List CacheResponse)
    (polled : List CacheResponse) :
    workerRank q { t with outbox := outbox, polled := polled } ≤ workerRank q t + 1 := by
  unfold workerRank
  cases t.worker with
  | test => exact Nat.le_succ _
  | retry res =>
    simp only
    split <;> split <;> omega
  | _ => exact Nat.le_succ _

/-- A call that begins adds nothing but the request in the client's hands. -/
theorem benchRank_submit (hclient : s.async.client = .idle) (req : CacheRequest)
    (point : BenchPoint) :
    benchRank C n q { async := s.async.submit req, point := point } + s.point.ahead C n =
      benchRank C n q s + point.ahead C n + 9 := by
  have hrank : benchRank C n q { async := s.async.submit req, point := point } =
      point.ahead C n + 9 * 1 + 7 * s.async.inbox.length + 2 * s.async.outbox.length +
        workerRank q s.async := rfl
  rw [hrank]
  simp only [benchRank, hclient, Client.holds, List.length_nil]
  omega

/-- A worker in its main loop gets on, or it waits and the client does not. -/
theorem benchRank_worker (hrun : s.async.running = true) (hd : s.async.worker.draining = false)
    {t : AsyncState} (h : WorkerMoves hash q s.async t) :
    benchRank C n q { s with async := t } < benchRank C n q s ∨
      Thread.worker ≠ helpful q s ∧ benchRank C n q { s with async := t } = benchRank C n q s ∧
        helpful q { s with async := t } = helpful q s := by
  cases h with
  | test hw _ =>
    by_cases hi : s.async.inbox = []
    · right
      simp [benchRank, workerRank, helpful, hw, hi]
    · left
      simp [benchRank, workerRank, hw, hi]
  | stop _ hr => exact absurd (hrun.symm.trans hr) Bool.noConfusion
  | fetch hw hi =>
    left
    simp only [benchRank, workerRank, hw, hi, List.length_cons]
    omega
  | idle hw hi =>
    right
    simp [benchRank, workerRank, helpful, hw, hi]
  | @apply req r cache hw happly =>
    left
    cases r with
    | none =>
      simp only [benchRank, workerRank, hw, Worker.after]
      split <;> omega
    | some res =>
      simp only [benchRank, workerRank, hw, Worker.after]
      omega
  | respond hw hlt =>
    left
    simp only [benchRank, workerRank, hw, List.length_append, List.length_singleton]
    split <;> omega
  | full hw hfull =>
    right
    have hno : ¬ s.async.outbox.length < q := by omega
    simp [benchRank, workerRank, helpful, hw, hno]
  | retry hw _ =>
    by_cases hroom : s.async.outbox.length < q
    · left
      simp only [benchRank, workerRank, hw, hroom, if_true]
      omega
    · right
      simp [benchRank, workerRank, helpful, hw, hroom]
  | drop _ hr => exact absurd (hrun.symm.trans hr) Bool.noConfusion
  | drain hw | finish hw | flushPut hw | flushGet hw | done hw =>
    rw [hw] at hd
    cases hd

/-- The client gets on unless it spins on a full inbox or polls an empty outbox. -/
theorem ClientMoves.rank (h : ClientMoves C n q s s') (hgoal : s.point ≠ .finished)
    (hrunning : s.async.client ≠ .joining) :
    benchRank C n q s' < benchRank C n q s ∨ s' = s ∧
      ((∃ req, s.async.client = .pushing req ∧ q ≤ s.async.inbox.length) ∨
        ∃ received, s.async.client = .idle ∧ s.point = .receiving received ∧ received < n ∧
          s.async.outbox = []) := by
  cases h with
  | @put i hc hp hi =>
    left
    have hsubmit := benchRank_submit (n := n) (C := C) (q := q) hc
      (asyncPut (.ofNat i) (.ofNat (i * 10))) (.warming (i + 1))
    rw [hp] at hsubmit
    simp only [BenchPoint.ahead] at hsubmit
    omega
  | warmed hc hp =>
    left
    simp only [benchRank, BenchPoint.ahead, hp]
    omega
  | @get i hc hp hi =>
    left
    have hsubmit := benchRank_submit (n := n) (C := C) (q := q) hc
      (asyncGet (.ofNat i) (.ofNat (i % C))) (.blasting (i + 1))
    rw [hp] at hsubmit
    simp only [BenchPoint.ahead] at hsubmit
    omega
  | blasted hc hp =>
    left
    simp only [benchRank, BenchPoint.ahead, hp]
    omega
  | @push req hc hlt =>
    left
    have hworker := workerRank_push q s.async (s.async.inbox ++ [req]) .idle
    simp only [benchRank, hc, Client.holds, List.length_append, List.length_nil,
      List.length_singleton]
    omega
  | spin hc hfull => exact Or.inr ⟨rfl, Or.inl ⟨_, hc, hfull⟩⟩
  | @poll received res outbox hc hp hlt hout =>
    left
    have hworker := workerRank_poll q s.async outbox (s.async.polled ++ [res])
    simp only [benchRank, BenchPoint.ahead, hp, hout, List.length_cons]
    omega
  | empty hc hp hlt hout => exact Or.inr ⟨rfl, Or.inr ⟨_, hc, hp, hlt, hout⟩⟩
  | finish hc hp =>
    left
    simp only [benchRank, BenchPoint.ahead, hp]
    omega
  | destroy hc hp => exact absurd hp hgoal
  | joining hc => exact absurd hc hrunning

theorem BenchInv.not_joining (h : BenchInv hash C n q c₀ s) (hgoal : s.point ≠ .finished) :
    s.async.client ≠ .joining := by
  have hcalls := h.calls
  cases hpoint : s.point with
  | warming i =>
    rw [hpoint] at hcalls
    exact hcalls
  | blasting i =>
    rw [hpoint] at hcalls
    exact hcalls
  | receiving received =>
    rw [hpoint] at hcalls
    intro hjoining
    cases hjoining.symm.trans hcalls
  | finished => exact absurd hpoint hgoal

variable (hpos : 0 < C) (hlt : C < 2 ^ 31) (hsim : Sim hash c₀ (State.init C hpos))

include hlt hsim

/-- When the client has to wait the worker does not: an empty inbox has room, and with a full
outbox and a full inbox there would be more than `n` GETs. -/
theorem BenchInv.waits (h : BenchInv hash C n q c₀ s) (hq : 0 < q) (hn : n ≤ 2 * q + 1)
    (hgoal : s.point ≠ .finished)
    (hwait : (∃ req, s.async.client = .pushing req ∧ q ≤ s.async.inbox.length) ∨
      ∃ received, s.async.client = .idle ∧ s.point = .receiving received ∧ received < n ∧
        s.async.outbox = []) : helpful q s = .worker := by
  rcases h.counted hpos hlt hsim (h.running hgoal) with ⟨hanswers, hrequests⟩
  have hbegun := (begun_le_script h.in_range).length_le
  rw [script, List.length_append, warmUp_length, blast_length] at hbegun
  have hidle : s.async.inbox = [] → s.async.worker.answers = [] → s.async.worker.holds = [] →
      False := by
    intro hi ha hh
    rcases hwait with ⟨req, _, hfull⟩ | ⟨received, hclient, hpoint, hless, hout⟩
    · rw [hi, List.length_nil] at hfull
      omega
    · -- all requests are applied, and all answers are polled
      have hreceived := h.received
      rw [hpoint] at hreceived
      rw [hpoint, hi, hh, hclient] at hrequests
      rw [hout, ha] at hanswers
      simp only [BenchPoint.begun, BenchPoint.received, script, List.length_append,
        warmUp_length, blast_length, Client.holds, List.length_nil] at *
      omega
  have hfull : q ≤ s.async.outbox.length → s.async.worker.answers.length = 1 → False := by
    intro hout hone
    rcases hwait with ⟨req, hclient, hin⟩ | ⟨received, _, _, _, hnil⟩
    · rw [hclient] at hrequests
      simp only [Client.holds, List.length_singleton] at hrequests
      omega
    · rw [hnil, List.length_nil] at hout
      omega
  unfold helpful
  cases hw : s.async.worker with
  | test =>
    simp only
    split
    · rename_i hi
      exact (hidle hi (by rw [hw]; rfl) (by rw [hw]; rfl)).elim
    · rfl
  | fetch =>
    simp only
    split
    · rename_i hi
      exact (hidle hi (by rw [hw]; rfl) (by rw [hw]; rfl)).elim
    · rfl
  | respond res =>
    simp only
    split
    · rfl
    · rename_i hroom
      exact (hfull (Nat.le_of_not_lt hroom) (by rw [hw]; rfl)).elim
  | retry res =>
    simp only
    split
    · rfl
    · rename_i hroom
      exact (hfull (Nat.le_of_not_lt hroom) (by rw [hw]; rfl)).elim
  | apply | drain | flush | done => rfl

theorem benchmark_progresses (hq : 0 < q) (hn : n ≤ 2 * q + 1) :
    Progresses (BenchStep hash C n q) (BenchInv hash C n q c₀) (fun s => s.point = .finished)
      (benchRank C n q) (helpful q) := by
  refine ⟨fun t s s' hs h => h.step hpos hlt hsim hs, ?_⟩
  intro t s s' hs h hgoal
  cases hs with
  | client =>
    rcases h.client_moves.rank hgoal (h.not_joining hgoal) with hless | ⟨hsame, hwait⟩
    · exact Or.inl hless
    · right
      have hworker := h.waits hpos hlt hsim hq hn hgoal hwait
      rw [hsame]
      refine ⟨?_, rfl, rfl⟩
      rw [hworker]
      exact Thread.noConfusion
  | worker hrun =>
    have hrunning := h.running hgoal
    have hd := h.async.not_draining hrunning
    exact benchRank_worker hrunning hd (workerMoves_of_step hrun)

end Fair

/-- Neither thread is ever without a step. -/
theorem BenchInv.enabled {hash : UInt64 → Nat} {C n q : Nat} {c₀ : Cache} {s : Bench}
    (h : BenchInv hash C n q c₀ s) (t : Thread) : ∃ s', BenchStep hash C n q t s s' := by
  cases t with
  | client => exact ⟨_, .client s⟩
  | worker =>
    rcases h.async.progress with ⟨async, hmove⟩
    exact ⟨_, .worker hmove.run⟩

/-- **The benchmark ends exactly if its GETs fit.** Whatever the interleaving, no step faults and
what was polled are the first of the right answers, in order. If `num_ops` is at most twice the
queue capacity and one, every fair run gets through the three loops with all of them; if it is
more, no run gets past the second loop, and nothing is ever polled. -/
theorem benchmark_completes {C n q : Nat} (hpos : 0 < C) (hlt : C < 2 ^ 31) (hq : 0 < q)
    (hc : q + 1 < 2 ^ 64) :
    ∃ s₀, AsyncState.new C q = .ok s₀ ∧ CallsSafe CacheRequest q ∧ CallsSafe CacheResponse q ∧
      (∀ k, hashKey s₀.cache.hashMask k < s₀.cache.hashTable.length) ∧
      ∀ hash : UInt64 → Nat, (∀ k, hash k < s₀.cache.hashTable.length) →
        (∀ s, Reachable (fun s => s = { async := s₀, point := .warming 0 })
            (fun s s' => ∃ t, BenchStep hash C n q t s s') s →
          (∃ async, workerStep hash q s.async = .ok async) ∧
          s.async.polled <+: replies C n ∧
          (2 * q + 1 < n → s.async.polled = [] ∧
            ∀ received, s.point ≠ .receiving received ∧ s.point ≠ .finished)) ∧
        (∃ e, FairRun (BenchStep hash C n q) e ∧ e 0 = { async := s₀, point := .warming 0 }) ∧
        (n ≤ 2 * q + 1 → ∀ e, FairRun (BenchStep hash C n q) e →
          e 0 = { async := s₀, point := .warming 0 } →
          ∃ k, (e k).point = .finished ∧ (e k).async.polled = replies C n) := by
  rcases AsyncState.new_ok hpos hlt hq with ⟨s₀, hnew, hcache, hreal, hstart, hinv⟩
  rcases hstart with ⟨_, _, hrun, hclient, _, hsub, hpolled⟩
  refine ⟨s₀, hnew, callsSafe_of_lt hq hc, callsSafe_of_lt hq hc, hreal, ?_⟩
  intro hash hhash
  have hsim : Sim hash s₀.cache (State.init C hpos) := by
    rcases Sim.new hpos hlt with ⟨c₀, hcache', _, hsim⟩
    cases hcache'.symm.trans hcache
    exact hsim hash hhash
  have h₀ : BenchInv hash C n q s₀.cache { async := s₀, point := .warming 0 } :=
    { async := hinv hash hhash
      begun := hsub
      received := by rw [hpolled]; rfl
      in_range := Nat.zero_le C
      calls := by
        show s₀.client ≠ .joining
        rw [hclient]
        exact Client.noConfusion
      running := fun _ => hrun }
  refine ⟨?_, ?_, ?_⟩
  · intro s hs
    have h : BenchInv hash C n q s₀.cache s := by
      refine Reachable.invariant (I := BenchInv hash C n q s₀.cache) ?_ ?_ hs
      · rintro _ rfl
        exact h₀
      · rintro s s' ⟨t, hstep⟩ h
        exact h.step hpos hlt hsim hstep
    refine ⟨?_, h.polled_le_replies hpos hlt hsim, ?_⟩
    · rcases h.async.progress with ⟨async, hmove⟩
      exact ⟨async, hmove.run⟩
    · intro hn
      have hrange := h.in_range
      have hreceived := h.received
      cases hpoint : s.point with
      | warming i | blasting i =>
        rw [hpoint] at hreceived
        exact ⟨List.length_eq_zero_iff.mp hreceived,
          fun _ => ⟨BenchPoint.noConfusion, BenchPoint.noConfusion⟩⟩
      | receiving received =>
        rw [hpoint] at hrange
        have := hrange.2
        omega
      | finished =>
        rw [hpoint] at hrange
        have : n ≤ 2 * q + 1 := hrange
        omega
  · exact exists_fairRun (I := BenchInv hash C n q s₀.cache) alternate_fair
      (fun _ _ _ hstep h => h.step hpos hlt hsim hstep) (fun t _ h => h.enabled t) h₀
  · intro hn e hfair hzero
    have hprogress := benchmark_progresses hpos hlt hsim hq hn
    have hstart : BenchInv hash C n q s₀.cache (e 0) := by
      rw [hzero]
      exact h₀
    rcases hfair.reaches hprogress hstart with ⟨k, hk⟩
    have h := hfair.invariant hprogress.keeps hstart k
    refine ⟨k, hk, (h.polled_le_replies hpos hlt hsim).eq_of_length ?_⟩
    rw [h.received, hk, replies_length]
    rfl

/-- Three GETs through queues of capacity 1 are as many as fit. -/
theorem benchmark_completes_one :
    ∃ e, AsyncState.new 1 1 = .ok .one ∧
      FairRun (BenchStep (hashKey AsyncState.one.cache.hashMask) 1 3 1) e ∧
      ∃ k, (e k).point = .finished ∧ (e k).async.polled = replies 1 3 := by
  rcases benchmark_completes (C := 1) (n := 3) (q := 1) (by decide) (by decide) (by decide)
    (by decide) with ⟨s₀, hnew, _, _, hreal, h⟩
  cases AsyncState.new_one.symm.trans hnew
  rcases h _ hreal with ⟨_, ⟨e, hfair, hzero⟩, hends⟩
  exact ⟨e, hnew, hfair, hends (by decide) e hfair hzero⟩

end LruCache
