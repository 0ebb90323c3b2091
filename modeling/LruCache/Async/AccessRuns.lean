import LruCache.Async.Projection
import LruCache.Async.Shutdown

/-!
# Every interleaving of accesses

What holds of the cache with two atomic queues holds of the one whose calls are runs of accesses.

Main results:

* `accesses_refine_calls`: no access faults, both queues are safe, and every access is invisible or
  a step with atomic queues;
* `accesses_shutdown`: wherever in a `push` or a `pop` the store to `running_` catches the two
  threads, the worker returns and no PUT is lost.

Both are about sequentially consistent accesses, as `Async/Accesses` says, and about queue
capacities up to `2^64 - 2`.
-/

namespace LruCache

open BoundedFifo Transition

/-! ## Refinement -/

section Runs

variable {C q : Nat}

/-- **Atomic queues are enough.** However the accesses of the two threads interleave, none of
them faults, and both queues are safe; an access of a thread is invisible or a step of that
thread with atomic queues, and the state with the calls made atomic is reachable with them. -/
theorem accesses_refine_calls (hpos : 0 < C) (hlt : C < 2 ^ 31) (hq : 0 < q)
    (hc : q + 1 < 2 ^ 64) :
    ∃ s₀, FineState.new C q = .ok s₀ ∧ AsyncState.new C q = .ok s₀.coarse ∧
      (∀ k, hashKey s₀.cache.hashMask k < s₀.cache.hashTable.length) ∧
      ∀ hash : UInt64 → Nat, (∀ k, hash k < s₀.cache.hashTable.length) →
        ∀ s, Reachable (fun s => s = s₀) (FineStep hash) s →
          (∀ call, ∃ s', fineClientStep call s = .ok s' ∧
            (s'.coarse = s.coarse ∨ ∃ call', clientStep q call' s.coarse = s'.coarse)) ∧
          (∃ s', fineWorkerStep hash s = .ok s' ∧
            (s'.coarse = s.coarse ∨ workerStep hash q s.coarse = .ok s'.coarse)) ∧
          SpscSafe q s.inbox ∧ SpscSafe q s.outbox ∧
          Reachable (fun t => t = s₀.coarse) (AsyncStep hash q) s.coarse := by
  rcases FineState.new_ok hpos hlt hq hc with ⟨s₀, hnew, hcoarse, _, hreal, h₀, hinv⟩
  refine ⟨s₀, hnew, hcoarse, hreal, ?_⟩
  intro hash hhash s hs
  have hboth : ∀ s, Reachable (fun s => s = s₀) (FineStep hash) s →
      FineInv q s ∧ AsyncInv hash s₀.cache q s.coarse :=
    fun s hs => FineInv.both hc h₀ (hinv hash hhash) hs
  rcases hboth s hs with ⟨h, hasync⟩
  refine ⟨?_, ?_, h.inbox.safe hc, h.outbox.safe hc, ?_⟩
  · intro call
    rcases h.client_step hc call with ⟨s', hrun, _, hmove⟩
    exact ⟨s', hrun, hmove⟩
  · rcases h.worker_step hc hasync.sim with ⟨s', hrun, _, ⟨hsame, _⟩ | hmove⟩
    · exact ⟨s', hrun, Or.inl hsame⟩
    · exact ⟨s', hrun, Or.inr hmove.run⟩
  · refine Reachable.refines (f := FineState.coarse) ?_ ?_ hs
    · rintro _ rfl
      rfl
    · intro s₁ s₂ hreach hstep
      rcases hboth s₁ hreach with ⟨h₁, hasync₁⟩
      exact (h₁.step_refines hc hasync₁.sim hstep).2

/-- The client is inside its second `push`, the first item still being in the inbox, while the
worker has read that item out of the buffer and has not yet stored `head_`. -/
theorem accesses_refine_calls_one :
    ∃ s, Reachable (fun s => s = .one) (FineStep (hashKey FineState.one.cache.hashMask)) s ∧
      FineState.new 1 1 = .ok .one ∧
      s.inbox.producer = .loaded (asyncGet 7 1) 1 0 ∧
      s.inbox.consumer = .obtained 0 (asyncPut 1 10) ∧ s.coarse.inbox = [asyncPut 1 10] ∧
      SpscSafe 1 s.inbox ∧
      Reachable (fun t => t = FineState.one.coarse)
        (AsyncStep (hashKey FineState.one.cache.hashMask) 1) s.coarse := by
  rcases accesses_refine_calls (C := 1) (q := 1) (by decide) (by decide) (by decide)
    (by decide) with ⟨s₀, hnew, _, hreal, h⟩
  cases FineState.new_one.symm.trans hnew
  let schedule : List (Option ClientCall) :=
    some (.asyncPut 1 10) :: List.replicate 5 (some .pollResponse) ++ List.replicate 5 none ++
      some (.asyncGet 7 1) :: List.replicate 2 (some .pollResponse)
  have hrun : ∃ s, play (fineMove (hashKey 1)) schedule .one = .ok s ∧
      s.inbox.producer = .loaded (asyncGet 7 1) 1 0 ∧
      s.inbox.consumer = .obtained 0 (asyncPut 1 10) ∧ s.inbox.log.content = [asyncPut 1 10] := by
    refine ⟨_, rfl, ?_⟩
    decide +kernel
  rcases hrun with ⟨s, hrun, hproducer, hconsumer, hcontent⟩
  have h₀ : Reachable (fun s => s = .one) (FineStep (hashKey 1)) .one := .start rfl
  have hs := h₀.play fineMove_step schedule hrun
  rcases h _ hreal s hs with ⟨_, _, hsafe, _, hreach⟩
  exact ⟨s, hs, hnew, hproducer, hconsumer, hcontent, hsafe, hreach⟩

end Runs

/-! ## Shutdown access by access -/

section Stop

variable {hash : UInt64 → Nat} {c₀ : Cache} {C q : Nat} {s : FineState}

theorem FineState.workerPoint_le (s : FineState) : s.workerPoint ≤ 4 := by
  unfold FineState.workerPoint
  split
  · exact Consumer.point_le _
  · exact Consumer.point_le _
  · exact Producer.point_le _
  · exact Nat.zero_le 4

/-- More than the number of accesses that the worker still makes once it is told to stop: a
step takes at most five. -/
def accessRank (s : FineState) : Nat := 5 * stopRank s.coarse - s.workerPoint

theorem stopRank_pos {t : AsyncState} (hw : t.worker ≠ .done) : 0 < stopRank t := by
  unfold stopRank
  split
  · contradiction
  all_goals omega

/-- A worker that is told to stop returns. -/
theorem FineInv.returns (hc : q + 1 < 2 ^ 64) (h : FineInv q s)
    (hasync : AsyncInv hash c₀ q s.coarse) (hstop : s.running = false) :
    ∃ n ≤ accessRank s, ∃ s', steps (fineWorkerStep hash) n s = .ok s' ∧ s'.worker = .done ∧
      s'.submitted = s.submitted ∧ AsyncInv hash c₀ q s'.coarse := by
  generalize hr : accessRank s = r
  induction r using Nat.strong_induction_on generalizing s with
  | _ r ih =>
    by_cases hw : s.worker = .done
    · exact ⟨0, Nat.zero_le _, s, rfl, hw, rfl, hasync⟩
    · rcases h.worker_step hc hasync.sim with ⟨s₁, hrun, h₁, hmove⟩
      have hstep : FineStep hash s s₁ := Or.inr hrun
      have hasync₁ := (FineInv.both_step hc hstep ⟨h, hasync⟩).2
      have hpoint := s.workerPoint_le
      have hrank : 0 < stopRank s.coarse := stopRank_pos hw
      -- one more access of the same call, or the next point of the worker at a lower rank
      have hless : s₁.running = false ∧ s₁.submitted = s.submitted ∧
          accessRank s₁ < accessRank s := by
        rcases hmove with ⟨hsame, hnext⟩ | hmove
        · refine ⟨?_, congrArg AsyncState.submitted hsame, ?_⟩
          · exact (congrArg AsyncState.running hsame).trans hstop
          · unfold accessRank
            rw [hsame, hnext]
            omega
        · rcases hmove.stops hstop hw with ⟨hstop₁, hsub₁, hlt⟩
          refine ⟨hstop₁, hsub₁, ?_⟩
          unfold accessRank
          omega
      rcases hless with ⟨hstop₁, hsub₁, hlt⟩
      rcases ih (accessRank s₁) (by omega) h₁ hasync₁ hstop₁ rfl with
        ⟨n, hn, s', hsteps, hdone, hsub, h'⟩
      refine ⟨n + 1, by omega, s', ?_, hdone, hsub.trans hsub₁, h'⟩
      rw [steps, hrun]
      exact hsteps

/-- **Shutdown, access by access.** Whatever accesses the two threads had made when the
destructor stored to `running_`, in the middle of a `push` or a `pop` of the worker too, the
worker returns after at most five accesses for each of `2 n + 5` steps, where `n` requests were
in the inbox. The requests applied before and the PUTs of those flushed have then made the cache
what it is, in the order in which they were submitted. -/
theorem accesses_shutdown (hpos : 0 < C) (hlt : C < 2 ^ 31) (hq : 0 < q) (hc : q + 1 < 2 ^ 64) :
    ∃ s₀, FineState.new C q = .ok s₀ ∧ Cache.new C = .ok s₀.cache ∧
      (∀ k, hashKey s₀.cache.hashMask k < s₀.cache.hashTable.length) ∧
      ∀ hash : UInt64 → Nat, (∀ k, hash k < s₀.cache.hashTable.length) →
        ∀ s, Reachable (fun s => s = s₀) (FineStep hash) s → s.running = false →
          (∀ call, fineClientStep call s = .ok s) ∧
          ∃ n ≤ 5 * (2 * s.inbox.log.content.length + 5), ∃ s',
            steps (fineWorkerStep hash) n s = .ok s' ∧ s'.worker = .done ∧
            s'.inbox.log.content = [] ∧ s'.submitted = s.submitted ∧
            s'.submitted = s'.applied ++ s'.flushed ∧
            ∃ out c out', sequential hash s'.applied s₀.cache = .ok (out, c) ∧
              sequential hash (puts s'.flushed) c = .ok (out', s'.cache) ∧
              (s'.polled ++ s'.outbox.log.content = out ∨
                EndsWithGet s'.applied ∧
                  ∃ res, s'.polled ++ s'.outbox.log.content ++ [res] = out) := by
  rcases FineState.new_ok hpos hlt hq hc with ⟨s₀, hnew, _, hcache, hreal, h₀, hinv⟩
  refine ⟨s₀, hnew, hcache, hreal, ?_⟩
  intro hash hhash s hs hstop
  rcases FineInv.both hc h₀ (hinv hash hhash) hs with ⟨h, hasync⟩
  constructor
  · intro call
    have hjoining : s.client.coarse = .joining := hasync.joining hstop
    unfold fineClientStep
    cases hclient : s.client with
    | joining => rfl
    | _ =>
      rw [hclient] at hjoining
      cases hjoining
  · rcases h.returns hc hasync hstop with ⟨n, hn, s', hsteps, hdone, hsub, hasync'⟩
    rcases hasync'.at_end hdone with ⟨hinbox, happend, hserved⟩
    have hrank : accessRank s ≤ 5 * (2 * s.inbox.log.content.length + 5) :=
      Nat.le_trans (Nat.sub_le _ _) (Nat.mul_le_mul_left 5 (stopRank_le s.coarse))
    exact ⟨n, Nat.le_trans hn hrank, s', hsteps, hdone, hinbox, hsub, happend, hserved⟩

/-- The destructor is called while the worker has read a PUT out of the buffer, in the middle of
its `pop`. -/
theorem accesses_shutdown_one :
    ∃ s s' n, Reachable (fun s => s = .one) (FineStep (hashKey FineState.one.cache.hashMask)) s ∧
      FineState.new 1 1 = .ok .one ∧ s.running = false ∧ s.worker = .fetch ∧
      s.inbox.consumer = .obtained 0 (asyncPut 1 10) ∧
      steps (fineWorkerStep (hashKey FineState.one.cache.hashMask)) n s = .ok s' ∧
      s'.worker = .done ∧ s'.applied ++ s'.flushed = [asyncPut 1 10] := by
  rcases accesses_shutdown (C := 1) (q := 1) (by decide) (by decide) (by decide) (by decide) with
    ⟨s₀, hnew, _, hreal, h⟩
  cases FineState.new_one.symm.trans hnew
  let schedule : List (Option ClientCall) :=
    some (.asyncPut 1 10) :: List.replicate 5 (some .pollResponse) ++ List.replicate 5 none ++
      [some .destroy]
  have hrun : ∃ s, play (fineMove (hashKey 1)) schedule .one = .ok s ∧ s.running = false ∧
      s.worker = .fetch ∧ s.inbox.consumer = .obtained 0 (asyncPut 1 10) ∧
      s.submitted = [asyncPut 1 10] := by
    refine ⟨_, rfl, ?_⟩
    decide +kernel
  rcases hrun with ⟨s, hrun, hstop, hworker, hconsumer, hsubmitted⟩
  have h₀ : Reachable (fun s => s = .one) (FineStep (hashKey 1)) .one := .start rfl
  have hs := h₀.play fineMove_step schedule hrun
  rcases (h _ hreal s hs hstop).2 with ⟨n, _, s', hsteps, hdone, _, hsub, happend, _⟩
  refine ⟨s, s', n, hs, hnew, hstop, hworker, hconsumer, hsteps, hdone, ?_⟩
  rw [← happend, hsub, hsubmitted]

end Stop

end LruCache
