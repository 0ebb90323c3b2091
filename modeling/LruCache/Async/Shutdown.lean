import LruCache.Async.Order

/-!
# Shutdown

The destructor stores `false` to `running_` and waits for the worker. From then on every step of
the worker lowers `stopRank`, wherever in its three loops the store has caught it, so
`worker_loop` returns; what the invariant says about the state in which it does is that every
PUT has been applied.

Deliberate scope limits:

* Threads interleave, and every step sees the queues and `running_` as the last step left them. In
  the source `running_` is stored and loaded relaxed: on a machine on which the load may be ahead
  of those of the queue, the worker can miss the last PUTs, and none of the runs here shows that.
-/

namespace LruCache

open Transition

/-- More than the number of steps that the worker still makes once it is told to stop. -/
def stopRank (s : AsyncState) : Nat :=
  match s.worker with
  | .done => 0
  | .drain => 2 * s.inbox.length + 1
  | .flush _ => 2 * s.inbox.length + 2
  | .test => 2 * s.inbox.length + 2
  | .retry _ => 2 * s.inbox.length + 3
  | .respond _ => 2 * s.inbox.length + 4
  | .fetch => 2 * s.inbox.length + 4
  | .apply _ => 2 * s.inbox.length + 5

section Stop

variable {hash : UInt64 → Nat} {c₀ : Cache} {q : Nat} {s : AsyncState}

theorem stopRank_le (s : AsyncState) : stopRank s ≤ 2 * s.inbox.length + 5 := by
  unfold stopRank
  split <;> omega

/-- A worker that is told to stop comes closer to its end with every move; it does not touch
what the client has done. -/
theorem WorkerMoves.stops {s' : AsyncState} (h : WorkerMoves hash q s s')
    (hstop : s.running = false) (hw : s.worker ≠ .done) :
    s'.running = false ∧ s'.submitted = s.submitted ∧ stopRank s' < stopRank s := by
  cases h with
  | test _ hr => exact absurd (hr.symm.trans hstop) Bool.noConfusion
  | retry _ hr => exact absurd (hr.symm.trans hstop) Bool.noConfusion
  | done hdone => exact absurd hdone hw
  | fetch hwork hi =>
    refine ⟨hstop, rfl, ?_⟩
    simp only [stopRank, hwork, hi, List.length_cons]
    omega
  | drain hwork hi =>
    refine ⟨hstop, rfl, ?_⟩
    simp only [stopRank, hwork, hi, List.length_cons]
    omega
  | @apply req r cache hwork happly =>
    refine ⟨hstop, rfl, ?_⟩
    cases r with
    | none =>
      simp only [stopRank, hwork, Worker.after]
      omega
    | some res =>
      simp only [stopRank, hwork, Worker.after]
      omega
  -- The remaining moves leave the inbox as it is and go on to a point of lower rank.
  | stop hwork | idle hwork | respond hwork | full hwork | drop hwork | finish hwork
  | flushPut hwork | flushGet hwork =>
    refine ⟨hstop, rfl, ?_⟩
    simp only [stopRank, hwork]
    omega

/-- A worker that is told to stop returns. -/
theorem AsyncInv.returns (h : AsyncInv hash c₀ q s) (hstop : s.running = false) :
    ∃ n ≤ stopRank s, ∃ s', steps (workerStep hash q) n s = .ok s' ∧ s'.worker = .done ∧
      s'.submitted = s.submitted ∧ AsyncInv hash c₀ q s' := by
  generalize hr : stopRank s = r
  induction r using Nat.strong_induction_on generalizing s with
  | _ r ih =>
    -- on the rank: one move, and the rest of the way from there
    by_cases hw : s.worker = .done
    · exact ⟨0, Nat.zero_le _, s, rfl, hw, rfl, h⟩
    · rcases h.progress with ⟨s₁, hmove⟩
      rcases hmove.stops hstop hw with ⟨hstop₁, hsub₁, hlt⟩
      have h₁ := h.moves hmove
      rcases ih (stopRank s₁) (by omega) h₁ hstop₁ rfl with ⟨n, hn, s', hsteps, hdone, hsub, h'⟩
      refine ⟨n + 1, by omega, s', ?_, hdone, hsub.trans hsub₁, h'⟩
      rw [steps, hmove.run]
      exact hsteps

/-- What the invariant says once `worker_loop` has returned. -/
theorem AsyncInv.at_end (h : AsyncInv hash c₀ q s) (hdone : s.worker = .done) :
    s.inbox = [] ∧ s.submitted = s.applied ++ s.flushed ∧
      ∃ out c out', sequential hash s.applied c₀ = .ok (out, c) ∧
        sequential hash (puts s.flushed) c = .ok (out', s.cache) ∧
        (s.polled ++ s.outbox = out ∨
          EndsWithGet s.applied ∧ ∃ res, s.polled ++ s.outbox ++ [res] = out) := by
  have hinbox := h.finished hdone
  have hdraining : s.worker.draining = true := by
    rw [hdone]
    rfl
  have hclient := h.joining (h.stopped hdraining)
  refine ⟨hinbox, ?_, ?_⟩
  · rw [h.accounted, hdone, hinbox, hclient]
    simp [Worker.holds, Client.holds]
  · rcases h.served with ⟨out, c, out', hseq, hans, hflush⟩
    refine ⟨out, c, out', hseq, hflush, ?_⟩
    rcases hans with ⟨hall, _⟩ | ⟨_, _, hend, hres⟩
    · rw [hdone] at hall
      left
      rw [← hall]
      exact (List.append_nil _).symm
    · exact Or.inr ⟨hend, hres⟩

end Stop

/-- **Shutdown.** In every reachable state after the store to `running_` the client waits, and
the worker returns after at most twice as many steps as there are requests in the inbox, and
five. It returns with the inbox empty; the requests `R` are then `A ++ B` such that the cache is
what all of `A` and the PUTs of `B` make of a new one, in order, and the responses that were ever
pushed (polled, or still in the outbox) are those to the GETs of `A`, except perhaps the last
one if `A` ends with a GET. -/
theorem shutdown_flushes {C q : Nat} (hpos : 0 < C) (hlt : C < 2 ^ 31) (hq : 0 < q) :
    ∃ s₀, AsyncState.new C q = .ok s₀ ∧ Cache.new C = .ok s₀.cache ∧
      (∀ k, hashKey s₀.cache.hashMask k < s₀.cache.hashTable.length) ∧
      ∀ hash : UInt64 → Nat, (∀ k, hash k < s₀.cache.hashTable.length) →
        ∀ s, Reachable (fun s => s = s₀) (AsyncStep hash q) s → s.running = false →
          (∀ call, clientStep q call s = s) ∧
          ∃ n ≤ 2 * s.inbox.length + 5, ∃ s', steps (workerStep hash q) n s = .ok s' ∧
            s'.worker = .done ∧ s'.inbox = [] ∧
            ∃ A B out c out', s.submitted = A ++ B ∧
              sequential hash A s₀.cache = .ok (out, c) ∧
              sequential hash (puts B) c = .ok (out', s'.cache) ∧
              (s'.polled ++ s'.outbox = out ∨
                EndsWithGet A ∧ ∃ res, s'.polled ++ s'.outbox ++ [res] = out) := by
  rcases AsyncState.new_ok hpos hlt hq with ⟨s₀, hnew, hcache, hreal, _, hinv⟩
  refine ⟨s₀, hnew, hcache, hreal, ?_⟩
  intro hash hhash s hs hstop
  have h := AsyncInv.reachable (hinv hash hhash) hs
  refine ⟨clientStep_joining (h.joining hstop), ?_⟩
  rcases h.returns hstop with ⟨n, hn, s', hsteps, hdone, hsub, h'⟩
  rcases h'.at_end hdone with ⟨hinbox, happend, out, c, out', hseq, hflush, hans⟩
  refine ⟨n, Nat.le_trans hn (stopRank_le s), s', hsteps, hdone, hinbox, ?_⟩
  exact ⟨s'.applied, s'.flushed, out, c, out', hsub.symm.trans happend, hseq, hflush, hans⟩

/-- The destructor runs while the worker has the answer to a GET in its hands, the outbox is full
and a PUT is still in the inbox. -/
theorem shutdown_flushes_one :
    ∃ s s' n,
      Reachable (fun s => s = .one) (AsyncStep (hashKey AsyncState.one.cache.hashMask) 1) s ∧
      AsyncState.new 1 1 = .ok .one ∧ s.running = false ∧ s.inbox = [asyncPut 1 10] ∧
      s.outbox = [{ reqId := 7, found := false, value := 0 }] ∧
      s.worker = .respond { reqId := 8, found := false, value := 0 } ∧
      steps (workerStep (hashKey AsyncState.one.cache.hashMask) 1) n s = .ok s' ∧
      s'.worker = .done ∧ s'.inbox = [] := by
  rcases shutdown_flushes (C := 1) (q := 1) (by decide) (by decide) (by decide) with
    ⟨s₀, hnew, _, hreal, hflush⟩
  cases AsyncState.new_one.symm.trans hnew
  let get (reqId key : UInt64) : List (Option ClientCall) :=
    [some (.asyncGet reqId key), some .pollResponse, none, none, none]
  let schedule : List (Option ClientCall) :=
    get 7 5 ++ [none] ++ get 8 6 ++
      [some (.asyncPut 1 10), some .pollResponse, some .destroy]
  have hrun : ∃ s, play (asyncMove (hashKey 1) 1) schedule .one = .ok s ∧ s.running = false ∧
      s.inbox = [asyncPut 1 10] ∧ s.outbox = [{ reqId := 7, found := false, value := 0 }] ∧
      s.worker = .respond { reqId := 8, found := false, value := 0 } := by
    refine ⟨_, rfl, ?_⟩
    decide +kernel
  rcases hrun with ⟨s, hrun, hstop, hinbox, houtbox, hworker⟩
  have h₀ : Reachable (fun s => s = .one) (AsyncStep (hashKey 1) 1) .one := .start rfl
  have hs := h₀.play asyncMove_step schedule hrun
  rcases (hflush _ hreal s hs hstop).2 with ⟨n, _, s', hsteps, hdone, hempty, _⟩
  exact ⟨s, s', n, hs, hnew, hstop, hinbox, houtbox, hworker, hsteps, hdone, hempty⟩

end LruCache
