import LruCache.Queue.Safety

/-!
# What an access of a call comes to

A call of `push` or `pop` is a run of accesses, at most five of them. `PushMoves` and `PopMoves`
say what one access means to a caller who sees the content of the queue and the result of the
call, and nothing else: one more access of the same call, or the return of it.

Main results:

* `SpscInv.push_moves`, `SpscInv.pop_moves`: every access is one of these moves.
-/

namespace LruCache

open BoundedFifo Transition

/-! ## Points in a call -/

section Points

variable {T : Type}

/-- The number of steps that the producer has made in its call. -/
def Producer.point : Producer T → Nat
  | .idle => 0
  | .start _ => 1
  | .loaded _ _ _ => 2
  | .room _ _ _ => 3
  | .written _ _ _ => 4

/-- The number of steps that the consumer has made in its call. -/
def Consumer.point : Consumer T → Nat
  | .idle => 0
  | .start => 1
  | .loaded _ => 2
  | .nonempty _ => 3
  | .obtained _ _ => 4

/-- A push has five points at most, -/
theorem Producer.point_le (p : Producer T) : p.point ≤ 4 := by
  cases p <;> simp [Producer.point]

/-- and so has a pop. -/
theorem Consumer.point_le (p : Consumer T) : p.point ≤ 4 := by
  cases p <;> simp [Consumer.point]

end Points

/-! ## Calls that return -/

section Calls

variable {T : Type}

/-- The result of the `push` that the producer's last access has completed. -/
def SpscState.pushReturned (s : SpscState T) : Option Bool :=
  match s.producer with
  | .idle => s.pushes.getLast?.map Prod.snd
  | _ => none

/-- The result of the `pop` that the consumer's last access has completed: the item, or `none`
where the source returns false. -/
def SpscState.popReturned (s : SpscState T) : Option (Option T) :=
  match s.consumer with
  | .idle => s.pops.getLast?
  | _ => none

/-- What one access of a `push` of `item` comes to. -/
inductive PushMoves (c : Nat) (item : T) (s s' : SpscState T) : Prop
  | access : s'.pushReturned = none → s'.log.content = s.log.content →
      s'.producer.item? = some item → s'.producer.point = s.producer.point + 1 →
      PushMoves c item s s'
  | full : s'.pushReturned = some false → s'.log.content = s.log.content →
      s'.producer.item? = none → c ≤ s.log.content.length → PushMoves c item s s'
  | stored : s'.pushReturned = some true → s'.log.content = s.log.content ++ [item] →
      s'.producer.item? = none → s.log.content.length < c → PushMoves c item s s'

/-- What one access of a `pop` comes to. -/
inductive PopMoves (s s' : SpscState T) : Prop
  | access : s'.popReturned = none → s'.log.content = s.log.content →
      s'.consumer.point = s.consumer.point + 1 → PopMoves s s'
  | empty : s'.popReturned = some none → s'.log.content = [] → s.log.content = [] →
      PopMoves s s'
  | released (item : T) : s'.popReturned = some (some item) →
      s.log.content = item :: s'.log.content → PopMoves s s'

variable {c : Nat} {s : SpscState T}

/-- Every access of the producer. -/
theorem SpscInv.push_moves (hc : c + 1 < 2 ^ 64) (h : SpscInv c s) {item : T}
    (hitem : ∀ x, s.producer.item? = some x → x = item) :
    ∃ s', LruCache.producerStep item s = .ok s' ∧ SpscInv c s' ∧ PushMoves c item s s' := by
  rcases h.producerStep hc item with ⟨s', hrun, hinv⟩
  refine ⟨s', hrun, hinv, ?_⟩
  have hle := Nat.le_trans h.released_le h.obtained_le
  unfold LruCache.producerStep at hrun
  cases hp : s.producer with
  | idle =>
    rw [hp] at hrun
    cases hrun
    exact .access rfl rfl rfl (by rw [hp]; rfl)
  | start x =>
    rw [hp] at hrun hitem
    cases hitem x rfl
    rcases bind_eq_ok hrun with ⟨nextTail, _, hend⟩
    cases hend
    exact .access rfl rfl rfl (by rw [hp]; rfl)
  | loaded x currentTail nextTail =>
    rw [hp] at hrun hitem
    cases hitem x rfl
    simp only at hrun
    split at hrun
    · rename_i hfull
      cases hrun
      refine .full ?_ rfl rfl ?_
      · simp [SpscState.pushReturned]
      · simp only [SpscState.log, List.length_drop, h.full hp hfull]
        omega
    · cases hrun
      exact .access rfl rfl rfl (by rw [hp]; rfl)
  | room x currentTail nextTail =>
    rw [hp] at hrun hitem
    cases hitem x rfl
    rcases bind_eq_ok hrun with ⟨buffer, _, hend⟩
    cases hend
    exact .access rfl rfl rfl (by rw [hp]; rfl)
  | written x currentTail nextTail =>
    have hknows := h.producer
    unfold ProducerKnows at hknows
    rw [hp] at hrun hitem hknows
    cases hitem x rfl
    cases hrun
    refine .stored ?_ ?_ rfl ?_
    · simp [SpscState.pushReturned]
    · simp only [SpscState.log, List.drop_append_of_le_length hle]
    · simp only [SpscState.log, List.length_drop]
      omega

/-- Every access of the consumer. -/
theorem SpscInv.pop_moves (hc : c + 1 < 2 ^ 64) (h : SpscInv c s) :
    ∃ s', LruCache.consumerStep s = .ok s' ∧ SpscInv c s' ∧ s'.producer = s.producer ∧
      PopMoves s s' := by
  rcases h.consumerStep hc with ⟨s', hrun, hinv⟩
  refine ⟨s', hrun, hinv, ?_⟩
  unfold LruCache.consumerStep at hrun
  cases hp : s.consumer with
  | idle =>
    rw [hp] at hrun
    cases hrun
    exact ⟨rfl, .access rfl rfl (by rw [hp]; rfl)⟩
  | start =>
    rw [hp] at hrun
    cases hrun
    exact ⟨rfl, .access rfl rfl (by rw [hp]; rfl)⟩
  | loaded currentHead =>
    rw [hp] at hrun
    simp only at hrun
    split at hrun
    · rename_i hempty
      have hnil : s.log.content = [] := by
        simp only [SpscState.log, List.drop_eq_nil_iff, (h.empty hp hempty).2, Nat.le_refl]
      cases hrun
      refine ⟨rfl, .empty ?_ hnil hnil⟩
      simp [SpscState.popReturned]
    · cases hrun
      exact ⟨rfl, .access rfl rfl (by rw [hp]; rfl)⟩
  | nonempty currentHead =>
    rw [hp] at hrun
    rcases bind_eq_ok hrun with ⟨item, _, hend⟩
    cases hend
    exact ⟨rfl, .access rfl rfl (by rw [hp]; rfl)⟩
  | obtained currentHead item =>
    have hknows := h.consumer
    unfold ConsumerKnows at hknows
    rw [hp] at hrun hknows
    rcases List.getElem?_eq_some_iff.mp hknows.2.2 with ⟨hlt, hget⟩
    rcases bind_eq_ok hrun with ⟨head, _, hend⟩
    cases hend
    refine ⟨rfl, PopMoves.released item ?_ ?_⟩
    · simp [SpscState.popReturned]
    · simp only [SpscState.log]
      rw [List.drop_eq_getElem_cons hlt, hget]

end Calls

end LruCache
