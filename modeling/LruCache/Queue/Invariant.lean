import LruCache.Lib.BoundedFifo
import LruCache.Lib.Transition
import LruCache.Queue.Spsc

/-!
# The invariant of the queue

Counting the items makes the ring disappear: `tail_` is the number of published items and
`head_` the number of released ones, both modulo the number of slots. `SpscInv` says so, together
with what each thread knows at each of its program points.

Main results:

* `SpscInv.producerStep`, `SpscInv.consumerStep`: an access does not fault and keeps the
  invariant, one case for each program point;
* `SpscInv.reachable`: it holds in every state of every interleaving;
* `producerStep_cases`, `consumerStep_cases`: what an access can do to items and results.
-/

namespace LruCache

open Transition BoundedFifo

/-! ## The invariant -/

section Inv

variable {T : Type}

/-- What the producer knows at its program point. -/
def ProducerKnows (c : Nat) (s : SpscState T) : Prop :=
  match s.producer with
  | .idle => True
  | .start _ => True
  | .loaded _ currentTail nextTail =>
      currentTail = s.published.length % (c + 1) ∧ nextTail = (s.published.length + 1) % (c + 1)
  | .room _ currentTail nextTail =>
      currentTail = s.published.length % (c + 1) ∧
        nextTail = (s.published.length + 1) % (c + 1) ∧ s.published.length < s.released + c
  | .written item currentTail nextTail =>
      currentTail = s.published.length % (c + 1) ∧
        nextTail = (s.published.length + 1) % (c + 1) ∧ s.published.length < s.released + c ∧
        s.queue.buffer[currentTail]? = some item

/-- What the consumer knows at its program point. Only between the read and the store of
`head_` has it obtained an item that is not released. -/
def ConsumerKnows (c : Nat) (s : SpscState T) : Prop :=
  match s.consumer with
  | .idle => s.obtained.length = s.released
  | .start => s.obtained.length = s.released
  | .loaded currentHead =>
      currentHead = s.released % (c + 1) ∧ s.obtained.length = s.released
  | .nonempty currentHead =>
      currentHead = s.released % (c + 1) ∧ s.obtained.length = s.released ∧
        s.released < s.published.length
  | .obtained currentHead item =>
      currentHead = s.released % (c + 1) ∧ s.obtained.length = s.released + 1 ∧
        s.published[s.released]? = some item

structure SpscInv (c : Nat) (s : SpscState T) : Prop where
  slots : s.queue.capacity = c + 1
  buffer_length : s.queue.buffer.length = c + 1
  head_eq : s.queue.head = s.released % (c + 1)
  tail_eq : s.queue.tail = s.published.length % (c + 1)
  released_le : s.released ≤ s.obtained.length
  obtained_prefix : s.obtained <+: s.published
  published_le : s.published.length ≤ s.released + c
  /-- Every item that is published and not released is in its slot. -/
  content : ∀ k, s.released ≤ k → k < s.published.length →
    s.queue.buffer[k % (c + 1)]? = s.published[k]?
  producer : ProducerKnows c s
  consumer : ConsumerKnows c s
  pushes_eq : s.published = (s.pushes.filter Prod.snd).map Prod.fst
  pops_eq : s.obtained.take s.released = s.pops.filterMap id

theorem SpscInv.obtained_le {c : Nat} {s : SpscState T} (h : SpscInv c s) :
    s.obtained.length ≤ s.published.length :=
  h.obtained_prefix.length_le

/-- The counters never differ by more than the capacity, so distinct ones in this range have
distinct slots. -/
theorem slot_ne {c : Nat} {s : SpscState T} (hroom : s.published.length < s.released + c) {k : Nat}
    (hk : s.released ≤ k) (hlt : k < s.published.length) :
    s.published.length % (c + 1) ≠ k % (c + 1) := by
  intro heq
  have := eq_of_slot_eq (n := c + 1) (by omega) (by omega) heq.symm
  omega

theorem modulo_succ {c k : Nat} (hc : c + 1 < 2 ^ 64) :
    modulo (wrap (k % (c + 1) + 1)) (c + 1) = .ok ((k + 1) % (c + 1)) := by
  have hlt : k % (c + 1) < c + 1 := Nat.mod_lt _ (by omega)
  have hwrap : wrap (k % (c + 1) + 1) = k % (c + 1) + 1 := Nat.mod_eq_of_lt (by omega)
  -- the increment does not wrap around, since an index is below the number of slots
  rw [hwrap, modulo, if_neg (by omega), Nat.mod_add_mod]

/-- What the producer knows stays true when the consumer releases an item. -/
theorem ProducerKnows.release {c : Nat} {s s' : SpscState T} (h : ProducerKnows c s)
    (hproducer : s'.producer = s.producer) (hpublished : s'.published = s.published)
    (hbuffer : s'.queue.buffer = s.queue.buffer) (hreleased : s.released ≤ s'.released) :
    ProducerKnows c s' := by
  unfold ProducerKnows at h ⊢
  rw [hproducer, hpublished, hbuffer]
  split at h
  · trivial
  · trivial
  · exact h
  · exact ⟨h.1, h.2.1, by omega⟩
  · exact ⟨h.1, h.2.1, by omega, h.2.2.2⟩

/-- What the consumer knows stays true when the producer publishes an item. -/
theorem ConsumerKnows.publish {c : Nat} {s s' : SpscState T} {item : T} (h : ConsumerKnows c s)
    (hconsumer : s'.consumer = s.consumer) (hpublished : s'.published = s.published ++ [item])
    (hobtained : s'.obtained = s.obtained) (hreleased : s'.released = s.released) :
    ConsumerKnows c s' := by
  unfold ConsumerKnows at h ⊢
  rw [hconsumer, hpublished, hobtained, hreleased]
  split at h
  · exact h
  · exact h
  · exact h
  · exact ⟨h.1, h.2.1, by rw [List.length_append]; omega⟩
  · refine ⟨h.1, h.2.1, ?_⟩
    rw [List.getElem?_append_left]
    · exact h.2.2
    · exact (List.getElem?_eq_some_iff.mp h.2.2).1

/-! ## Steps -/

/-- A step of the producer does not fault and keeps the invariant. -/
theorem SpscInv.producerStep {c : Nat} {s : SpscState T} (hc : c + 1 < 2 ^ 64) (h : SpscInv c s)
    (call : T) : ∃ s', producerStep call s = .ok s' ∧ SpscInv c s' := by
  have hknows := h.producer
  unfold ProducerKnows at hknows
  unfold LruCache.producerStep
  cases hp : s.producer with
  | idle => exact ⟨_, rfl, { h with producer := trivial, consumer := h.consumer }⟩
  | start item =>
    let producer : Producer T :=
      .loaded item (s.published.length % (c + 1)) ((s.published.length + 1) % (c + 1))
    refine ⟨{ s with producer := producer }, ?_,
      { h with producer := ⟨rfl, rfl⟩, consumer := h.consumer }⟩
    simp only [h.slots, h.tail_eq, modulo_succ hc]
    rfl
  | loaded item currentTail nextTail =>
    rw [hp] at hknows
    simp only
    by_cases hfull : nextTail = s.queue.head
    · -- full: `push` returns false
      rw [if_pos hfull]
      refine ⟨_, rfl, { h with producer := trivial, consumer := h.consumer, pushes_eq := ?_ }⟩
      simpa using h.pushes_eq
    · rw [if_neg hfull]
      refine ⟨_, rfl, { h with producer := ⟨hknows.1, hknows.2, ?_⟩, consumer := h.consumer }⟩
      -- a full queue would have been noticed
      rcases Nat.lt_or_eq_of_le h.published_le with hlt | heq
      · exact hlt
      · refine absurd ?_ hfull
        rw [hknows.2, h.head_eq, heq]
        exact Nat.add_mod_right s.released (c + 1)
  | room item currentTail nextTail =>
    rw [hp] at hknows
    rcases hknows with ⟨htail, hnext, hroom⟩
    have hslot : currentTail < s.queue.buffer.length := by
      rw [htail, h.buffer_length]
      exact Nat.mod_lt _ (by omega)
    have hget := List.getElem?_eq_getElem hslot
    refine ⟨{ s with queue := { s.queue with buffer := s.queue.buffer.set currentTail item }
                     producer := .written item currentTail nextTail }, ?_, ?_⟩
    · simp only [updateAt_of_get hget]
      rfl
    · refine { h with buffer_length := ?_, content := ?_, producer := ⟨htail, hnext, hroom, ?_⟩
                      consumer := h.consumer }
      · show (s.queue.buffer.set currentTail item).length = c + 1
        rw [List.length_set, h.buffer_length]
      · -- the written slot holds no published item that is not released
        intro k hk hlt
        show (s.queue.buffer.set currentTail item)[k % (c + 1)]? = s.published[k]?
        rw [List.getElem?_set_ne (by rw [htail]; exact slot_ne hroom hk hlt)]
        exact h.content k hk hlt
      · show (s.queue.buffer.set currentTail item)[currentTail]? = some item
        rw [List.getElem?_set_self hslot]
  | written item currentTail nextTail =>
    rw [hp] at hknows
    rcases hknows with ⟨htail, hnext, hroom, hbuffer⟩
    have hlen : (s.published ++ [item]).length = s.published.length + 1 := by simp
    refine ⟨_, rfl, ?_⟩
    refine { h with tail_eq := ?_, obtained_prefix := ?_, published_le := ?_, content := ?_
                    producer := trivial, consumer := h.consumer.publish rfl rfl rfl rfl
                    pushes_eq := ?_ }
    · rw [hlen]
      exact hnext
    · exact h.obtained_prefix.trans (List.prefix_append _ _)
    · rw [hlen]
      show s.published.length + 1 ≤ s.released + c
      omega
    · intro k hk hlt
      rw [hlen] at hlt
      show s.queue.buffer[k % (c + 1)]? = (s.published ++ [item])[k]?
      rcases Nat.lt_or_eq_of_le (Nat.le_of_lt_succ hlt) with hold | hnew
      · rw [List.getElem?_append_left hold]
        exact h.content k hk hold
      · rw [hnew, List.getElem?_concat_length, ← htail]
        exact hbuffer
    · show s.published ++ [item] = ((s.pushes ++ [(item, true)]).filter Prod.snd).map Prod.fst
      rw [h.pushes_eq]
      simp

/-- A step of the consumer does not fault and keeps the invariant. -/
theorem SpscInv.consumerStep {c : Nat} {s : SpscState T} (hc : c + 1 < 2 ^ 64)
    (h : SpscInv c s) : ∃ s', consumerStep s = .ok s' ∧ SpscInv c s' := by
  have hknows := h.consumer
  unfold ConsumerKnows at hknows
  unfold LruCache.consumerStep
  cases hp : s.consumer with
  | idle =>
    rw [hp] at hknows
    exact ⟨_, rfl, { h with producer := h.producer, consumer := hknows }⟩
  | start =>
    rw [hp] at hknows
    exact ⟨_, rfl, { h with producer := h.producer, consumer := ⟨h.head_eq, hknows⟩ }⟩
  | loaded currentHead =>
    rw [hp] at hknows
    simp only
    by_cases hempty : currentHead = s.queue.tail
    · -- empty: `pop` returns false
      rw [if_pos hempty]
      refine ⟨_, rfl, { h with producer := h.producer, consumer := hknows.2, pops_eq := ?_ }⟩
      show _ = (s.pops ++ [none]).filterMap id
      rw [List.filterMap_append, h.pops_eq]
      simp
    · rw [if_neg hempty]
      refine ⟨_, rfl, { h with producer := h.producer, consumer := ⟨hknows.1, hknows.2, ?_⟩ }⟩
      have hle := h.obtained_le
      -- an empty queue would have been noticed
      rcases Nat.lt_or_eq_of_le (Nat.le_trans h.released_le hle) with hlt | heq
      · exact hlt
      · refine absurd ?_ hempty
        rw [hknows.1, h.tail_eq, heq]
  | nonempty currentHead =>
    rw [hp] at hknows
    rcases hknows with ⟨hhead, hobtained, hlt⟩
    have hitem : s.published[s.released]? = some s.published[s.released] :=
      List.getElem?_eq_getElem hlt
    -- the first item that is not released is still in its slot
    have hread : readAt s.queue.buffer (currentHead : Int) = .ok s.published[s.released] := by
      refine readAt_of_get ?_
      rw [hhead, h.content s.released (Nat.le_refl _) hlt, hitem]
    refine ⟨{ s with consumer := .obtained currentHead s.published[s.released]
                     obtained := s.obtained ++ [s.published[s.released]] }, ?_, ?_⟩
    · simp only [hread]
      rfl
    · have hlen : (s.obtained ++ [s.published[s.released]]).length = s.released + 1 := by
        rw [List.length_append, hobtained, List.length_singleton]
      refine { h with released_le := ?_, obtained_prefix := ?_, producer := h.producer
                      consumer := ⟨hhead, hlen, hitem⟩, pops_eq := ?_ }
      · rw [hlen]
        exact Nat.le_succ _
      · -- the item read is the next published one
        have htake := List.prefix_iff_eq_take.mp h.obtained_prefix
        rw [hobtained] at htake
        rw [htake, ← List.take_succ_eq_append_getElem hlt]
        exact List.take_prefix _ _
      · show (s.obtained ++ [s.published[s.released]]).take s.released = s.pops.filterMap id
        rw [List.take_append_of_le_length (by omega)]
        exact h.pops_eq
  | obtained currentHead item =>
    rw [hp] at hknows
    rcases hknows with ⟨hhead, hobtained, hitem⟩
    refine ⟨{ s with queue := { s.queue with head := (s.released + 1) % (c + 1) }
                     consumer := .idle, released := s.released + 1
                     pops := s.pops ++ [some item] }, ?_, ?_⟩
    · simp only [h.slots, hhead, modulo_succ hc]
      rfl
    · refine { h with head_eq := rfl, released_le := ?_, published_le := ?_, content := ?_
                      producer := h.producer.release rfl rfl rfl (Nat.le_succ _)
                      consumer := hobtained, pops_eq := ?_ }
      · exact Nat.le_of_eq hobtained.symm
      · have hle := h.published_le
        show s.published.length ≤ s.released + 1 + c
        omega
      · intro k hk hlt
        exact h.content k (Nat.le_of_succ_le hk) hlt
      · have hget : s.obtained[s.released]? = some item := by
          have htake := List.prefix_iff_eq_take.mp h.obtained_prefix
          rw [htake, List.getElem?_take_of_lt (by omega)]
          exact hitem
        show s.obtained.take (s.released + 1) = (s.pops ++ [some item]).filterMap id
        rw [List.take_add_one, hget, List.filterMap_append, h.pops_eq]
        simp

theorem SpscInv.step {c : Nat} {s s' : SpscState T} (hc : c + 1 < 2 ^ 64) (hs : SpscStep s s')
    (h : SpscInv c s) : SpscInv c s' := by
  rcases hs with ⟨call, hrun⟩ | hrun
  · rcases h.producerStep hc call with ⟨s₁, hrun₁, h₁⟩
    rw [hrun] at hrun₁
    cases hrun₁
    exact h₁
  · rcases h.consumerStep hc with ⟨s₁, hrun₁, h₁⟩
    rw [hrun] at hrun₁
    cases hrun₁
    exact h₁

theorem SpscInv.start [Inhabited T] {c : Nat} (hc : c + 1 < 2 ^ 64) {s : SpscState T}
    (hs : SpscStart c s) : SpscInv c s := by
  rcases hs with ⟨queue, hnew, rfl⟩
  have hwrap : wrap (c + 1) = c + 1 := Nat.mod_eq_of_lt hc
  unfold Spsc.new at hnew
  split at hnew
  · cases hnew
  · cases hnew
    rw [hwrap]
    exact
      { slots := rfl
        buffer_length := List.length_replicate
        head_eq := (Nat.zero_mod _).symm
        tail_eq := (Nat.zero_mod _).symm
        released_le := Nat.le_refl _
        obtained_prefix := List.prefix_refl _
        published_le := Nat.zero_le _
        content := fun k _ hk => absurd hk (Nat.not_lt_zero k)
        producer := trivial
        consumer := rfl
        pushes_eq := rfl
        pops_eq := rfl }

theorem SpscInv.reachable [Inhabited T] {c : Nat} (hc : c + 1 < 2 ^ 64) {s : SpscState T}
    (hs : Reachable (SpscStart c) SpscStep s) : SpscInv c s :=
  Reachable.invariant (I := SpscInv c) (fun _ => SpscInv.start hc)
    (fun _ _ hstep h => h.step hc hstep) hs

/-! ## What a step does to the results -/

/-- A step of the producer leaves items and results alone, or returns false because the queue is
full, or publishes and returns true. -/
theorem producerStep_cases {call : T} {s s' : SpscState T} (hrun : producerStep call s = .ok s') :
    (s'.published = s.published ∧ s'.released = s.released ∧ s'.pushes = s.pushes ∧
      s'.pops = s.pops) ∨
    (∃ item currentTail nextTail, s.producer = .loaded item currentTail nextTail ∧
      nextTail = s.queue.head ∧
      s' = { s with producer := .idle, pushes := s.pushes ++ [(item, false)] }) ∨
    (∃ item currentTail nextTail, s.producer = .written item currentTail nextTail ∧
      s' = { s with
        queue := { s.queue with tail := nextTail }
        producer := .idle
        published := s.published ++ [item]
        pushes := s.pushes ++ [(item, true)] }) := by
  unfold LruCache.producerStep at hrun
  cases hp : s.producer with
  | idle =>
    rw [hp] at hrun
    cases hrun
    exact Or.inl ⟨rfl, rfl, rfl, rfl⟩
  | start item =>
    rw [hp] at hrun
    simp only [modulo] at hrun
    split at hrun
    · cases hrun
    · cases hrun
      exact Or.inl ⟨rfl, rfl, rfl, rfl⟩
  | loaded item currentTail nextTail =>
    rw [hp] at hrun
    simp only at hrun
    split at hrun
    · rename_i hfull
      cases hrun
      exact Or.inr (Or.inl ⟨item, currentTail, nextTail, rfl, hfull, rfl⟩)
    · cases hrun
      exact Or.inl ⟨rfl, rfl, rfl, rfl⟩
  | room item currentTail nextTail =>
    rw [hp] at hrun
    rcases bind_eq_ok hrun with ⟨buffer, _, hend⟩
    cases hend
    exact Or.inl ⟨rfl, rfl, rfl, rfl⟩
  | written item currentTail nextTail =>
    rw [hp] at hrun
    cases hrun
    exact Or.inr (Or.inr ⟨item, currentTail, nextTail, rfl, rfl⟩)

/-- A step of the consumer leaves items and results alone, or returns false because the queue is
empty, or releases the item it has read and returns true. -/
theorem consumerStep_cases {s s' : SpscState T} (hrun : consumerStep s = .ok s') :
    (s'.published = s.published ∧ s'.released = s.released ∧ s'.pushes = s.pushes ∧
      s'.pops = s.pops) ∨
    (∃ currentHead, s.consumer = .loaded currentHead ∧ currentHead = s.queue.tail ∧
      s' = { s with consumer := .idle, pops := s.pops ++ [none] }) ∨
    (∃ currentHead item, s.consumer = .obtained currentHead item ∧ s'.consumer = .idle ∧
      s'.published = s.published ∧ s'.released = s.released + 1 ∧ s'.pushes = s.pushes ∧
      s'.pops = s.pops ++ [some item]) := by
  unfold LruCache.consumerStep at hrun
  cases hp : s.consumer with
  | idle =>
    rw [hp] at hrun
    cases hrun
    exact Or.inl ⟨rfl, rfl, rfl, rfl⟩
  | start =>
    rw [hp] at hrun
    cases hrun
    exact Or.inl ⟨rfl, rfl, rfl, rfl⟩
  | loaded currentHead =>
    rw [hp] at hrun
    simp only at hrun
    split at hrun
    · rename_i hempty
      cases hrun
      exact Or.inr (Or.inl ⟨currentHead, rfl, hempty, rfl⟩)
    · cases hrun
      exact Or.inl ⟨rfl, rfl, rfl, rfl⟩
  | nonempty currentHead =>
    rw [hp] at hrun
    rcases bind_eq_ok hrun with ⟨item, _, hend⟩
    cases hend
    exact Or.inl ⟨rfl, rfl, rfl, rfl⟩
  | obtained currentHead item =>
    rw [hp] at hrun
    simp only [modulo] at hrun
    split at hrun
    · cases hrun
    · cases hrun
      exact Or.inr (Or.inr ⟨currentHead, item, rfl, rfl, rfl, rfl, rfl, rfl⟩)

/-- A `push` that finds `head_` right behind its slot finds `c` items that are not released. -/
theorem SpscInv.full {c : Nat} {s : SpscState T} (h : SpscInv c s) {item : T}
    {currentTail nextTail : Nat} (hp : s.producer = .loaded item currentTail nextTail)
    (hfull : nextTail = s.queue.head) : s.published.length = s.released + c := by
  have hknows := h.producer
  unfold ProducerKnows at hknows
  rw [hp] at hknows
  rw [hknows.2, h.head_eq] at hfull
  have hle := Nat.le_trans h.released_le h.obtained_le
  have hlt := h.published_le
  have := (next_slot_eq_iff (n := c + 1) hle (by omega)).mp hfull
  omega

/-- A `pop` that finds `tail_` at its slot finds no item left. -/
theorem SpscInv.empty {c : Nat} {s : SpscState T} (h : SpscInv c s) {currentHead : Nat}
    (hp : s.consumer = .loaded currentHead) (hempty : currentHead = s.queue.tail) :
    s.obtained.length = s.released ∧ s.published.length = s.released := by
  have hknows := h.consumer
  unfold ConsumerKnows at hknows
  rw [hp] at hknows
  rw [hknows.1, h.tail_eq] at hempty
  have hle := Nat.le_trans h.released_le h.obtained_le
  have hlt := h.published_le
  exact ⟨hknows.2, (eq_of_slot_eq hle (by omega) hempty).symm⟩

end Inv

end LruCache
