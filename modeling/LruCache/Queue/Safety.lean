import LruCache.Queue.Invariant

/-!
# Every interleaving is safe

What the invariant says in the terms of the two threads: nothing is lost, repeated or reordered,
the two never touch the same slot, and a call returns false only for a reason. The queue is a
bounded FIFO queue whose calls happen at one access each.

Main results:

* `spsc_safe`: `SpscSafe` in every state of every interleaving;
* `spsc_refines_fifo`: every access is invisible or one call of a bounded FIFO queue, and the log
  of every reachable state is one of that queue.

The accesses are sequentially consistent, and the capacity is at most `2^64 - 2`: with
`2^64 - 1` the queue has no slot (`callsSafe_iff`).
-/

namespace LruCache

open Transition BoundedFifo

/-! ## Safety of every interleaving -/

/-- What holds at every point of every interleaving on a queue of capacity `c`. -/
structure SpscSafe {T : Type} (c : Nat) (s : SpscState T) : Prop where
  /-- The next step of either thread stays in bounds. -/
  no_fault : (∀ call, ∃ s', producerStep call s = .ok s') ∧ ∃ s', consumerStep s = .ok s'
  obtained_prefix : s.obtained <+: s.published
  published_eq : s.published = (s.pushes.filter Prod.snd).map Prod.fst
  /-- Between `0` and `c` published items are unconsumed, each in its slot. -/
  unconsumed : s.obtained.length ≤ s.published.length ∧
    s.published.length - s.obtained.length ≤ c
  content : ∀ k, s.obtained.length ≤ k → k < s.published.length →
    s.queue.buffer[k % (c + 1)]? = s.published[k]?
  /-- The slot about to be written is none of these, and not the one about to be read. -/
  write_free : ∀ item currentTail nextTail, s.producer = .room item currentTail nextTail →
    (∀ k, s.obtained.length ≤ k → k < s.published.length → currentTail ≠ k % (c + 1)) ∧
      ∀ currentHead, s.consumer = .nonempty currentHead → currentTail ≠ currentHead
  /-- `push` returns false only if `c` items were published and not released when it loaded
  `head_`. -/
  push_false : ∀ call s' item, producerStep call s = .ok s' →
    s'.pushes = s.pushes ++ [(item, false)] → s.published.length - s.released = c
  /-- `pop` returns false only if no published item was unconsumed when it loaded `tail_`. -/
  pop_false : ∀ s', consumerStep s = .ok s' → s'.pops = s.pops ++ [none] →
    s.published.length - s.obtained.length = 0

theorem SpscInv.safe {T : Type} {c : Nat} {s : SpscState T} (hc : c + 1 < 2 ^ 64)
    (h : SpscInv c s) : SpscSafe c s := by
  refine
    { no_fault := ⟨?_, ?_⟩
      obtained_prefix := h.obtained_prefix
      published_eq := h.pushes_eq
      unconsumed := ⟨h.obtained_le, ?_⟩
      content := fun k hk => h.content k (Nat.le_trans h.released_le hk)
      write_free := ?_
      push_false := ?_
      pop_false := ?_ }
  · intro call
    rcases h.producerStep hc call with ⟨s', hrun, _⟩
    exact ⟨s', hrun⟩
  · rcases h.consumerStep hc with ⟨s', hrun, _⟩
    exact ⟨s', hrun⟩
  · have h₁ := h.published_le
    have h₂ := h.released_le
    omega
  -- the slot of the next item: at most `c - 1` items before it are not released
  · intro item currentTail nextTail hp
    have hknows := h.producer
    unfold ProducerKnows at hknows
    rw [hp] at hknows
    rcases hknows with ⟨htail, _, hroom⟩
    rw [htail]
    constructor
    · intro k hk
      exact slot_ne hroom (Nat.le_trans h.released_le hk)
    · intro currentHead hcons
      have hknows := h.consumer
      unfold ConsumerKnows at hknows
      rw [hcons] at hknows
      rw [hknows.1]
      exact slot_ne hroom (Nat.le_refl _) hknows.2.2
  · intro call s' item hrun hpush
    rcases producerStep_cases hrun with
      ⟨_, _, heq, _⟩ | ⟨x, t, t', hp, hfull, _⟩ | ⟨x, t, t', _, rfl⟩
    · rw [heq] at hpush
      simp at hpush
    · rw [h.full hp hfull, Nat.add_sub_cancel_left]
    · simp at hpush
  · intro s' hrun hpop
    rcases consumerStep_cases hrun with
      ⟨_, _, _, heq⟩ | ⟨x, hp, hempty, _⟩ | ⟨x, item, _, _, _, _, _, heq⟩
    · rw [heq] at hpop
      simp at hpop
    · have hboth := h.empty hp hempty
      rw [hboth.1, hboth.2, Nat.sub_self]
    · rw [heq] at hpop
      simp at hpop

/-- **Single producer, single consumer.** On a queue of any capacity whose slots can be counted by
a `std::size_t`, every interleaving of the two threads is safe. -/
theorem spsc_safe {T : Type} [Inhabited T] {c : Nat} (hpos : 0 < c) (hc : c + 1 < 2 ^ 64) :
    (∃ s : SpscState T, SpscStart c s) ∧
      ∀ s : SpscState T, Reachable (SpscStart c) SpscStep s → SpscSafe c s := by
  constructor
  · have hnew : Spsc.new (T := T) c = .ok _ := if_neg (by omega)
    exact ⟨_, _, hnew, rfl⟩
  · intro s hs
    exact (SpscInv.reachable hc hs).safe hc

/-- Three items through the two slots of a queue of capacity 1, so that both indices wrap around;
the second is refused at first, and at the end there is nothing to pop. -/
theorem spsc_safe_one :
    ∃ s : SpscState Nat, Reachable (SpscStart 1) SpscStep s ∧ s.obtained = [7, 8, 9] ∧
      s.pushes = [(7, true), (8, false), (8, true), (9, true)] ∧
      s.pops = [some 7, some 8, some 9, none] ∧ s.queue.tail = 1 ∧ SpscSafe 1 s := by
  have hsafe := (spsc_safe (T := Nat) (c := 1) (by decide) (by decide)).2
  let queue : Spsc Nat := { buffer := [0, 0], capacity := 2, head := 0, tail := 0 }
  have hnew : Spsc.new 1 = .ok queue := rfl
  -- a call that succeeds makes five steps, one that returns false three
  let pop : List (Option Nat) := List.replicate 5 none
  let schedule : List (Option Nat) :=
    List.replicate 5 (some 7) ++ List.replicate 3 (some 8) ++ pop ++
      List.replicate 5 (some 8) ++ pop ++ List.replicate 5 (some 9) ++ pop ++
      List.replicate 3 none
  let final : SpscState Nat :=
    { queue := { buffer := [9, 8], capacity := 2, head := 1, tail := 1 }, producer := .idle
      consumer := .idle, published := [7, 8, 9], obtained := [7, 8, 9], released := 3
      pushes := [(7, true), (8, false), (8, true), (9, true)]
      pops := [some 7, some 8, some 9, none] }
  have h₀ : Reachable (SpscStart 1) SpscStep (.fresh queue) := .start ⟨queue, hnew, rfl⟩
  have hs : Reachable (SpscStart 1) SpscStep final :=
    h₀.play spscMove_step schedule (by decide +kernel)
  exact ⟨final, hs, rfl, rfl, rfl, rfl, hsafe final hs⟩

/-! ## The bounded queue that it implements -/

/-- The published items that are not released, with the results of the calls. -/
def SpscState.log {T : Type} (s : SpscState T) : Log T :=
  { content := s.published.drop s.released, pushes := s.pushes, pops := s.pops }

/-- The item of the call that the producer is in. -/
def Producer.item? {T : Type} : Producer T → Option T
  | .idle => none
  | .start item => some item
  | .loaded item _ _ => some item
  | .room item _ _ => some item
  | .written item _ _ => some item

section Refines

variable {T : Type} {c : Nat} {s s' : SpscState T}

/-- A `push` takes effect when it returns: when it has stored `tail_`, or found the queue full. -/
theorem SpscInv.producer_refines (h : SpscInv c s) {call : T}
    (hrun : LruCache.producerStep call s = .ok s') :
    s'.log = s.log ∨ s'.producer = .idle ∧
      ∃ item, s.producer.item? = some item ∧ s'.log = s.log.push c item := by
  have hle := Nat.le_trans h.released_le h.obtained_le
  rcases producerStep_cases hrun with
    ⟨h₁, h₂, h₃, h₄⟩ | ⟨item, t, t', hp, hfull, rfl⟩ | ⟨item, t, t', hp, rfl⟩
  · left
    simp only [SpscState.log, h₁, h₂, h₃, h₄]
  · right
    refine ⟨rfl, item, by rw [hp]; rfl, ?_⟩
    rw [Log.push_of_full]
    · rfl
    · simp only [SpscState.log, List.length_drop, h.full hp hfull]
      omega
  · right
    have hknows := h.producer
    unfold ProducerKnows at hknows
    rw [hp] at hknows
    refine ⟨rfl, item, by rw [hp]; rfl, ?_⟩
    rw [Log.push_of_lt]
    · simp only [SpscState.log, List.drop_append_of_le_length hle]
    · simp only [SpscState.log, List.length_drop]
      omega

/-- A `pop` takes effect when it returns: when it has stored `head_`, or found the queue empty. -/
theorem SpscInv.consumer_refines (h : SpscInv c s) (hrun : LruCache.consumerStep s = .ok s') :
    s'.log = s.log ∨ s'.consumer = .idle ∧ s.consumer ≠ .idle ∧ s'.log = s.log.pop := by
  rcases consumerStep_cases hrun with
    ⟨h₁, h₂, h₃, h₄⟩ | ⟨ch, hp, hempty, rfl⟩ | ⟨ch, item, hp, hidle, h₁, h₂, h₃, h₄⟩
  · left
    simp only [SpscState.log, h₁, h₂, h₃, h₄]
  · right
    refine ⟨rfl, by rw [hp]; exact nofun, ?_⟩
    rw [Log.pop_of_nil]
    · rfl
    · simp only [SpscState.log, List.drop_eq_nil_iff, (h.empty hp hempty).2, Nat.le_refl]
  · right
    have hknows := h.consumer
    unfold ConsumerKnows at hknows
    rw [hp] at hknows
    rcases List.getElem?_eq_some_iff.mp hknows.2.2 with ⟨hlt, hitem⟩
    refine ⟨hidle, by rw [hp]; exact nofun, ?_⟩
    have hcons : s.log.content = item :: s.published.drop (s.released + 1) := by
      simp only [SpscState.log]
      rw [List.drop_eq_getElem_cons hlt, hitem]
    rw [Log.pop_of_cons hcons]
    simp only [SpscState.log, h₁, h₂, h₃, h₄]

/-- Every access is invisible or one call of a bounded queue. -/
theorem SpscInv.step_refines (h : SpscInv c s) (hs : SpscStep s s') :
    s'.log = s.log ∨ BoundedFifo.Step c s.log s'.log := by
  rcases hs with ⟨call, hrun⟩ | hrun
  · rcases h.producer_refines hrun with hsame | ⟨_, item, _, hpush⟩
    · exact Or.inl hsame
    · rw [hpush]
      exact Or.inr (.push s.log item)
  · rcases h.consumer_refines hrun with hsame | ⟨_, _, hpop⟩
    · exact Or.inl hsame
    · rw [hpop]
      exact Or.inr (.pop s.log)

end Refines

/-- **Refinement.** The results that the two threads see are those of a bounded FIFO queue whose
calls happen one after the other. Access by access: an access of a thread is invisible, or with
it the thread returns from its call and the whole call happens on the bounded queue. -/
theorem spsc_refines_fifo {T : Type} [Inhabited T] {c : Nat} (hc : c + 1 < 2 ^ 64)
    {s : SpscState T} (hs : Reachable (SpscStart c) SpscStep s) :
    Reachable Log.Start (BoundedFifo.Step c) s.log ∧
      (∀ call s', producerStep call s = .ok s' → s'.log = s.log ∨ s'.producer = .idle ∧
        ∃ item, s.producer.item? = some item ∧ s'.log = s.log.push c item) ∧
      ∀ s', consumerStep s = .ok s' →
        s'.log = s.log ∨ s'.consumer = .idle ∧ s.consumer ≠ .idle ∧ s'.log = s.log.pop := by
  have h := SpscInv.reachable hc hs
  refine ⟨?_, fun call s' hrun => h.producer_refines hrun, fun s' hrun => h.consumer_refines hrun⟩
  refine Reachable.refines ?_ ?_ hs
  · rintro s₀ ⟨queue, _, rfl⟩
    rfl
  · intro s₁ s₂ hreach hstep
    exact (SpscInv.reachable hc hreach).step_refines hstep

/-- The item 7 is in the queue as soon as its `push` has stored `tail_`; a `pop` that has read it
out of the buffer has not taken it out yet, and does so with its next access. -/
theorem spsc_refines_fifo_one : ∃ s s' : SpscState Nat, Reachable (SpscStart 1) SpscStep s ∧
    s.obtained = [7] ∧ s.log.content = [7] ∧ consumerStep s = .ok s' ∧ s'.log = s.log.pop ∧
    Reachable Log.Start (BoundedFifo.Step 1) s.log := by
  let queue : Spsc Nat := { buffer := [0, 0], capacity := 2, head := 0, tail := 0 }
  have hnew : Spsc.new 1 = .ok queue := rfl
  let schedule : List (Option Nat) := List.replicate 5 (some 7) ++ List.replicate 4 none
  let reading : SpscState Nat :=
    { queue := { buffer := [7, 0], capacity := 2, head := 0, tail := 1 }, producer := .idle
      consumer := .obtained 0 7, published := [7], obtained := [7], released := 0
      pushes := [(7, true)], pops := [] }
  have h₀ : Reachable (SpscStart 1) SpscStep (.fresh queue) := .start ⟨queue, hnew, rfl⟩
  have hs : Reachable (SpscStart 1) SpscStep reading :=
    h₀.play spscMove_step schedule (by decide +kernel)
  exact ⟨reading, _, hs, rfl, rfl, rfl, rfl, (spsc_refines_fifo (by decide) hs).1⟩

end LruCache
