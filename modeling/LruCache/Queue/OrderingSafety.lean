import LruCache.Queue.Ordering

/-!
# The orderings are enough

The effect of an old value is that a call may return false although it need not; otherwise the
accesses are those of `Spsc`, and there is no race. `OrderedInv` is `SpscInv` with what each
thread has seen of the other's stores, and a mark on each slot for the item that it last held.
One lemma for each program point of either thread.

Main results:

* `OrderedInv.producer`, `OrderedInv.consumer`: an access has a result, and which;
* `orderings_suffice`: what follows in every interleaving.
-/

namespace LruCache

open BoundedFifo Transition

/-! ## The invariant -/

section Inv

variable {T : Type}

/-- A slot is marked with the number of an item that it has held. -/
def Marks (c bound : Nat) (marks : List (Option Nat)) : Prop :=
  marks.length = c + 1 ∧
    ∀ i store, marks[i]? = some (some store) → ∃ k, store = k + 1 ∧ k % (c + 1) = i ∧ k < bound

/-- `SpscInv`, and what the threads have seen. -/
structure OrderedInv (c : Nat) (s : Ordered T) : Prop where
  spsc : SpscInv c s.state
  headStores : s.headStores = (List.range (s.state.released + 1)).map (· % (c + 1))
  tailStores : s.tailStores = (List.range (s.state.published.length + 1)).map (· % (c + 1))
  headSeen : s.headSeen ≤ s.state.released
  tailSeen : s.tailSeen ≤ s.state.published.length
  ahead : s.state.published.length ≤ s.headSeen + c
  behind : s.state.released ≤ s.tailSeen
  /-- The items read are those whose slots are marked. -/
  read : Marks c s.state.obtained.length s.read
  written : Marks c (s.state.published.length + 1) s.written
  /-- Past its test, the producer has seen that there is room. -/
  room : 3 ≤ s.state.producer.point → s.state.published.length < s.headSeen + c
  /-- Past its test, the consumer has seen that there is an item. -/
  nonempty : 3 ≤ s.state.consumer.point → s.state.released < s.tailSeen

theorem Marks.set {c bound : Nat} {marks : List (Option Nat)} (h : Marks c bound marks) {k : Nat}
    {bound' : Nat} (hle : bound ≤ bound') (hk : k < bound') :
    Marks c bound' (marks.set (k % (c + 1)) (some (k + 1))) := by
  refine ⟨by rw [List.length_set]; exact h.1, ?_⟩
  intro i store hstore
  by_cases hi : k % (c + 1) = i
  · subst hi
    have hlt : k % (c + 1) < marks.length := by
      rw [h.1]
      exact Nat.mod_lt _ (Nat.succ_pos c)
    rw [List.getElem?_set_self hlt] at hstore
    cases hstore
    exact ⟨k, rfl, rfl, hk⟩
  · rw [List.getElem?_set_ne hi] at hstore
    rcases h.2 i store hstore with ⟨j, hj, hslot, hlt⟩
    exact ⟨j, hj, hslot, Nat.lt_of_lt_of_le hlt hle⟩

theorem Marks.mono {c bound bound' : Nat} {marks : List (Option Nat)} (h : Marks c bound marks)
    (hle : bound ≤ bound') : Marks c bound' marks := by
  refine ⟨h.1, fun i store hstore => ?_⟩
  rcases h.2 i store hstore with ⟨j, hj, hslot, hlt⟩
  exact ⟨j, hj, hslot, Nat.lt_of_lt_of_le hlt hle⟩

theorem stores_succ (c n : Nat) : (List.range (n + 1 + 1)).map (· % (c + 1)) =
    (List.range (n + 1)).map (· % (c + 1)) ++ [(n + 1) % (c + 1)] := by
  rw [List.range_succ, List.map_append]
  rfl

theorem readAt_stores {c n pick : Nat} (h : pick < n + 1) :
    readAt ((List.range (n + 1)).map (· % (c + 1))) pick = .ok (pick % (c + 1)) := by
  refine readAt_of_get ?_
  simp [h]

/-- Of two items in one slot the later is a whole ring ahead. -/
theorem ring_ahead {c k n : Nat} (hslot : k % (c + 1) = n % (c + 1)) (hlt : k < n) :
    k + (c + 1) ≤ n := by
  by_contra hno
  have := eq_of_slot_eq (n := c + 1) (Nat.le_of_lt hlt) (by omega) hslot
  omega

variable {c : Nat} {s : Ordered T}

theorem readable_head (h : OrderedInv c s) {pick : Nat}
    (hpick : Readable s.headStores s.headSeen pick) :
    s.headSeen ≤ pick ∧ pick ≤ s.state.released ∧
      readAt s.headStores pick = .ok (pick % (c + 1)) := by
  have hlt := hpick.2
  rw [h.headStores, List.length_map, List.length_range] at hlt
  refine ⟨hpick.1, Nat.le_of_lt_succ hlt, ?_⟩
  rw [h.headStores]
  exact readAt_stores hlt

theorem readable_tail (h : OrderedInv c s) {pick : Nat}
    (hpick : Readable s.tailStores s.tailSeen pick) :
    s.tailSeen ≤ pick ∧ pick ≤ s.state.published.length ∧
      readAt s.tailStores pick = .ok (pick % (c + 1)) := by
  have hlt := hpick.2
  rw [h.tailStores, List.length_map, List.length_range] at hlt
  refine ⟨hpick.1, Nat.le_of_lt_succ hlt, ?_⟩
  rw [h.tailStores]
  exact readAt_stores hlt

/-- A write of the next item comes after the last read of its slot. -/
theorem OrderedInv.write_ordered (h : OrderedInv c s)
    (hroom : s.state.published.length < s.headSeen + c) :
    ∃ last, readAt s.read (s.state.published.length % (c + 1) : Nat) = .ok last ∧
      orderedBy s.headSeen last = true := by
  have hlt : s.state.published.length % (c + 1) < s.read.length := by
    rw [h.read.1]
    exact Nat.mod_lt _ (Nat.succ_pos c)
  refine ⟨_, readAt_of_get (List.getElem?_eq_getElem hlt), ?_⟩
  cases hlast : s.read[s.state.published.length % (c + 1)] with
  | none => rfl
  | some store =>
    have hget := List.getElem?_eq_getElem hlt
    rw [hlast] at hget
    rcases h.read.2 _ store hget with ⟨k, rfl, hslot, hk⟩
    have hpublished := h.spsc.obtained_le
    have := ring_ahead hslot (by omega)
    exact decide_eq_true (by omega)

/-- A read of the next item comes after the write of it. -/
theorem OrderedInv.read_ordered (h : OrderedInv c s)
    (hitem : s.state.released < s.tailSeen) :
    ∃ last, readAt s.written (s.state.released % (c + 1) : Nat) = .ok last ∧
      orderedBy s.tailSeen last = true := by
  have hlt : s.state.released % (c + 1) < s.written.length := by
    rw [h.written.1]
    exact Nat.mod_lt _ (Nat.succ_pos c)
  refine ⟨_, readAt_of_get (List.getElem?_eq_getElem hlt), ?_⟩
  cases hlast : s.written[s.state.released % (c + 1)] with
  | none => rfl
  | some store =>
    have hget := List.getElem?_eq_getElem hlt
    rw [hlast] at hget
    rcases h.written.2 _ store hget with ⟨k, rfl, hslot, hk⟩
    have hpublished := h.spsc.published_le
    have hk : k ≤ s.state.released := by
      by_contra hno
      have := ring_ahead hslot.symm (by omega)
      omega
    exact decide_eq_true (by omega)

/-- A call returns false after its load. -/
inductive Fails (s : SpscState T) : SpscState T → Prop
  | push {item : T} {currentTail nextTail : Nat} :
      s.producer = .loaded item currentTail nextTail →
      Fails s { s with producer := .idle, pushes := s.pushes ++ [(item, false)] }
  | pop {currentHead : Nat} : s.consumer = .loaded currentHead →
      Fails s { s with consumer := .idle, pops := s.pops ++ [none] }

/-- The queue does not mind a call that returns false. -/
theorem SpscInv.fails {t t' : SpscState T} (h : SpscInv c t) (hs : Fails t t') : SpscInv c t' := by
  cases hs with
  | push _ =>
    refine { h with producer := trivial, consumer := h.consumer, pushes_eq := ?_ }
    simpa using h.pushes_eq
  | pop hp =>
    have hknows := h.consumer
    unfold ConsumerKnows at hknows
    rw [hp] at hknows
    refine { h with producer := h.producer, consumer := hknows.2, pops_eq := ?_ }
    show _ = (t.pops ++ [none]).filterMap id
    rw [List.filterMap_append, h.pops_eq]
    simp

theorem orFault_ok {α : Type} {x : Except Fault α} {a : α} (h : x = .ok a) :
    orFault x = .ok a := by
  rw [h]
  rfl

/-- What an access of the producer that loads the store number `pick` comes to: a step of `Spsc`,
or a `push` that returns false because `c` published items are not seen to be released. -/
def PushAccess (c : Nat) (call : T) (pick : Nat) (s : Ordered T) : Prop :=
  ∃ s', producerAccess call pick s = .ok s' ∧ OrderedInv c s' ∧
    (producerStep call s.state = .ok s'.state ∨
      Fails s.state s'.state ∧ s.state.published.length = pick + c)

/-- What an access of the consumer that loads the store number `pick` comes to: a step of `Spsc`,
or a `pop` that returns false because no published item is seen that is not released. -/
def PopAccess (c : Nat) (pick : Nat) (s : Ordered T) : Prop :=
  ∃ s', consumerAccess pick s = .ok s' ∧ OrderedInv c s' ∧
    (consumerStep s.state = .ok s'.state ∨ Fails s.state s'.state ∧ s.state.released = pick)

/-! ## The producer -/

/-- Before its load of `head_` the producer only goes on in its call. -/
theorem OrderedInv.push_begins (hc : c + 1 < 2 ^ 64) (h : OrderedInv c s) {call : T} (pick : Nat)
    (hp : s.state.producer = .idle ∨ ∃ item, s.state.producer = .start item) :
    PushAccess c call pick s := by
  rcases h.spsc.producerStep hc call with ⟨state, hrun, hinv⟩
  refine ⟨{ s with state := state }, ?_, ?_, Or.inl hrun⟩
  · rcases hp with hp | ⟨item, hp⟩ <;> simp only [producerAccess, hp, orFault_ok hrun] <;> rfl
  · have hstate := hrun
    unfold producerStep at hstate
    rcases hp with hp | ⟨item, hp⟩
    · rw [hp] at hstate
      cases hstate
      exact { h with spsc := hinv, room := fun hpoint => absurd hpoint (by simp [Producer.point]) }
    · rw [hp] at hstate
      rcases bind_eq_ok hstate with ⟨nextTail, _, hend⟩
      cases hend
      exact { h with spsc := hinv, room := fun hpoint => absurd hpoint (by simp [Producer.point]) }

/-- The load of `head_` returns a store that leaves no room. -/
theorem OrderedInv.push_fails (h : OrderedInv c s) {call item : T} {currentTail nextTail : Nat}
    {pick : Nat} (hp : s.state.producer = .loaded item currentTail nextTail)
    (hpick : Readable s.headStores s.headSeen pick) (hfull : nextTail = pick % (c + 1)) :
    PushAccess c call pick s := by
  rcases readable_head h hpick with ⟨hseen, hpick, hread⟩
  have hknows := h.spsc.producer
  unfold ProducerKnows at hknows
  rw [hp] at hknows
  have hle := h.spsc.published_le
  have hahead := h.ahead
  have hobtained := h.spsc.obtained_le
  have hreleased := h.spsc.released_le
  have hcount : s.state.published.length = pick + c := by
    rw [hknows.2] at hfull
    have := (next_slot_eq_iff (n := c + 1) (a := pick) (by omega) (by omega)).mp hfull
    omega
  have hfails : Fails s.state _ := .push hp
  unfold PushAccess producerAccess
  simp only [hp, orFault_ok hread, bind, Except.bind]
  rw [if_pos hfull]
  refine ⟨_, rfl, ?_, Or.inr ⟨hfails, hcount⟩⟩
  refine { h with spsc := h.spsc.fails hfails, headSeen := hpick, ahead := ?_, room := ?_ }
  · exact Nat.le_of_eq hcount
  · exact fun hpoint => absurd hpoint (by simp [Producer.point])

/-- The load of `head_` returns a store that leaves room: there was room at an earlier time, and
there still is. -/
theorem OrderedInv.push_passes (hc : c + 1 < 2 ^ 64) (h : OrderedInv c s) {call item : T}
    {currentTail nextTail : Nat} {pick : Nat}
    (hp : s.state.producer = .loaded item currentTail nextTail)
    (hpick : Readable s.headStores s.headSeen pick) (hroom : nextTail ≠ pick % (c + 1)) :
    PushAccess c call pick s := by
  rcases h.spsc.producerStep hc call with ⟨state, hrun, hinv⟩
  rcases readable_head h hpick with ⟨hseen, hpick, hread⟩
  have hknows := h.spsc.producer
  unfold ProducerKnows at hknows
  rw [hp] at hknows
  have hle := h.spsc.published_le
  have hahead := h.ahead
  have hobtained := h.spsc.obtained_le
  have hreleased := h.spsc.released_le
  have hless : s.state.published.length < pick + c := by
    rcases Nat.lt_or_ge s.state.published.length (pick + c) with hlt | hge
    · exact hlt
    · refine absurd ?_ hroom
      have heq : s.state.published.length = pick + c := by omega
      rw [hknows.2, heq]
      exact Nat.add_mod_right pick (c + 1)
  -- `Spsc` itself loads the newest store and finds room too
  have hstate : producerStep call s.state =
      .ok { s.state with producer := .room item currentTail nextTail } := by
    unfold producerStep
    rw [hp]
    simp only
    rw [if_neg]
    rw [hknows.2, h.spsc.head_eq]
    intro heq
    have := (next_slot_eq_iff (n := c + 1) (by omega) (by omega)).mp heq
    omega
  rw [hrun] at hstate
  cases hstate
  unfold PushAccess producerAccess
  simp only [hp, orFault_ok hread, bind, Except.bind]
  rw [if_neg hroom]
  refine ⟨_, rfl, ?_, Or.inl hrun⟩
  exact { h with
    spsc := hinv, headSeen := hpick, ahead := Nat.le_of_lt hless, room := fun _ => hless }

/-- The write to the buffer comes after the last read of its slot. -/
theorem OrderedInv.push_writes (hc : c + 1 < 2 ^ 64) (h : OrderedInv c s) {call item : T}
    {currentTail nextTail : Nat} (pick : Nat)
    (hp : s.state.producer = .room item currentTail nextTail) : PushAccess c call pick s := by
  rcases h.spsc.producerStep hc call with ⟨state, hrun, hinv⟩
  have hknows := h.spsc.producer
  unfold ProducerKnows at hknows
  rw [hp] at hknows
  have hroom := h.room (by rw [hp]; exact Nat.le_refl 3)
  have hstate := hrun
  unfold producerStep at hstate
  rw [hp] at hstate
  rcases bind_eq_ok hstate with ⟨buffer, _, hend⟩
  cases hend
  rcases h.write_ordered hroom with ⟨last, hlast, hordered⟩
  have htail := hknows.1
  rw [← htail] at hlast
  unfold PushAccess producerAccess
  simp only [hp, orFault_ok hlast, orFault_ok hrun, hordered, if_true, bind, Except.bind]
  refine ⟨_, rfl, ?_, Or.inl hrun⟩
  refine { h with spsc := hinv, written := ?_, room := fun _ => hroom }
  show Marks c _ (s.written.set currentTail (some s.tailStores.length))
  rw [htail, h.tailStores, List.length_map, List.length_range]
  exact h.written.set (Nat.le_refl _) (Nat.lt_succ_self _)

/-- The store to `tail_` is one more that the consumer may read. -/
theorem OrderedInv.push_stores (hc : c + 1 < 2 ^ 64) (h : OrderedInv c s) {call item : T}
    {currentTail nextTail : Nat} (pick : Nat)
    (hp : s.state.producer = .written item currentTail nextTail) : PushAccess c call pick s := by
  rcases h.spsc.producerStep hc call with ⟨state, hrun, hinv⟩
  have hknows := h.spsc.producer
  unfold ProducerKnows at hknows
  rw [hp] at hknows
  have hroom := h.room (by rw [hp]; exact Nat.le_succ 3)
  have hstate := hrun
  unfold producerStep at hstate
  rw [hp] at hstate
  cases hstate
  have hlen : (s.state.published ++ [item]).length = s.state.published.length + 1 := by simp
  unfold PushAccess producerAccess
  simp only [hp, orFault_ok hrun, bind, Except.bind]
  refine ⟨_, rfl, ?_, Or.inl hrun⟩
  refine { h with
    spsc := hinv, tailStores := ?_, tailSeen := ?_, ahead := ?_, written := ?_, room := ?_ }
  · show s.tailStores ++ [nextTail] = _
    rw [hlen, stores_succ, ← h.tailStores, hknows.2.1]
  · rw [hlen]
    exact Nat.le_succ_of_le h.tailSeen
  · rw [hlen]
    exact hroom
  · refine h.written.mono ?_
    rw [hlen]
    exact Nat.le_succ _
  · exact fun hpoint => absurd hpoint (by simp [Producer.point])

/-- An access of the producer has a result. -/
theorem OrderedInv.producer (hc : c + 1 < 2 ^ 64) (h : OrderedInv c s) (call : T) {pick : Nat}
    (hpick : Readable s.headStores s.headSeen pick) : PushAccess c call pick s := by
  cases hp : s.state.producer with
  | idle => exact h.push_begins hc pick (Or.inl hp)
  | start item => exact h.push_begins hc pick (Or.inr ⟨item, hp⟩)
  | loaded item currentTail nextTail =>
    by_cases hfull : nextTail = pick % (c + 1)
    · exact h.push_fails hp hpick hfull
    · exact h.push_passes hc hp hpick hfull
  | room item currentTail nextTail => exact h.push_writes hc pick hp
  | written item currentTail nextTail => exact h.push_stores hc pick hp

/-! ## The consumer -/

/-- Before its load of `tail_` the consumer only goes on in its call. -/
theorem OrderedInv.pop_begins (hc : c + 1 < 2 ^ 64) (h : OrderedInv c s) (pick : Nat)
    (hp : s.state.consumer = .idle ∨ s.state.consumer = .start) : PopAccess c pick s := by
  rcases h.spsc.consumerStep hc with ⟨state, hrun, hinv⟩
  refine ⟨{ s with state := state }, ?_, ?_, Or.inl hrun⟩
  · rcases hp with hp | hp <;> simp only [consumerAccess, hp, orFault_ok hrun] <;> rfl
  · have hstate := hrun
    unfold consumerStep at hstate
    rcases hp with hp | hp
    all_goals
      rw [hp] at hstate
      cases hstate
      exact { h with
        spsc := hinv, nonempty := fun hpoint => absurd hpoint (by simp [Consumer.point]) }

/-- The load of `tail_` returns a store that leaves no item. -/
theorem OrderedInv.pop_fails (h : OrderedInv c s) {currentHead pick : Nat}
    (hp : s.state.consumer = .loaded currentHead)
    (hpick : Readable s.tailStores s.tailSeen pick) (hempty : currentHead = pick % (c + 1)) :
    PopAccess c pick s := by
  rcases readable_tail h hpick with ⟨hseen, hpick, hread⟩
  have hknows := h.spsc.consumer
  unfold ConsumerKnows at hknows
  rw [hp] at hknows
  have hle := h.spsc.published_le
  have hbehind := h.behind
  have hcount : s.state.released = pick := by
    rw [hknows.1] at hempty
    exact eq_of_slot_eq (n := c + 1) (by omega) (by omega) hempty
  have hfails : Fails s.state _ := .pop hp
  unfold PopAccess consumerAccess
  simp only [hp, orFault_ok hread, bind, Except.bind]
  rw [if_pos hempty]
  refine ⟨_, rfl, ?_, Or.inr ⟨hfails, hcount⟩⟩
  refine { h with spsc := h.spsc.fails hfails, tailSeen := hpick, behind := ?_, nonempty := ?_ }
  · exact Nat.le_of_eq hcount
  · exact fun hpoint => absurd hpoint (by simp [Consumer.point])

/-- The load of `tail_` returns a store that leaves an item: there was one at an earlier time, and
there still is. -/
theorem OrderedInv.pop_passes (hc : c + 1 < 2 ^ 64) (h : OrderedInv c s) {currentHead pick : Nat}
    (hp : s.state.consumer = .loaded currentHead)
    (hpick : Readable s.tailStores s.tailSeen pick) (hnonempty : currentHead ≠ pick % (c + 1)) :
    PopAccess c pick s := by
  rcases h.spsc.consumerStep hc with ⟨state, hrun, hinv⟩
  rcases readable_tail h hpick with ⟨hseen, hpick, hread⟩
  have hknows := h.spsc.consumer
  unfold ConsumerKnows at hknows
  rw [hp] at hknows
  have hle := h.spsc.published_le
  have hbehind := h.behind
  have hitem : s.state.released < pick := by
    rcases Nat.lt_or_ge s.state.released pick with hlt | hge
    · exact hlt
    · refine absurd ?_ hnonempty
      have heq : s.state.released = pick := by omega
      rw [hknows.1, heq]
  -- `Spsc` itself loads the newest store and finds an item too
  have hstate : consumerStep s.state =
      .ok { s.state with consumer := .nonempty currentHead } := by
    unfold consumerStep
    rw [hp]
    simp only
    rw [if_neg]
    rw [hknows.1, h.spsc.tail_eq]
    intro heq
    have := eq_of_slot_eq (n := c + 1) (by omega) (by omega) heq
    omega
  rw [hrun] at hstate
  cases hstate
  unfold PopAccess consumerAccess
  simp only [hp, orFault_ok hread, bind, Except.bind]
  rw [if_neg hnonempty]
  refine ⟨_, rfl, ?_, Or.inl hrun⟩
  exact { h with
    spsc := hinv, tailSeen := hpick, behind := Nat.le_of_lt hitem, nonempty := fun _ => hitem }

/-- The read of the buffer comes after the write of its item. -/
theorem OrderedInv.pop_reads (hc : c + 1 < 2 ^ 64) (h : OrderedInv c s) {currentHead : Nat}
    (pick : Nat) (hp : s.state.consumer = .nonempty currentHead) : PopAccess c pick s := by
  rcases h.spsc.consumerStep hc with ⟨state, hrun, hinv⟩
  have hknows := h.spsc.consumer
  unfold ConsumerKnows at hknows
  rw [hp] at hknows
  have hitem := h.nonempty (by rw [hp]; exact Nat.le_refl 3)
  have hstate := hrun
  unfold consumerStep at hstate
  rw [hp] at hstate
  rcases bind_eq_ok hstate with ⟨item, _, hend⟩
  cases hend
  rcases h.read_ordered hitem with ⟨last, hlast, hordered⟩
  have hhead := hknows.1
  rw [← hhead] at hlast
  unfold PopAccess consumerAccess
  simp only [hp, orFault_ok hlast, orFault_ok hrun, hordered, if_true, bind, Except.bind]
  refine ⟨_, rfl, ?_, Or.inl hrun⟩
  refine { h with spsc := hinv, read := ?_, nonempty := fun _ => hitem }
  show Marks c (s.state.obtained ++ [item]).length
    (s.read.set currentHead (some s.headStores.length))
  rw [hhead, h.headStores, List.length_map, List.length_range, List.length_append,
    List.length_singleton]
  exact h.read.set (Nat.le_succ _) (by rw [hknows.2.1]; exact Nat.lt_succ_self _)

/-- The store to `head_` is one more that the producer may read. -/
theorem OrderedInv.pop_stores (hc : c + 1 < 2 ^ 64) (h : OrderedInv c s) {currentHead : Nat}
    {item : T} (pick : Nat) (hp : s.state.consumer = .obtained currentHead item) :
    PopAccess c pick s := by
  rcases h.spsc.consumerStep hc with ⟨state, hrun, hinv⟩
  have hknows := h.spsc.consumer
  unfold ConsumerKnows at hknows
  rw [hp] at hknows
  have hitem := h.nonempty (by rw [hp]; exact Nat.le_succ 3)
  have hstate := hrun
  unfold consumerStep at hstate
  rw [hp] at hstate
  rcases bind_eq_ok hstate with ⟨head, hhead, hend⟩
  rw [h.spsc.slots, hknows.1, modulo_succ hc] at hhead
  cases hhead
  cases hend
  unfold PopAccess consumerAccess
  simp only [hp, orFault_ok hrun, bind, Except.bind]
  refine ⟨_, rfl, ?_, Or.inl hrun⟩
  refine { h with
    spsc := hinv, headStores := ?_, headSeen := Nat.le_succ_of_le h.headSeen, behind := hitem
    nonempty := fun hpoint => absurd hpoint (by simp [Consumer.point]) }
  show s.headStores ++ [(s.state.released + 1) % (c + 1)] = _
  rw [stores_succ, ← h.headStores]

/-- An access of the consumer has a result. -/
theorem OrderedInv.consumer (hc : c + 1 < 2 ^ 64) (h : OrderedInv c s) {pick : Nat}
    (hpick : Readable s.tailStores s.tailSeen pick) : PopAccess c pick s := by
  cases hp : s.state.consumer with
  | idle => exact h.pop_begins hc pick (Or.inl hp)
  | start => exact h.pop_begins hc pick (Or.inr hp)
  | loaded currentHead =>
    by_cases hempty : currentHead = pick % (c + 1)
    · exact h.pop_fails hp hpick hempty
    · exact h.pop_passes hc hp hpick hempty
  | nonempty currentHead => exact h.pop_reads hc pick hp
  | obtained currentHead item => exact h.pop_stores hc pick hp

/-! ## Both threads -/

theorem OrderedInv.step {s' : Ordered T} (hc : c + 1 < 2 ^ 64) (hs : OrderedStep s s')
    (h : OrderedInv c s) : OrderedInv c s' := by
  rcases hs with ⟨call, pick, hpick, hrun⟩ | ⟨pick, hpick, hrun⟩
  · rcases h.producer hc call hpick with ⟨s₁, hrun₁, h₁, _⟩
    rw [hrun] at hrun₁
    cases hrun₁
    exact h₁
  · rcases h.consumer hc hpick with ⟨s₁, hrun₁, h₁, _⟩
    rw [hrun] at hrun₁
    cases hrun₁
    exact h₁

theorem marks_none {c : Nat} {buffer : List T} (hlen : buffer.length = c + 1) (bound : Nat) :
    Marks c bound (buffer.map fun _ => (none : Option Nat)) := by
  refine ⟨by rw [List.length_map, hlen], ?_⟩
  intro i store hstore
  rw [List.getElem?_map] at hstore
  cases hget : buffer[i]? with
  | none =>
    rw [hget] at hstore
    cases hstore
  | some x =>
    rw [hget] at hstore
    cases hstore

theorem OrderedInv.start [Inhabited T] (hc : c + 1 < 2 ^ 64) (hs : OrderedStart c s) :
    OrderedInv c s := by
  rcases hs with ⟨hstart, hhead, htail, hheadSeen, htailSeen, hwritten, hread⟩
  have hspsc := SpscInv.start hc hstart
  rcases hstart with ⟨queue, _, hstate⟩
  have hempty : s.state.published = [] ∧ s.state.obtained = [] ∧ s.state.released = 0 ∧
      s.state.producer = .idle ∧ s.state.consumer = .idle := by
    rw [hstate]
    exact ⟨rfl, rfl, rfl, rfl, rfl⟩
  rcases hempty with ⟨hpublished, hobtained, hreleased, hproducer, hconsumer⟩
  refine ⟨hspsc, ?_, ?_, ?_, ?_, ?_, ?_, ?_, ?_, ?_, ?_⟩
  · rw [hhead, hreleased]
    simp
  · rw [htail, hpublished]
    simp
  · rw [hheadSeen]
    exact Nat.zero_le _
  · rw [htailSeen]
    exact Nat.zero_le _
  · rw [hpublished]
    exact Nat.zero_le _
  · rw [hreleased]
    exact Nat.zero_le _
  · rw [hread]
    exact marks_none hspsc.buffer_length _
  · rw [hwritten]
    exact marks_none hspsc.buffer_length _
  · rw [hproducer]
    exact fun hpoint => absurd hpoint (by simp [Producer.point])
  · rw [hconsumer]
    exact fun hpoint => absurd hpoint (by simp [Consumer.point])

end Inv

/-! ## Every interleaving -/

/-- **The orderings are enough.** Whatever stores the loads of `head_` and `tail_` return within
what acquire and release promise, and however the steps interleave: no two accesses of a slot
race, no access is out of bounds, and every step is one of `Spsc` or returns false. The items
obtained are the first of those pushed with the result true. A `push` returns false only if `c`
published items are not released as far as it can see, a `pop` only if as far as it can see
nothing is published that it has not released. -/
theorem orderings_suffice {T : Type} [Inhabited T] {c : Nat} (hc : c + 1 < 2 ^ 64) {s : Ordered T}
    (hs : Reachable (OrderedStart c) OrderedStep s) :
    s.state.obtained <+: s.state.published ∧
      s.state.published = (s.state.pushes.filter Prod.snd).map Prod.fst ∧
      s.state.obtained.take s.state.released = s.state.pops.filterMap id ∧
      (∀ call pick, Readable s.headStores s.headSeen pick →
        ∃ s', producerAccess call pick s = .ok s' ∧
          (producerStep call s.state = .ok s'.state ∨
            Fails s.state s'.state ∧ s.state.published.length = pick + c)) ∧
      ∀ pick, Readable s.tailStores s.tailSeen pick →
        ∃ s', consumerAccess pick s = .ok s' ∧
          (consumerStep s.state = .ok s'.state ∨
            Fails s.state s'.state ∧ s.state.released = pick) := by
  have h : OrderedInv c s := Reachable.invariant (I := OrderedInv c)
    (fun _ => OrderedInv.start hc) (fun _ _ hstep h => h.step hc hstep) hs
  refine ⟨h.spsc.obtained_prefix, h.spsc.pushes_eq, h.spsc.pops_eq, ?_, ?_⟩
  · intro call pick hpick
    rcases h.producer hc call hpick with ⟨s', hrun, _, hmove⟩
    exact ⟨s', hrun, hmove⟩
  · intro pick hpick
    rcases h.consumer hc hpick with ⟨s', hrun, _, hmove⟩
    exact ⟨s', hrun, hmove⟩

/-- An item is published, and still a `pop` returns false, since its load returns the store that
the constructor made. -/
theorem orderings_suffice_one :
    ∃ s : Ordered Nat, Reachable (OrderedStart 1) OrderedStep s ∧
      s.state.pushes = [(7, true)] ∧ s.state.pops = [none] ∧
      s.state.obtained <+: s.state.published := by
  let queue : Spsc Nat := { buffer := [0, 0], capacity := 2, head := 0, tail := 0 }
  let start : Ordered Nat :=
    { state := { queue := queue, producer := .idle, consumer := .idle, published := []
                 obtained := [], released := 0, pushes := [], pops := [] }
      headStores := [0], tailStores := [0], headSeen := 0, tailSeen := 0
      written := [none, none], read := [none, none] }
  have hpush : ∀ {s s' : Ordered Nat}, Reachable (OrderedStart 1) OrderedStep s →
      Readable s.headStores s.headSeen 0 → producerAccess 7 0 s = .ok s' →
      Reachable (OrderedStart 1) OrderedStep s' :=
    fun hs hpick hrun => hs.tail (Or.inl ⟨7, 0, hpick, hrun⟩)
  have hpop : ∀ {s s' : Ordered Nat}, Reachable (OrderedStart 1) OrderedStep s →
      Readable s.tailStores s.tailSeen 0 → consumerAccess 0 s = .ok s' →
      Reachable (OrderedStart 1) OrderedStep s' :=
    fun hs hpick hrun => hs.tail (Or.inr ⟨0, hpick, hrun⟩)
  have h₀ : Reachable (OrderedStart 1) OrderedStep start :=
    .start ⟨⟨queue, rfl, rfl⟩, rfl, rfl, rfl, rfl, rfl, rfl⟩
  have h₁ := hpush h₀ ⟨by decide, by decide⟩ rfl
  have h₂ := hpush h₁ ⟨by decide, by decide⟩ rfl
  have h₃ := hpush h₂ ⟨by decide, by decide⟩ rfl
  have h₄ := hpush h₃ ⟨by decide, by decide⟩ rfl
  have h₅ := hpush h₄ ⟨by decide, by decide⟩ rfl
  have h₆ := hpop h₅ ⟨by decide, by decide⟩ rfl
  have h₇ := hpop h₆ ⟨by decide, by decide⟩ rfl
  have h₈ := hpop h₇ ⟨by decide, by decide⟩ rfl
  exact ⟨_, h₈, rfl, rfl, (orderings_suffice (by decide) h₈).1⟩

/-- A slot that the consumer has read after the last store that the producer has seen. -/
example (s : Ordered Nat) : producerAccess 8 0 { s with
    state := { s.state with producer := .room 8 0 1 }, headSeen := 0, read := [some 1] } =
      .error .race :=
  rfl

end LruCache
