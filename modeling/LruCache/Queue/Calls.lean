import LruCache.Lib.LinearProbing
import LruCache.Queue.Invariant

/-!
# The queue, one call at a time

`push` and `pop` of `spsc_queue` run without interruption, on a queue of any capacity that the
constructor takes. `Ring` says which items a queue holds; under it the calls answer as those of
a bounded queue do, and no access or division fails. The constructor stores `capacity + 1` in a
`std::size_t`, and `callsSafe_iff` says that this is where the capacity matters.

Main results:

* `Ring.call` — a call answers as a bounded queue does, and keeps its ring.
* `callsSafe_iff` — sequences of calls are safe exactly if the capacity is not the largest
  `std::size_t`.

Deliberate scope limits:

* One thread makes all the calls, and none is interrupted. The interleavings of two threads are the
  subject of `LruCache.Queue.Safety`.
-/

namespace LruCache

open BoundedFifo LinearProbing Transition

/-! ## The calls -/

/-- `push`. -/
def Spsc.push {T : Type} (q : Spsc T) (item : T) : Except Fault (Bool × Spsc T) := do
  let currentTail := q.tail
  let nextTail ← modulo (wrap (currentTail + 1)) q.capacity
  if nextTail = q.head then
    return (false, q)
  let buffer ← updateAt q.buffer currentTail fun _ => item
  return (true, { q with buffer := buffer, tail := nextTail })

/-- `pop`; the result is the item, or `none` where the source returns false. -/
def Spsc.pop {T : Type} (q : Spsc T) : Except Fault (Option T × Spsc T) := do
  let currentHead := q.head
  if currentHead = q.tail then
    return (none, q)
  let item ← readAt q.buffer currentHead
  let head ← modulo (wrap (currentHead + 1)) q.capacity
  return (some item, { q with head := head })

/-- The two calls of the queue. -/
inductive QueueCall (T : Type) where
  | push (item : T)
  | pop
deriving DecidableEq, Repr

/-- What they return: whether there was room, and what was obtained. -/
inductive QueueAnswer (T : Type) where
  | pushed (done : Bool)
  | popped (item : Option T)
deriving DecidableEq, Repr

/-- One call. -/
def Spsc.call {T : Type} : QueueCall T → Spsc T → Except Fault (QueueAnswer T × Spsc T)
  | .push item, q => do
      let (done, q) ← q.push item
      return (.pushed done, q)
  | .pop, q => do
      let (item, q) ← q.pop
      return (.popped item, q)

/-- The items between `head_` and `tail_`. -/
def Spsc.contents {T : Type} (q : Spsc T) : List T :=
  (List.range (hops q.capacity q.head q.tail)).filterMap
    fun k => q.buffer[(q.head + k) % q.capacity]?

/-! ## A call is a run of its thread -/

section Threads

variable {T : Type} {s : SpscState T} {q : Spsc T}

/-- A thread that runs alone from the call to its return does what the call does. -/
theorem steps_of_push {item : T} {done : Bool} (hidle : s.producer = .idle)
    (hpush : s.queue.push item = .ok (done, q)) :
    steps (producerStep item) (if done then 5 else 3) s = .ok { s with
      queue := q
      published := if done then s.published ++ [item] else s.published
      pushes := s.pushes ++ [(item, done)] } := by
  rcases bind_eq_ok hpush with ⟨nextTail, hnext, hrest⟩
  rcases s with ⟨queue, producer, consumer, published, obtained, released, pushes, pops⟩
  cases hidle
  by_cases hfull : nextTail = queue.head
  · rw [if_pos hfull] at hrest
    cases hrest
    simp only [steps, producerStep, hnext, bind, Except.bind, pure, Except.pure, hfull, if_true,
      Bool.false_eq_true, if_false]
  · rw [if_neg hfull] at hrest
    rcases bind_eq_ok hrest with ⟨buffer, hbuffer, hq⟩
    cases hq
    simp only [steps, producerStep, hnext, hbuffer, bind, Except.bind, pure, Except.pure, hfull,
      if_true, if_false]

/-- A call of `pop` that is not interrupted is the run of the accesses of the consumer. -/
theorem steps_of_pop {item : Option T} (hidle : s.consumer = .idle)
    (hpop : s.queue.pop = .ok (item, q)) :
    steps consumerStep (if item.isSome then 5 else 3) s = .ok { s with
      queue := q
      obtained := s.obtained ++ item.toList
      released := if item.isSome then s.released + 1 else s.released
      pops := s.pops ++ [item] } := by
  rcases s with ⟨queue, producer, consumer, published, obtained, released, pushes, pops⟩
  cases hidle
  by_cases hempty : queue.head = queue.tail
  · rw [Spsc.pop, if_pos hempty] at hpop
    cases hpop
    simp [steps, consumerStep, hempty, bind, Except.bind]
  · rw [Spsc.pop, if_neg hempty] at hpop
    rcases bind_eq_ok hpop with ⟨x, hread, hrest⟩
    rcases bind_eq_ok hrest with ⟨head, hhead, hq⟩
    cases hq
    simp [steps, consumerStep, hempty, hread, hhead, bind, Except.bind, pure, Except.pure]

end Threads

/-! ## Rings -/

/-- The queue of capacity `c` holds the items `items`, oldest first. -/
structure Ring {T : Type} (c : Nat) (q : Spsc T) (items : List T) : Prop where
  slots : q.capacity = c + 1
  buffer_length : q.buffer.length = c + 1
  head_lt : q.head < c + 1
  tail_eq : q.tail = (q.head + items.length) % (c + 1)
  length_le : items.length ≤ c
  content : ∀ k < items.length, q.buffer[(q.head + k) % (c + 1)]? = items[k]?

section Ring

variable {T : Type} {c : Nat} {q : Spsc T} {items : List T}

/-- Both indices are within the buffer. -/
theorem Ring.tail_lt (h : Ring c q items) : q.tail < c + 1 := by
  rw [h.tail_eq]
  exact Nat.mod_lt _ (by omega)

/-- Reading the positions of a list in order gives the list. -/
theorem filterMap_range_getElem? (l : List T) :
    (List.range l.length).filterMap (fun k => l[k]?) = l := by
  induction l with
  | nil => rfl
  | cons x l ih =>
    rw [List.length_cons, List.range_succ_eq_map, List.filterMap_cons, List.filterMap_map]
    simpa using ih

/-- What a ring holds is what one reads from `head_` to `tail_`. -/
theorem Ring.contents_eq (h : Ring c q items) : q.contents = items := by
  have hheld : hops (c + 1) q.head q.tail = items.length := by
    rw [h.tail_eq]
    exact hops_add_mod h.head_lt (Nat.lt_succ_of_le h.length_le)
  rw [Spsc.contents, h.slots, hheld]
  have hread : ∀ k ∈ List.range items.length,
      q.buffer[(q.head + k) % (c + 1)]? = items[k]? :=
    fun k hk => h.content k (List.mem_range.mp hk)
  rw [List.filterMap_congr hread, filterMap_range_getElem?]

/-- A new queue holds nothing. -/
theorem ring_new [Inhabited T] (hpos : 0 < c) (hc : c + 1 < 2 ^ 64) :
    ∃ q : Spsc T, Spsc.new c = .ok q ∧ Ring c q [] := by
  have hwrap : wrap (c + 1) = c + 1 := Nat.mod_eq_of_lt hc
  refine ⟨_, if_neg (by omega), ?_⟩
  exact ⟨hwrap, by simp [hwrap], Nat.succ_pos c, by simp, Nat.zero_le c, by simp⟩

/-- The test of `push` finds out whether `c` items are held. -/
theorem Ring.full_iff (h : Ring c q items) :
    (q.tail + 1) % (c + 1) = q.head ↔ items.length = c := by
  have hle := h.length_le
  have hmod : q.head % (c + 1) = q.head := Nat.mod_eq_of_lt h.head_lt
  have hslot := next_slot_eq_iff (n := c + 1) (a := q.head) (b := q.head + items.length)
    (by omega) (by omega)
  rw [hmod] at hslot
  rw [h.tail_eq, Nat.mod_add_mod, hslot]
  omega

/-- The indices are equal when it holds nothing, and only then: one slot stays free. -/
theorem Ring.empty_iff (h : Ring c q items) : q.head = q.tail ↔ items = [] := by
  have hle := h.length_le
  have hmod : q.head % (c + 1) = q.head := Nat.mod_eq_of_lt h.head_lt
  rw [← List.length_eq_zero_iff, h.tail_eq]
  constructor
  · intro heq
    have := eq_of_slot_eq (n := c + 1) (a := q.head) (b := q.head + items.length) (by omega)
      (by omega) (hmod.trans heq)
    omega
  · intro hzero
    rw [hzero, Nat.add_zero, hmod]

/-- Stepping an index neither divides by zero nor wraps around. -/
theorem Ring.modulo_next (h : Ring c q items) (hc : c + 1 < 2 ^ 64) {i : Nat} (hi : i < c + 1) :
    modulo (wrap (i + 1)) q.capacity = .ok ((i + 1) % (c + 1)) := by
  have hnext := modulo_succ (k := i) hc
  rw [Nat.mod_eq_of_lt hi] at hnext
  rw [h.slots]
  exact hnext

/-- `push` returns false if there are `c` items. -/
theorem Ring.push_full (h : Ring c q items) (hc : c + 1 < 2 ^ 64) (hfull : items.length = c)
    (item : T) : q.push item = .ok (false, q) := by
  simp only [Spsc.push, h.modulo_next hc h.tail_lt, h.full_iff.mpr hfull, if_true, bind,
    Except.bind]
  rfl

/-- Else the item comes last. -/
theorem Ring.push_room (h : Ring c q items) (hc : c + 1 < 2 ^ 64) (hroom : items.length < c)
    (item : T) : ∃ q', q.push item = .ok (true, q') ∧ Ring c q' (items ++ [item]) := by
  have hslot : q.tail < q.buffer.length := by
    rw [h.buffer_length]
    exact h.tail_lt
  have hwrite := updateAt_of_get (f := fun _ => item) (List.getElem?_eq_getElem hslot)
  have hnot_full : ¬ (q.tail + 1) % (c + 1) = q.head := by
    rw [h.full_iff]
    omega
  refine ⟨{ q with buffer := q.buffer.set q.tail item, tail := (q.tail + 1) % (c + 1) }, ?_, ?_⟩
  · simp only [Spsc.push, h.modulo_next hc h.tail_lt, hnot_full, if_false, hwrite, bind,
      Except.bind]
    rfl
  · refine ⟨h.slots, ?_, h.head_lt, ?_, ?_, ?_⟩
    · rw [List.length_set]
      exact h.buffer_length
    · rw [List.length_append, List.length_singleton, h.tail_eq, Nat.mod_add_mod, Nat.add_assoc]
    · rw [List.length_append, List.length_singleton]
      omega
    · intro k hk
      rw [List.length_append, List.length_singleton] at hk
      show (q.buffer.set q.tail item)[(q.head + k) % (c + 1)]? = (items ++ [item])[k]?
      rcases Nat.lt_or_eq_of_le (Nat.le_of_lt_succ hk) with hold | rfl
      · -- the slot of an item that is held is not the one written
        rw [List.getElem?_append_left hold, List.getElem?_set_ne]
        · exact h.content k hold
        · rw [h.tail_eq]
          intro heq
          have := eq_of_slot_eq (n := c + 1) (by omega) (by omega) heq.symm
          omega
      · rw [← h.tail_eq, List.getElem?_set_self hslot, List.getElem?_concat_length]

/-- `pop` returns false if there are none. -/
theorem Ring.pop_nil (h : Ring c q []) : q.pop = .ok (none, q) := by
  rw [Spsc.pop, if_pos (h.empty_iff.mpr rfl)]
  rfl

/-- Else it obtains the first one. -/
theorem Ring.pop_cons {x : T} (h : Ring c q (x :: items)) (hc : c + 1 < 2 ^ 64) :
    ∃ q', q.pop = .ok (some x, q') ∧ Ring c q' items := by
  have hne : ¬ q.head = q.tail := by
    rw [h.empty_iff]
    exact List.cons_ne_nil x items
  have hread : q.buffer[q.head]? = some x := by
    have := h.content 0 (by simp)
    rwa [Nat.add_zero, Nat.mod_eq_of_lt h.head_lt] at this
  refine ⟨{ q with head := (q.head + 1) % (c + 1) }, ?_, ?_⟩
  · simp only [Spsc.pop, hne, if_false, readAt_of_get hread, h.modulo_next hc h.head_lt, bind,
      Except.bind]
    rfl
  · have hle := h.length_le
    rw [List.length_cons] at hle
    refine ⟨h.slots, h.buffer_length, Nat.mod_lt _ (by omega), ?_, by omega, ?_⟩
    · show q.tail = ((q.head + 1) % (c + 1) + items.length) % (c + 1)
      rw [h.tail_eq, Nat.mod_add_mod, List.length_cons, Nat.add_assoc, Nat.add_comm 1]
    · intro k hk
      show q.buffer[((q.head + 1) % (c + 1) + k) % (c + 1)]? = items[k]?
      have hcontent := h.content (k + 1) (by rw [List.length_cons]; omega)
      rw [List.getElem?_cons_succ] at hcontent
      rw [Nat.mod_add_mod, Nat.add_assoc, Nat.add_comm 1]
      exact hcontent

end Ring

/-! ## Runs of calls -/

/-- A call of a bounded queue of capacity `c`. -/
def referenceCall {T : Type} (c : Nat) : QueueCall T → List T → QueueAnswer T × List T
  | .push item, items => (.pushed (push c item items).1, (push c item items).2)
  | .pop, items => (.popped (pop items).1, (pop items).2)

section Runs

variable {T : Type} {c : Nat} {q : Spsc T} {items : List T}

/-- Each call does what the bounded queue does. -/
theorem Ring.call (h : Ring c q items) (hc : c + 1 < 2 ^ 64) (call : QueueCall T) :
    ∃ q', Spsc.call call q = .ok ((referenceCall c call items).1, q') ∧
      Ring c q' (referenceCall c call items).2 := by
  cases call with
  | push item =>
    rcases Nat.lt_or_eq_of_le h.length_le with hroom | hfull
    · rcases h.push_room hc hroom item with ⟨q', hrun, hring⟩
      simp only [referenceCall, push_of_lt hroom]
      exact ⟨q', by rw [Spsc.call, hrun]; rfl, hring⟩
    · simp only [referenceCall, push_of_full (Nat.le_of_eq hfull.symm)]
      exact ⟨q, by rw [Spsc.call, h.push_full hc hfull item]; rfl, h⟩
  | pop =>
    cases items with
    | nil => exact ⟨q, by rw [Spsc.call, h.pop_nil]; rfl, h⟩
    | cons x items =>
      rcases h.pop_cons hc with ⟨q', hrun, hring⟩
      exact ⟨q', by rw [Spsc.call, hrun]; rfl, hring⟩

/-- As long as there is room, each of many items is pushed. -/
theorem Ring.push_all (h : Ring c q items) (hc : c + 1 < 2 ^ 64) (more : List T)
    (hroom : items.length + more.length ≤ c) :
    ∃ q', run Spsc.call (more.map .push) q =
        .ok (List.replicate more.length (.pushed true), q') ∧ Ring c q' (items ++ more) := by
  induction more generalizing q items with
  | nil =>
    rw [List.append_nil]
    exact ⟨q, rfl, h⟩
  | cons item more ih =>
    rw [List.length_cons] at hroom
    rcases h.push_room hc (by omega) item with ⟨q₁, hpush, hring⟩
    have hcall : Spsc.call (.push item) q = .ok (.pushed true, q₁) := by
      rw [Spsc.call, hpush]
      rfl
    rcases ih hring (by rw [List.length_append, List.length_singleton]; omega) with
      ⟨q₂, hrun, hring₂⟩
    refine ⟨q₂, ?_, ?_⟩
    · rw [List.map_cons, run_cons_ok hcall, hrun]
      rfl
    · rw [List.append_assoc] at hring₂
      exact hring₂

end Runs

/-! ## Which capacities are safe -/

/-- `push` succeeds exactly until `c` items are held; then it changes nothing. -/
structure FillsTo {T : Type} (c : Nat) (q : Spsc T) : Prop where
  held_le : q.contents.length ≤ c
  accepts : ∀ items : List T, q.contents.length + items.length ≤ c → ∃ q',
    run Spsc.call (items.map .push) q = .ok (List.replicate items.length (.pushed true), q') ∧
    q'.contents = q.contents ++ items
  refuses : q.contents.length = c → ∀ item, q.push item = .ok (false, q)

/-- The indices of `q` are inside its buffer, and its modulus is not zero. -/
structure IndicesInRange {T : Type} (q : Spsc T) : Prop where
  modulus : q.capacity ≠ 0
  head : q.head < q.buffer.length
  tail : q.tail < q.buffer.length

/-- The constructor returns for the capacity `c`, and then every sequence of calls runs without
a fault and leaves a queue that is in order and that fills up to `c` items. -/
def CallsSafe (T : Type) [Inhabited T] (c : Nat) : Prop :=
  ∃ q₀ : Spsc T, Spsc.new c = .ok q₀ ∧ q₀.capacity ≠ 0 ∧
    ∀ calls, ∃ rs q, run Spsc.call calls q₀ = .ok (rs, q) ∧ IndicesInRange q ∧ FillsTo c q

section Safe

variable {T : Type} {c : Nat} {q : Spsc T} {items : List T}

/-- So no call accesses the buffer outside of it. -/
theorem Ring.indicesInRange (h : Ring c q items) : IndicesInRange q := by
  refine ⟨?_, ?_, ?_⟩
  · rw [h.slots]
    omega
  · rw [h.buffer_length]
    exact h.head_lt
  · rw [h.buffer_length]
    exact h.tail_lt

/-- And it takes `c` items until it is full. -/
theorem Ring.fillsTo (h : Ring c q items) (hc : c + 1 < 2 ^ 64) : FillsTo c q := by
  refine ⟨?_, ?_, ?_⟩
  · rw [h.contents_eq]
    exact h.length_le
  · intro more hroom
    rw [h.contents_eq] at hroom ⊢
    rcases h.push_all hc more hroom with ⟨q', hrun, hring⟩
    exact ⟨q', hrun, hring.contents_eq⟩
  · intro hfull item
    rw [h.contents_eq] at hfull
    exact h.push_full hc hfull item

/-- Every sequence of calls on a new queue answers as the bounded queue does. -/
theorem calls_refine_fifo [Inhabited T] (hpos : 0 < c) (hc : c + 1 < 2 ^ 64) :
    ∃ q₀ : Spsc T, Spsc.new c = .ok q₀ ∧ Ring c q₀ [] ∧ ∀ calls, ∃ q,
      run Spsc.call calls q₀ = .ok ((runTotal (referenceCall c) calls []).1, q) ∧
        Ring c q (runTotal (referenceCall c) calls []).2 := by
  rcases ring_new (T := T) hpos hc with ⟨q₀, hnew, hring⟩
  exact ⟨q₀, hnew, hring, fun calls =>
    run_simulation (R := Ring c) (fun call _ _ h => h.call hc call) calls hring⟩

/-- Below the largest capacity, all calls are safe. -/
theorem callsSafe_of_lt [Inhabited T] (hpos : 0 < c) (hc : c + 1 < 2 ^ 64) : CallsSafe T c := by
  rcases calls_refine_fifo (T := T) hpos hc with ⟨q₀, hnew, hring₀, hruns⟩
  refine ⟨q₀, hnew, hring₀.indicesInRange.modulus, ?_⟩
  intro calls
  rcases hruns calls with ⟨q, hrun, hring⟩
  exact ⟨_, q, hrun, hring.indicesInRange, hring.fillsTo hc⟩

/-- At the top of the range `capacity + 1` is 0: the queue has no slot, and `% capacity_` is a
division by zero. -/
theorem new_top [Inhabited T] (htop : c + 1 = 2 ^ 64) :
    ∃ q : Spsc T, Spsc.new c = .ok q ∧ q.capacity = 0 ∧
      ∀ item, q.push item = .error .divisionByZero := by
  have hwrap : wrap (c + 1) = 0 := by rw [wrap, htop, Nat.mod_self]
  refine ⟨_, if_neg (by omega), hwrap, ?_⟩
  intro item
  simp only [Spsc.push, modulo, hwrap, if_true, bind, Except.bind]

/-- At the largest one `capacity + 1` is 0, and the first `push` divides by it. -/
theorem not_callsSafe [Inhabited T] (htop : c + 1 = 2 ^ 64) : ¬ CallsSafe T c := by
  rintro ⟨q, hnew, hmodulus, _⟩
  rcases new_top (T := T) htop with ⟨q', hnew', hzero, _⟩
  rw [hnew] at hnew'
  cases hnew'
  exact hmodulus hzero

/-- **Safe capacities.** Of the capacities that the constructor takes, all but `2^64 - 1` give a
safe queue. -/
theorem callsSafe_iff [Inhabited T] (hpos : 0 < c) (hsize : c < 2 ^ 64) :
    CallsSafe T c ↔ c ≠ 2 ^ 64 - 1 := by
  constructor
  · rintro hsafe rfl
    exact not_callsSafe (by omega) hsafe
  · intro hne
    exact callsSafe_of_lt hpos (by omega)

/-- A small capacity, and the largest one. -/
theorem callsSafe_iff_two : CallsSafe Nat 2 ∧ ¬ CallsSafe Nat (2 ^ 64 - 1) :=
  ⟨(callsSafe_iff (by decide) (by decide)).mpr (by decide),
    fun h => (callsSafe_iff (by decide) (by decide)).mp h rfl⟩

/-- The constructor takes the largest `std::size_t`, and the first `push` divides by zero. -/
theorem callsSafe_fails :
    (∃ q : Spsc Nat, Spsc.new (2 ^ 64 - 1) = .ok q ∧ q.push 7 = .error .divisionByZero) ∧
      ¬ CallsSafe Nat (2 ^ 64 - 1) := by
  have htop : 2 ^ 64 - 1 + 1 = 2 ^ 64 := by omega
  rcases new_top (T := Nat) htop with ⟨q, hnew, _, hpush⟩
  exact ⟨⟨q, hnew, hpush 7⟩, not_callsSafe htop⟩

end Safe

end LruCache
