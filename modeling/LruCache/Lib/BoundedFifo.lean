import Mathlib.Data.List.Basic

/-!
# Bounded queues and rings

A bounded FIFO queue as a list, the transition system of its calls with their results, and the
arithmetic of a ring of `n` slots in which counters that only grow are kept modulo `n`.

Main results:

* `Log.push_of_lt`, `Log.push_of_full`, `Log.pop_of_nil`, `Log.pop_of_cons`: what a call does;
* `eq_of_slot_eq`, `next_slot_eq_iff`: what a thread learns from comparing two slots.

Deliberate scope limits:

* Calls are atomic here. When a call of an implementation takes effect is for its refinement to say
  (`LruCache.Queue.Safety`).
-/

namespace BoundedFifo

variable {α : Type*}

/-! ## The queue -/

/-- `push` appends unless the queue is full, and says whether it did. -/
def push (cap : ℕ) (x : α) (q : List α) : Bool × List α :=
  if q.length < cap then (true, q ++ [x]) else (false, q)

/-- `pop` takes the first item, if there is one. -/
def pop : List α → Option α × List α
  | [] => (none, [])
  | x :: q => (some x, q)

section Queue

variable {cap : ℕ} {x : α} {q : List α}

/-- There is room, and the item comes last. -/
theorem push_of_lt (h : q.length < cap) : push cap x q = (true, q ++ [x]) := if_pos h

/-- There is none, and the queue stays as it is. -/
theorem push_of_full (h : cap ≤ q.length) : push cap x q = (false, q) := if_neg (by omega)

/-- Nothing can be taken out of an empty queue. -/
@[simp] theorem pop_nil : pop ([] : List α) = (none, []) := rfl

/-- The first item is taken out. -/
@[simp] theorem pop_cons : pop (x :: q) = (some x, q) := rfl

end Queue

/-! ## The queue with the results of its calls -/

/-- The content of a queue, and the results of the calls so far. -/
structure Log (α : Type*) where
  content : List α
  pushes : List (α × Bool)
  pops : List (Option α)

/-- A call of `push` with its result. -/
def Log.push (cap : ℕ) (x : α) (s : Log α) : Log α :=
  { s with content := (BoundedFifo.push cap x s.content).2
           pushes := s.pushes ++ [(x, (BoundedFifo.push cap x s.content).1)] }

/-- A call of `pop` with its result. -/
def Log.pop (s : Log α) : Log α :=
  { s with content := (BoundedFifo.pop s.content).2
           pops := s.pops ++ [(BoundedFifo.pop s.content).1] }

/-- One call of `push` or `pop`. -/
inductive Step (cap : ℕ) : Log α → Log α → Prop
  | push (s : Log α) (x : α) : Step cap s (s.push cap x)
  | pop (s : Log α) : Step cap s s.pop

section Log

variable {cap : ℕ} {x : α} {s : Log α}

/-- The same with the results: a push that succeeds, -/
theorem Log.push_of_lt (h : s.content.length < cap) :
    s.push cap x = { s with content := s.content ++ [x], pushes := s.pushes ++ [(x, true)] } := by
  rw [Log.push, BoundedFifo.push_of_lt h]

/-- one that finds the queue full, -/
theorem Log.push_of_full (h : cap ≤ s.content.length) :
    s.push cap x = { s with pushes := s.pushes ++ [(x, false)] } := by
  rw [Log.push, BoundedFifo.push_of_full h]

/-- a pop that finds it empty, -/
theorem Log.pop_of_nil (h : s.content = []) : s.pop = { s with pops := s.pops ++ [none] } := by
  rw [Log.pop, h, pop_nil, ← h]

/-- and one that obtains the first item. -/
theorem Log.pop_of_cons {q : List α} (h : s.content = x :: q) :
    s.pop = { s with content := q, pops := s.pops ++ [some x] } := by
  rw [Log.pop, h, pop_cons]

end Log

/-- The empty queue before the first call. -/
def Log.Start (s : Log α) : Prop := s = { content := [], pushes := [], pops := [] }

/-! ## Counters modulo the number of slots -/

section Ring

variable {n a b : ℕ}

/-- Counters less than `n` apart are equal if their slots are. -/
theorem eq_of_slot_eq (hle : a ≤ b) (hlt : b < a + n) (h : a % n = b % n) : a = b := by
  -- their difference is a multiple of `n` below `n`
  have hzero : (b - a) % n = 0 := Nat.sub_mod_eq_zero_of_mod_eq h.symm
  rw [Nat.mod_eq_of_lt (by omega)] at hzero
  omega

/-- The slot after that of `b` is the one of `a` exactly if `b` is `n - 1` ahead. -/
theorem next_slot_eq_iff (hle : a ≤ b) (hlt : b < a + n) :
    (b + 1) % n = a % n ↔ b + 1 = a + n := by
  constructor
  · intro h
    rcases Nat.lt_or_eq_of_le (Nat.succ_le_of_lt hlt) with hlt' | heq
    · have := eq_of_slot_eq (by omega) hlt' h.symm
      omega
    · exact heq
  · intro h
    rw [h, Nat.add_mod_right]

end Ring

end BoundedFifo
