import LruCache.Cache.Operations
import LruCache.Lib.Transition

/-!
# The cache refines the recency list

`Cache.step` is one call of a member function, `Sim` the simulation relation to the reference
machine of `Recency`: the same pairs in the same order, and the counters up to the wrap-around
of `std::size_t`. `Sim.step` is the only place where calls are told apart; everything about
whole runs follows from it by the simulation rule for machines.

Main results:

* `Sim.step` — one call keeps the simulation, and is answered alike.
* `cache_refines_reference` — for every capacity from 1 to 2^31 - 1 and every list of calls, the
  cache and all its observers show what the reference machine shows.

Deliberate scope limits:

* The counters are compared modulo 2^64.
* What `display` prints depends on the formatter that it is given, which is a parameter.
-/

namespace LruCache

open Recency Transition

/-- A call of one of the four member functions that change the cache. -/
abbrev Call := Op UInt64 UInt64

/-- What a member function returns to its caller. -/
inductive Returned where
  | void
  | got (result : GetResult)
  | removed (found : Bool)
deriving DecidableEq, Repr

/-- One call. -/
def Cache.step (hash : UInt64 → Nat) : Call → Cache → Except Fault (Returned × Cache)
  | .put key value, c => do
      let c ← c.put hash key value
      return (.void, c)
  | .get key, c => do
      let (result, c) ← c.get hash key
      return (.got result, c)
  | .remove key, c => do
      let (found, c) ← c.remove hash key
      return (.removed found, c)
  | .clear, c => do
      let c ← c.clear
      return (.void, c)

/-! ## The reference machine -/

/-- An answer of the reference machine as the source returns it. -/
def returned : Answer UInt64 → Returned
  | .done => .void
  | .got (some v) => .got { found := true, value := v }
  | .got none => .got { found := false, value := 0 }
  | .removed found => .removed found

/-- One call of the reference machine. -/
def referenceStep (op : Call) (s : State UInt64 UInt64) : Returned × State UInt64 UInt64 :=
  (returned (State.step op s).1, (State.step op s).2)

/-- The state of the reference machine after the calls `ops` on a new one. -/
def reference (C : Nat) (hpos : 0 < C) (ops : List Call) : State UInt64 UInt64 :=
  (runTotal referenceStep ops (State.init C hpos)).2

/-- The reference keeps its capacity. -/
theorem cap_reference {C : Nat} (hpos : 0 < C) (ops : List Call) :
    (runTotal referenceStep ops (State.init C hpos)).2.store.cap = C := by
  refine runTotal_invariant (I := fun s : State UInt64 UInt64 => s.store.cap = C) ?_ ops
    rfl
  intro op s hs
  exact (State.cap_step op s).trans hs

/-! ## Simulation -/

/-- The cache stores what the reference stores, and counts as it does. -/
structure Sim (hash : UInt64 → Nat) (c : Cache) (s : State UInt64 UInt64) : Prop where
  holds : Holds hash s.store.cap c s.store.items
  hits : c.hits = wrap s.hits
  misses : c.misses = wrap s.misses
  evictions : c.evictions = wrap s.evictions

/-- A counter of the code follows one that does not wrap around. -/
theorem incr_wrap (n : Nat) : incr (wrap n) = wrap (n + 1) := by
  simp only [incr, wrap, Nat.mod_add_mod]

section Step

variable {hash : UInt64 → Nat} {c : Cache} {s : State UInt64 UInt64}

/-- `put` does what the reference does, -/
theorem Sim.put (h : Sim hash c s) (k v : UInt64) :
    ∃ c', c.put hash k v = .ok c' ∧ Sim hash c' (s.put k v) := by
  -- a present key evicts nothing, a new one exactly if the list is full
  by_cases hk : k ∈ keys s.store.items
  · rcases h.holds.put_mem (v := v) hk with ⟨c', hrun, hholds, hhits, hmisses, hevict⟩
    have hno : ¬ s.evicts k := fun hev => hev.1 hk
    refine ⟨c', hrun, ?_, hhits.trans h.hits, hmisses.trans h.misses, ?_⟩
    · show Holds hash (s.store.put k v).cap c' (s.store.put k v).items
      rw [Store.cap_put, Store.items_put_of_mem hk]
      exact hholds
    · show c'.evictions = wrap (s.evictions + if s.evicts k then 1 else 0)
      rw [if_neg hno]
      exact hevict.trans h.evictions
  · rcases h.holds.put_new (v := v) hk with ⟨c', hrun, hholds, hhits, hmisses, hevict⟩
    have hev : s.evicts k ↔ s.store.items.length = s.store.cap := by
      simp only [State.evicts, hk, not_false_eq_true, true_and]
    refine ⟨c', hrun, ?_, hhits.trans h.hits, hmisses.trans h.misses, ?_⟩
    · show Holds hash (s.store.put k v).cap c' (s.store.put k v).items
      rw [Store.cap_put, Store.items_put_of_notMem hk]
      exact hholds
    · show c'.evictions = wrap (s.evictions + if s.evicts k then 1 else 0)
      by_cases hfull : s.store.items.length = s.store.cap
      · rw [if_pos (hev.mpr hfull), hevict, if_pos hfull, h.evictions, incr_wrap]
      · rw [if_neg (fun h' => hfull (hev.mp h')), hevict, if_neg hfull]
        exact h.evictions

/-- and so do `get`, -/
theorem Sim.get (h : Sim hash c s) (k : UInt64) :
    ∃ r c', c.get hash k = .ok (r, c') ∧ Returned.got r = returned (.got (s.get k).1) ∧
      Sim hash c' (s.get k).2 := by
  cases hv : s.store.items.lookup k with
  | some v =>
    rcases h.holds.get_hit hv with ⟨c', hrun, hholds, hhits, hmisses, hevict⟩
    rw [State.get_of_some hv]
    refine ⟨_, c', hrun, rfl, ?_, ?_, hmisses.trans h.misses, hevict.trans h.evictions⟩
    · show Holds hash (s.store.touch k).cap c' (s.store.touch k).items
      rw [Store.cap_touch, Store.items_touch_of_some hv]
      exact hholds
    · rw [hhits, h.hits, incr_wrap]
  | none =>
    rcases h.holds.get_miss (lookup_eq_none.mp hv) with ⟨c', hrun, hholds, hhits, hmisses, hevict⟩
    rw [State.get_of_none hv]
    refine ⟨_, c', hrun, rfl, hholds, hhits.trans h.hits, ?_, hevict.trans h.evictions⟩
    rw [hmisses, h.misses, incr_wrap]

/-- `remove`, -/
theorem Sim.remove (h : Sim hash c s) (k : UInt64) :
    ∃ c', c.remove hash k = .ok ((s.remove k).1, c') ∧ Sim hash c' (s.remove k).2 := by
  by_cases hk : k ∈ keys s.store.items
  · rcases h.holds.remove_mem hk with ⟨c', hrun, hholds, hhits, hmisses, hevict⟩
    refine ⟨c', ?_, hholds, hhits.trans h.hits, hmisses.trans h.misses, hevict.trans h.evictions⟩
    rw [hrun, State.remove, decide_eq_true hk]
  · refine ⟨c, ?_, ?_, h.hits, h.misses, h.evictions⟩
    · rw [h.holds.remove_absent hk, State.remove, decide_eq_false hk]
    · show Holds hash s.store.cap c (erase k s.store.items)
      rw [erase_of_notMem hk]
      exact h.holds

/-- and `clear`. -/
theorem Sim.clear (h : Sim hash c s) : ∃ c', c.clear = .ok c' ∧ Sim hash c' s.clear := by
  rcases h.holds.clear with ⟨c', hrun, hholds, hhits, hmisses, hevict⟩
  exact ⟨c', hrun, hholds, hhits, hmisses, hevict⟩

/-- Every call returns what the reference returns and leads to related states. -/
theorem Sim.step (h : Sim hash c s) (op : Call) :
    ∃ c', Cache.step hash op c = .ok ((referenceStep op s).1, c') ∧
      Sim hash c' (referenceStep op s).2 := by
  cases op with
  | put k v =>
    rcases h.put k v with ⟨c', hrun, hsim⟩
    refine ⟨c', ?_, hsim⟩
    rw [Cache.step, hrun]
    rfl
  | get k =>
    rcases h.get k with ⟨r, c', hrun, hr, hsim⟩
    refine ⟨c', ?_, hsim⟩
    rw [Cache.step, hrun]
    show Except.ok (Returned.got r, c') = _
    rw [hr]
    rfl
  | remove k =>
    rcases h.remove k with ⟨c', hrun, hsim⟩
    refine ⟨c', ?_, hsim⟩
    rw [Cache.step, hrun]
    rfl
  | clear =>
    rcases h.clear with ⟨c', hrun, hsim⟩
    refine ⟨c', ?_, hsim⟩
    rw [Cache.step, hrun]
    rfl

/-- Every run answers as the reference does. -/
theorem Sim.run (h : Sim hash c s) (ops : List Call) :
    ∃ c', Transition.run (Cache.step hash) ops c = .ok ((runTotal referenceStep ops s).1, c') ∧
      Sim hash c' (runTotal referenceStep ops s).2 :=
  run_simulation (R := Sim hash) (fun op _ _ h => h.step op) ops h

end Step

/-- A new cache simulates the empty reference, whatever the hash function. -/
theorem Sim.new {C : Nat} (hpos : 0 < C) (hlt : C < 2 ^ 31) :
    ∃ c₀, Cache.new C = .ok c₀ ∧ (∀ k, hashKey c₀.hashMask k < c₀.hashTable.length) ∧
      ∀ hash : UInt64 → Nat, (∀ k, hash k < c₀.hashTable.length) →
        Sim hash c₀ (State.init C hpos) := by
  rcases Cache.new_ok hpos hlt with
    ⟨c₀, hnew, _, hlen, hmask, hhits, hmisses, hevict, hrep⟩
  refine ⟨c₀, hnew, ?_, ?_⟩
  · intro k
    rw [hmask]
    exact hashKey_lt hlen k
  · intro hash hhash
    exact ⟨⟨_, _, _, _, hrep hash hhash, rfl⟩, hhits, hmisses, hevict⟩

/-! ## Observational equality -/

/-- All that a caller sees after a call: what it returned, the accessors, and the text that
`display` prints. -/
structure Observation where
  returned : Returned
  size : Nat
  empty : Bool
  hits : Nat
  misses : Nat
  evictions : Nat
  totalRequests : Nat
  text : String
deriving DecidableEq, Repr

/-- A call, followed by a look at the cache through its accessors and `display`. -/
def Cache.observedStep (hash : UInt64 → Nat) (formatter : Option (UInt64 → String)) (op : Call)
    (c : Cache) : Except Fault (Observation × Cache) := do
  let (r, c) ← c.step hash op
  let text ← c.display formatter
  return ({
    returned := r
    size := c.size
    empty := c.empty
    hits := c.hits
    misses := c.misses
    evictions := c.evictions
    totalRequests := c.totalRequests
    text := text }, c)

/-- The display of the reference: its pairs from most to least recent. -/
def referenceText (formatter : Option (UInt64 → String)) (s : Store UInt64 UInt64) : String :=
  if s.items.length = 0 then "(cache is empty)\n" else
    "Cache (" ++ toString s.items.length ++ "/" ++ toString s.cap ++ ") [MRU -> LRU]:\n" ++
      itemLines formatter 1 s.items

/-- A call of the reference machine with what there is to see; its counters are unbounded and
are shown as a `std::size_t`. -/
def observedReference (formatter : Option (UInt64 → String)) (op : Call)
    (s : State UInt64 UInt64) : Observation × State UInt64 UInt64 :=
  let (r, s) := referenceStep op s
  ({ returned := r
     size := s.store.items.length
     empty := s.store.items.isEmpty
     hits := wrap s.hits
     misses := wrap s.misses
     evictions := wrap s.evictions
     totalRequests := wrap (s.hits + s.misses)
     text := referenceText formatter s.store }, s)

/-- The same of a call with all observers after it. -/
theorem Sim.observedStep {hash : UInt64 → Nat} {c : Cache} {s : State UInt64 UInt64}
    (h : Sim hash c s) (formatter : Option (UInt64 → String)) (op : Call) :
    ∃ c', c.observedStep hash formatter op = .ok ((observedReference formatter op s).1, c') ∧
      Sim hash c' (observedReference formatter op s).2 := by
  rcases h.step op with ⟨c', hrun, hsim⟩
  refine ⟨c', ?_, hsim⟩
  have hempty : c'.empty = (referenceStep op s).2.store.items.isEmpty := by
    rw [Cache.empty, hsim.holds.size_eq]
    cases (referenceStep op s).2.store.items <;> rfl
  have htotal : c'.totalRequests =
      wrap ((referenceStep op s).2.hits + (referenceStep op s).2.misses) := by
    rw [Cache.totalRequests, hsim.hits, hsim.misses]
    simp only [wrap, Nat.mod_add_mod, Nat.add_mod_mod]
  simp only [Cache.observedStep, hrun, hsim.holds.display, bind, Except.bind]
  rw [hempty, htotal, hsim.holds.size_eq, hsim.hits, hsim.misses, hsim.evictions]
  rfl

/-- **Refinement.** Whatever the hash function and whatever the calls, a new cache of capacity
`C` is told apart from the reference of capacity `C` by nothing that its caller can see. -/
theorem cache_refines_reference {C : Nat} (hpos : 0 < C) (hlt : C < 2 ^ 31) :
    ∃ c₀, Cache.new C = .ok c₀ ∧ (∀ k, hashKey c₀.hashMask k < c₀.hashTable.length) ∧
      ∀ hash : UInt64 → Nat, (∀ k, hash k < c₀.hashTable.length) →
        ∀ (formatter : Option (UInt64 → String)) (ops : List Call),
          (run (Cache.observedStep hash formatter) ops c₀).map Prod.fst =
            .ok (runTotal (observedReference formatter) ops (State.init C hpos)).1 := by
  rcases Sim.new hpos hlt with ⟨c₀, hnew, hreal, hsim⟩
  refine ⟨c₀, hnew, hreal, ?_⟩
  intro hash hhash formatter ops
  rcases run_simulation (R := Sim hash) (fun op _ _ h => h.observedStep formatter op) ops
    (hsim hash hhash) with ⟨c', hrun, _⟩
  rw [hrun]
  rfl

/-- A run of six calls, with an eviction, as it is printed. -/
theorem cache_refines_reference_two :
    ∃ c₀, Cache.new 2 = .ok c₀ ∧
      (run (Cache.observedStep (hashKey c₀.hashMask) none)
          [.put 1 10, .put 2 20, .get 1, .put 3 30, .get 2, .remove 3] c₀).map
        (fun out => out.1.map fun o => (o.returned, o.evictions, o.text)) = .ok [
          (.void, 0, "Cache (1/2) [MRU -> LRU]:\n  1. 1 = 10\n"),
          (.void, 0, "Cache (2/2) [MRU -> LRU]:\n  1. 2 = 20\n  2. 1 = 10\n"),
          (.got { found := true, value := 10 }, 0,
            "Cache (2/2) [MRU -> LRU]:\n  1. 1 = 10\n  2. 2 = 20\n"),
          (.void, 1, "Cache (2/2) [MRU -> LRU]:\n  1. 3 = 30\n  2. 1 = 10\n"),
          (.got { found := false, value := 0 }, 1,
            "Cache (2/2) [MRU -> LRU]:\n  1. 3 = 30\n  2. 1 = 10\n"),
          (.removed true, 1, "Cache (1/2) [MRU -> LRU]:\n  1. 1 = 10\n")] := by
  rcases cache_refines_reference (C := 2) (by decide) (by decide) with ⟨c₀, hnew, hreal, href⟩
  refine ⟨c₀, hnew, ?_⟩
  have hrun := href (hashKey c₀.hashMask) hreal none
    [.put 1 10, .put 2 20, .get 1, .put 3 30, .get 2, .remove 3]
  cases hout : run (Cache.observedStep (hashKey c₀.hashMask) none)
    [.put 1 10, .put 2 20, .get 1, .put 3 30, .get 2, .remove 3] c₀ with
  | error e =>
    rw [hout] at hrun
    cases hrun
  | ok out =>
    rw [hout] at hrun
    have hfst : out.1 = (runTotal (observedReference none)
      [.put 1 10, .put 2 20, .get 1, .put 3 30, .get 2, .remove 3] (State.init 2 (by decide))).1 :=
      Except.ok.inj hrun
    show Except.ok (out.1.map fun o => (o.returned, o.evictions, o.text)) = _
    rw [hfst]
    decide +kernel

end LruCache
