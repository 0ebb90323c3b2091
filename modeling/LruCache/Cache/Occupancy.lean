import LruCache.Cache.Frame
import LruCache.Cache.Histories
import LruCache.Lib.Occupancy
import Mathlib.Data.List.Dedup

/-!
# The dense table

Backward shift leaves no tombstones: which slots of `hash_table_` are occupied is decided by the
keys that are stored, whatever was inserted, evicted and erased before (`occupied_of_keys`). The
reason is in the theory of linear probing (`Valid.empty_iff`); here it is applied to two caches
that represent the same keys.

Main results:

* `occupied_of_keys` — two runs that end with the same stored keys end with the same occupied
  slots, and so does putting these keys into a new cache in any order.

Deliberate scope limits:

* Which node is in which of the slots does depend on the history.
-/

namespace LruCache

open LinearProbing Recency Transition

/-- The occupied slots of the table. -/
def Cache.occupied (c : Cache) : Finset Nat :=
  (Finset.range c.hashTable.length).filter fun j => c.hashTable[j]? ≠ some (-1)

/-- One `put` for each pair. -/
def putAll (items : List (UInt64 × UInt64)) : List Call := items.map fun p => .put p.1 p.2

/-! ## New keys, one after the other -/

/-- As long as there is room, new keys are only added: nothing is evicted. -/
theorem runTotal_putAll (items : List (UInt64 × UInt64)) {s : State UInt64 UInt64}
    (hnd : (keys (items ++ s.store.items)).Nodup)
    (hroom : items.length + s.store.items.length ≤ s.store.cap) :
    (runTotal referenceStep (putAll items) s).2.store.items = items.reverse ++ s.store.items ∧
      (runTotal referenceStep (putAll items) s).2.evictions = s.evictions := by
  -- on the pairs still to come; what is already stored has other keys
  induction items generalizing s with
  | nil => exact ⟨rfl, rfl⟩
  | cons p items ih =>
    rw [List.length_cons] at hroom
    have hmid : (keys (items ++ p :: s.store.items)).Nodup :=
      (List.perm_middle.map Prod.fst).nodup_iff.mpr hnd
    have hnew : p.1 ∉ keys s.store.items := by
      have hsub : (p :: s.store.items).Sublist (items ++ p :: s.store.items) :=
        List.sublist_append_right items _
      exact (List.nodup_cons.mp (keys_nodup_sublist hsub hmid)).1
    have hstored : (s.put p.1 p.2).store.items = p :: s.store.items := by
      show (s.store.put p.1 p.2).items = _
      rw [Store.items_put_of_notMem hnew, room, if_neg (by omega)]
    have hcap : (s.put p.1 p.2).store.cap = s.store.cap := Store.cap_put
    have hevict : (s.put p.1 p.2).evictions = s.evictions := by
      show s.evictions + (if s.evicts p.1 then 1 else 0) = _
      rw [if_neg, Nat.add_zero]
      rintro ⟨_, hfull⟩
      omega
    rcases ih (s := s.put p.1 p.2) (by rw [hstored]; exact hmid)
      (by rw [hstored, hcap, List.length_cons]; omega) with ⟨hitems, hevictions⟩
    refine ⟨?_, hevictions.trans hevict⟩
    refine hitems.trans ?_
    rw [hstored, List.reverse_cons, List.append_assoc]
    rfl

/-! ## Occupancy -/

section Occupied

variable {hash : UInt64 → Nat} {cap n : Nat} {c c' : Cache} {order free : List Nat}
variable {t : Nat → Option Nat}

/-- The occupied slots of a cache are those of its table. -/
theorem Rep.mem_occupied (h : Rep hash cap c order free n t) {j : Nat} :
    j ∈ c.occupied ↔ j < n ∧ t j ≠ none := by
  rw [Cache.occupied, Finset.mem_filter, Finset.mem_range, h.table.slots.length]
  constructor
  · rintro ⟨hj, hocc⟩
    refine ⟨hj, fun hempty => hocc ?_⟩
    rw [h.table.slots.get j hj, hempty]
    rfl
  · rintro ⟨hj, hocc⟩
    refine ⟨hj, fun hempty => hocc ?_⟩
    rw [h.table.slots.get j hj] at hempty
    exact ptr_eq_neg_one.mp (Option.some.inj hempty)

/-- The keys in the table are the stored keys. -/
theorem Rep.mem_table_iff (h : Rep hash cap c order free n t) {k : UInt64} :
    (∃ j < n, ∃ i, t j = some i ∧ keyOf c.nodes i = k) ↔ k ∈ keys (itemsOf c.nodes order) := by
  rw [keys_itemsOf, List.mem_map]
  constructor
  · rintro ⟨j, hj, i, hi, hk⟩
    exact ⟨i, (h.mem i).mp ⟨j, hj, hi⟩, hk⟩
  · rintro ⟨i, hi, hk⟩
    rcases h.slot hi with ⟨j, hj, hj_eq⟩
    exact ⟨j, hj, i, hj_eq, hk⟩

/-- Caches of one table size that store the same keys occupy the same slots. -/
theorem Holds.occupied_eq {cap' : Nat} {items items' : List (UInt64 × UInt64)}
    (h : Holds hash cap c items) (h' : Holds hash cap' c' items')
    (hlen : c.hashTable.length = c'.hashTable.length)
    (hkeys : ∀ k, k ∈ keys items ↔ k ∈ keys items') : c.occupied = c'.occupied := by
  rcases h with ⟨order, free, n, t, hrep, rfl⟩
  rcases h' with ⟨order', free', n', t', hrep', rfl⟩
  have hn : n = n' := hrep.table.slots.length.symm.trans (hlen.trans hrep'.table.slots.length)
  subst hn
  ext j
  rw [hrep.mem_occupied, hrep'.mem_occupied]
  refine and_congr_right fun hj => not_congr ?_
  refine hrep.table.valid.empty_iff hrep'.table.valid hrep.table.hash_lt hrep.spare hrep'.spare
    ?_ hj
  intro k
  rw [hrep.mem_table_iff, hrep'.mem_table_iff]
  exact hkeys k

end Occupied

/-- **Occupancy.** Any two runs that end with the same stored keys end with the same slots
occupied; these are the slots that a new cache occupies after a `put` of each of the keys. -/
theorem occupied_of_keys {C : Nat} (hpos : 0 < C) (hlt : C < 2 ^ 31) :
    ∃ c₀, Cache.new C = .ok c₀ ∧ (∀ k, hashKey c₀.hashMask k < c₀.hashTable.length) ∧
      ∀ hash : UInt64 → Nat, (∀ k, hash k < c₀.hashTable.length) → ∀ ops : List Call,
        ∃ rs c, run (Cache.step hash) ops c₀ = .ok (rs, c) ∧
          (∀ ops' rs' c', run (Cache.step hash) ops' c₀ = .ok (rs', c') →
            (∀ k, k ∈ keys c.pairs ↔ k ∈ keys c'.pairs) → c.occupied = c'.occupied) ∧
          ∀ items : List (UInt64 × UInt64), (keys items).Perm (keys c.pairs) →
            ∃ rs' c', run (Cache.step hash) (putAll items) c₀ = .ok (rs', c') ∧
              (keys c'.pairs).Perm (keys c.pairs) ∧ c'.evictions = 0 ∧
              c.occupied = c'.occupied := by
  rcases Sim.new hpos hlt with ⟨c₀, hnew, hreal, hsim⟩
  refine ⟨c₀, hnew, hreal, ?_⟩
  intro hash hhash ops
  rcases (hsim hash hhash).run ops with ⟨c, hrun, hc⟩
  have hlen := (run_shape hrun).table
  -- two runs are compared through what the reference stores after each
  have hsame : ∀ ops' rs' c', run (Cache.step hash) ops' c₀ = .ok (rs', c') →
      (∀ k, k ∈ keys c.pairs ↔ k ∈ keys c'.pairs) → c.occupied = c'.occupied := by
    intro ops' rs' c' hrun' hkeys
    rcases (hsim hash hhash).run ops' with ⟨c₁, hrun₁, hc₁⟩
    rw [hrun'] at hrun₁
    cases hrun₁
    rw [hc.holds.pairs_eq, hc₁.holds.pairs_eq] at hkeys
    exact hc.holds.occupied_eq hc₁.holds (hlen.trans (run_shape hrun').table.symm) hkeys
  refine ⟨_, c, hrun, hsame, ?_⟩
  intro items hperm
  rw [hc.holds.pairs_eq] at hperm
  rcases (hsim hash hhash).run (putAll items) with ⟨c', hrun', hc'⟩
  have hlength : items.length ≤ C := by
    have hle := (runTotal referenceStep ops (State.init C hpos)).2.store.length_le
    rw [cap_reference] at hle
    have := hperm.length_eq
    rw [keys, keys, List.length_map, List.length_map] at this
    omega
  have hstored := runTotal_putAll items (s := State.init C hpos)
    (by
      show (keys (items ++ [])).Nodup
      rw [List.append_nil]
      exact hperm.nodup_iff.mpr (Store.nodup _))
    hlength
  have hpairs : (keys c'.pairs).Perm (keys c.pairs) := by
    rw [hc'.holds.pairs_eq, hc.holds.pairs_eq, hstored.1]
    show (keys (items.reverse ++ [])).Perm _
    rw [List.append_nil]
    exact ((List.reverse_perm items).map Prod.fst).trans hperm
  refine ⟨_, c', hrun', hpairs, ?_, hsame _ _ _ hrun' fun k => hpairs.symm.mem_iff⟩
  rw [hc'.evictions, hstored.2]
  rfl

/-- Two histories of the keys 4 and 5, which share the slot 1 as their home: in the first table
the key 5 has it, in the second one the key 4. -/
theorem occupied_of_keys_two :
    ∃ c₀ rs c rs' c', Cache.new 2 = .ok c₀ ∧
      run (Cache.step (hashKey c₀.hashMask))
        [.put 4 10, .put 7 30, .put 5 20, .remove 7, .put 4 40] c₀ = .ok (rs, c) ∧
      run (Cache.step (hashKey c₀.hashMask)) [.put 4 1, .put 5 2] c₀ = .ok (rs', c') ∧
      keys c.pairs = [4, 5] ∧ keys c'.pairs = [5, 4] ∧ c.occupied = c'.occupied := by
  rcases occupied_of_keys (C := 2) (by decide) (by decide) with ⟨c₀, hnew, hreal, hall⟩
  let start : Cache :=
    { capacity := 2, size := 0, nodes := [⟨0, 0, 0, 1⟩, ⟨0, 0, 0, -1⟩], head := -1, tail := -1
      freeHead := 0, hashTable := [-1, -1, -1, -1], hashMask := 3, hits := 0, misses := 0
      evictions := 0 }
  have hstart : Cache.new 2 = .ok start := by decide +kernel
  have heq : start = c₀ := Except.ok.inj (hstart.symm.trans hnew)
  subst heq
  let c : Cache :=
    { capacity := 2, size := 2, nodes := [⟨5, 20, 1, -1⟩, ⟨4, 40, -1, 0⟩], head := 1, tail := 0
      freeHead := -1, hashTable := [-1, 0, 1, -1], hashMask := 3, hits := 0, misses := 0
      evictions := 1 }
  let c' : Cache :=
    { capacity := 2, size := 2, nodes := [⟨4, 1, 1, -1⟩, ⟨5, 2, -1, 0⟩], head := 1, tail := 0
      freeHead := -1, hashTable := [-1, 0, 1, -1], hashMask := 3, hits := 0, misses := 0
      evictions := 0 }
  have hrun : run (Cache.step (hashKey 3)) [.put 4 10, .put 7 30, .put 5 20, .remove 7, .put 4 40]
      start = .ok ([.void, .void, .void, .removed true, .void], c) := by decide +kernel
  have hrun' : run (Cache.step (hashKey 3)) [.put 4 1, .put 5 2] start =
      .ok ([.void, .void], c') := by decide +kernel
  have hkeys : keys c.pairs = [4, 5] := by decide
  have hkeys' : keys c'.pairs = [5, 4] := by decide
  rcases hall (hashKey 3) hreal [.put 4 10, .put 7 30, .put 5 20, .remove 7, .put 4 40] with
    ⟨rs, c₁, hrun₁, hsame, _⟩
  rw [hrun] at hrun₁
  cases hrun₁
  refine ⟨start, _, c, _, c', hstart, hrun, hrun', hkeys, hkeys', ?_⟩
  refine hsame _ _ _ hrun' ?_
  intro k
  rw [hkeys, hkeys', List.mem_pair, List.mem_pair, or_comm]

end LruCache
