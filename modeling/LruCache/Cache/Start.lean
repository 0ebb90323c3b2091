import LruCache.Cache.Invariant
import Mathlib.Data.Nat.Log

/-!
# The constructor and `clear`

`next_power_of_two` gives the least power of two, and the loop over the pool links the free list
`0, 1, …, capacity - 1`. With both, a new cache and a cleared one satisfy the invariant with an
empty recency list.

Main results:

* `nextPowerOfTwo_eq` — the size of the table is the least power of two that is large enough.
* `Cache.new_ok`, `Rep.clear` — new and cleared caches satisfy the invariant.

Deliberate scope limits:

* `next_power_of_two` is looked at for the arguments that the constructor gives it.
-/

namespace LruCache

open LinearProbing LinkedPool

/-! ## The table size -/

/-- Powers of two below 2^63 can be doubled. -/
theorem wrap_double {k : Nat} (hk : k < 63) : wrap (2 ^ k * 2) = 2 ^ (k + 1) := by
  have hpow : 2 ^ (k + 1) < 2 ^ 64 := Nat.pow_lt_pow_right (by decide) (by omega)
  rw [← Nat.pow_succ, wrap, Nat.mod_eq_of_lt hpow]

/-- The doubling loop stops at the first power of two that is large enough; below `2^63` nothing
is lost by a doubling. -/
theorem nextPowerOfTwoLoop_spec {n m k fuel : Nat} (hn : n ≤ 2 ^ m) (hm : m ≤ 63)
    (hmin : ∀ j < m, 2 ^ j < n) (hk : k ≤ m) (hfuel : m - k < fuel) :
    nextPowerOfTwoLoop n fuel (2 ^ k) = .ok (2 ^ m) := by
  -- on the tests still allowed, of which the loop needs one for each doubling from `2^k` to `2^m`
  induction fuel generalizing k with
  | zero => omega
  | succ fuel ih =>
    rcases Nat.lt_or_eq_of_le hk with hlt | rfl
    · rw [nextPowerOfTwoLoop, if_pos (hmin k hlt), wrap_double (by omega)]
      exact ih hlt (by omega)
    · rw [nextPowerOfTwoLoop, if_neg (by omega)]

/-- `next_power_of_two(n)` is the least power of two that is at least `n`. -/
theorem nextPowerOfTwo_eq {n : Nat} (hn : n ≤ 2 ^ 63) :
    nextPowerOfTwo n = .ok (2 ^ Nat.clog 2 n) := by
  have hm : Nat.clog 2 n ≤ 63 := Nat.clog_le_of_le_pow hn
  refine nextPowerOfTwoLoop_spec (k := 0) (Nat.le_pow_clog (by omega) n) hm ?_ (Nat.zero_le _)
    (by omega)
  intro j hj
  exact Nat.pow_lt_of_lt_clog hj

/-! ## The free list -/

/-- The pool after the first `k` turns of the loop that links the free list. -/
theorem linkFree_turns (cap : Int) (nodes : List Node) {k : Nat} (hk : k ≤ nodes.length) :
    ∃ nodes', (List.range k).foldlM (fun nodes (i : Nat) => updateAt nodes i fun node =>
        { node with next := if (i : Int) + 1 < cap then (i : Int) + 1 else -1 }) nodes =
          .ok nodes' ∧
      SameData nodes nodes' ∧
      ∀ i < k, nextOf nodes' i = if (i : Int) + 1 < cap then (i : Int) + 1 else -1 := by
  induction k with
  | zero => exact ⟨nodes, rfl, SameData.refl nodes, by simp⟩
  | succ k ih =>
    rcases ih (by omega) with ⟨nodes₁, hrun, hdata, hnext⟩
    have hk₁ : k < nodes₁.length := by
      rw [hdata.length]
      omega
    have hset := updateAt_nodes hk₁ fun node =>
      { node with next := if (k : Int) + 1 < cap then (k : Int) + 1 else -1 }
    refine ⟨nodes₁.set k { nodeOf nodes₁ k with
      next := if (k : Int) + 1 < cap then (k : Int) + 1 else -1 }, ?_,
      hdata.trans (SameData.set hk₁ rfl rfl), ?_⟩
    · rw [List.range_succ, List.foldlM_append, hrun]
      simp only [bind, Except.bind, List.foldlM_cons, hset]
      rfl
    · intro i hi
      rw [nextOf_set hk₁]
      by_cases hik : i = k
      · rw [hik, Function.update_self]
      · rw [Function.update_of_ne hik]
        exact hnext i (by omega)

/-- The indices of the pool form a chain when each node is linked to the next index. -/
theorem chain_range {next : Nat → Int} {cap : Nat}
    (hnext : ∀ i < cap, next i = if (i : Int) + 1 < cap then (i : Int) + 1 else -1) :
    Chain ptr next (List.range cap) := by
  intro a i b h
  have hi : (List.range cap)[a.length]? = some i := by simp [h]
  have hb : (List.range cap)[a.length + 1]? = b.head? := by
    rw [h, List.getElem?_append_right (by omega), List.head?_eq_getElem?]
    simp
  rw [List.getElem?_eq_some_iff] at hi
  rcases hi with ⟨hlt, heq⟩
  rw [List.length_range] at hlt
  rw [List.getElem_range] at heq
  rw [← heq, hnext _ hlt, ← hb]
  -- the loop gives the last node `-1` and every other one the index after it
  by_cases hlast : a.length + 1 < cap
  · rw [List.getElem?_range hlast, if_pos (by omega)]
    rfl
  · rw [List.getElem?_eq_none (by simpa using hlast), if_neg (by omega)]
    rfl

/-- A capacity below 2^31 is the same as an `int32_t`. -/
theorem toInt32_of_lt {n : Nat} (h : n < 2 ^ 31) : toInt32 n = n := by
  unfold toInt32
  exact Int.bmod_eq_of_le (by omega) (by omega)

/-- The loop over the pool links the free list `0, …, capacity - 1`. -/
theorem linkFree_spec {cap : Nat} (hlt : cap < 2 ^ 31) {nodes : List Node}
    (hlen : nodes.length = cap) :
    ∃ nodes', linkFree cap nodes = .ok nodes' ∧ SameData nodes nodes' ∧
      Chain ptr (nextOf nodes') (List.range cap) := by
  rcases linkFree_turns cap nodes (k := cap) (by omega) with ⟨nodes', hrun, hdata, hnext⟩
  refine ⟨nodes', ?_, hdata, chain_range hnext⟩
  rw [linkFree, toInt32_of_lt hlt, Int.toNat_natCast]
  exact hrun

/-! ## Empty caches -/

/-- A cache with all nodes on the free list `0, …, capacity - 1` and an empty table. -/
theorem Rep.of_empty {hash : UInt64 → Nat} {cap n m : Nat} {c : Cache} (hpos : 0 < cap)
    (hlt : cap < 2 ^ 31) (hcapacity : c.capacity = cap) (hsize : c.size = 0)
    (hnodes : c.nodes.length = cap) (hchain : Chain ptr (nextOf c.nodes) (List.range cap))
    (hhead : c.head = -1) (htail : c.tail = -1) (hfree : c.freeHead = 0)
    (htable : c.hashTable = List.replicate n (-1)) (hn : n = 2 ^ m) (hsparse : cap < n)
    (hmask : c.hashMask = n - 1) (hhash : ∀ k, hash k < n) :
    Rep hash cap c [] (List.range cap) n fun _ => none := by
  have hfirst : (List.range cap).head? = some 0 := by
    rw [List.head?_eq_getElem?, List.getElem?_range hpos]
  refine
    { cap_pos := hpos
      cap_lt := hlt
      capacity_eq := hcapacity
      size_eq := hsize
      nodes_length := hnodes
      cover := by simp
      lists := ⟨List.nodup_range, ?_, linked_nil, hhead, htail, hchain, ?_⟩
      table := ⟨hhash, ⟨m, hn⟩, hmask, ?_, ?_, valid_empty⟩
      sparse := hsparse
      mem := ?_ }
  · intro i hi
    rw [hnodes]
    exact List.mem_range.mp hi
  · rw [hfirst, hfree]
    rfl
  · rw [htable]
    exact slots_empty n
  · intro j _ i hi
    cases hi
  · simp

/-- What the constructor gives, with its two loops done. -/
theorem Cache.new_eq {cap n : Nat} {nodes : List Node} (hpos : cap ≠ 0)
    (hlink : linkFree cap (List.replicate cap Node.zero) = .ok nodes)
    (hpow : nextPowerOfTwo (wrap (cap * 2)) = .ok n) :
    Cache.new cap = .ok
      { capacity := cap, size := 0, nodes := nodes, head := -1, tail := -1, freeHead := 0
        hashTable := List.replicate n (-1), hashMask := n - 1, hits := 0, misses := 0
        evictions := 0 } := by
  rw [Cache.new, if_neg hpos, hlink]
  simp only [bind, Except.bind, pure, Except.pure]
  rw [hpow]

/-- The constructor succeeds for every capacity from 1 to `2^31 - 1`; the table has the least
power of two of slots that is at least twice the capacity. -/
theorem Cache.new_ok {cap : Nat} (hpos : 0 < cap) (hlt : cap < 2 ^ 31) :
    ∃ c, Cache.new cap = .ok c ∧ c.capacity = cap ∧
      c.hashTable.length = 2 ^ Nat.clog 2 (cap * 2) ∧ c.hashMask = c.hashTable.length - 1 ∧
      c.hits = 0 ∧ c.misses = 0 ∧ c.evictions = 0 ∧
      ∀ hash : UInt64 → Nat, (∀ k, hash k < c.hashTable.length) →
        Rep hash cap c [] (List.range cap) c.hashTable.length fun _ => none := by
  have hwrap : wrap (cap * 2) = cap * 2 := by
    rw [wrap, Nat.mod_eq_of_lt]
    omega
  have hpow : nextPowerOfTwo (wrap (cap * 2)) = .ok (2 ^ Nat.clog 2 (cap * 2)) := by
    rw [hwrap]
    exact nextPowerOfTwo_eq (by omega)
  have hsparse : cap < 2 ^ Nat.clog 2 (cap * 2) := by
    have hle := Nat.le_pow_clog (b := 2) (by omega) (cap * 2)
    exact Nat.lt_of_lt_of_le (by omega) hle
  have hzero : (List.replicate cap Node.zero).length = cap := List.length_replicate
  rcases linkFree_spec hlt hzero with
    ⟨nodes, hlink, hdata, hchain⟩
  have hlen : nodes.length = cap := hdata.length.trans (by simp)
  refine ⟨_, Cache.new_eq (by omega) hlink hpow, rfl, by simp, by simp, rfl, rfl, rfl, ?_⟩
  intro hash hhash
  simp only [List.length_replicate] at hhash ⊢
  exact Rep.of_empty hpos hlt rfl rfl hlen hchain rfl rfl rfl rfl rfl hsparse rfl hhash

/-- What `clear` gives. -/
theorem Cache.clear_eq {c : Cache} {nodes : List Node}
    (hlink : linkFree c.capacity c.nodes = .ok nodes) :
    c.clear = .ok { c with
      size := 0, head := -1, tail := -1, freeHead := 0, nodes := nodes
      hashTable := List.replicate c.hashTable.length (-1), hits := 0, misses := 0
      evictions := 0 } := by
  rw [Cache.clear, hlink]
  rfl

/-- `clear` keeps the pool's data and the capacity, and empties the rest. -/
theorem Rep.clear {hash : UInt64 → Nat} {cap n : Nat} {c : Cache} {order free : List Nat}
    {t : Nat → Option Nat} (h : Rep hash cap c order free n t) :
    ∃ c', c.clear = .ok c' ∧ c'.hits = 0 ∧ c'.misses = 0 ∧ c'.evictions = 0 ∧
      Rep hash cap c' [] (List.range cap) n fun _ => none := by
  rcases linkFree_spec h.cap_lt h.nodes_length with ⟨nodes, hlink, hdata, hchain⟩
  rcases h.table.pow with ⟨m, hm⟩
  rw [← h.capacity_eq] at hlink
  refine ⟨_, Cache.clear_eq hlink, rfl, rfl, rfl, ?_⟩
  refine Rep.of_empty h.cap_pos h.cap_lt h.capacity_eq rfl (hdata.length.trans h.nodes_length)
    hchain rfl rfl rfl ?_ hm h.sparse h.table.mask_eq h.table.hash_lt
  rw [h.table.slots.length]

/-- The member function `hash` stays inside the table. -/
theorem hashKey_lt {n m : Nat} (hn : n = 2 ^ m) (key : UInt64) : hashKey (n - 1) key < n := by
  rw [hashKey, hn, Nat.and_two_pow_sub_one_eq_mod]
  exact Nat.mod_lt _ (Nat.two_pow_pos m)

end LruCache
