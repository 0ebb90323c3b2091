import LruCache.Cache.Occupancy

/-!
# Which capacities give a usable cache

The constructor takes any `std::size_t` but zero. It sizes the pool by the capacity itself and
links the free list by a loop whose bound is the capacity as an `int32_t`; so from `2^31` on the
free list does not have the whole pool. `usable_iff` says that this is the only thing that goes
wrong, and that it always does.

Main results:

* `usable_iff` — for every positive capacity, the constructor gives a usable cache exactly if the
  capacity is below 2^31.

Deliberate scope limits:

* Allocation succeeds, whatever the capacity is; the arrays of a capacity of 2^31 take more than 50
  GB, which `std::vector` can be asked for.
-/

namespace LruCache

open LinkedPool Recency Transition

/-! ## Usable caches -/

/-- What one expects of the cache `c₀` that the constructor makes for the capacity `C`. -/
structure Usable (C : Nat) (c₀ : Cache) : Prop where
  /-- `capacity * 2` does not wrap, and `next_power_of_two` ends with the table size. -/
  noWrap : wrap (C * 2) = C * 2
  tableSize : nextPowerOfTwo (C * 2) = .ok c₀.hashTable.length
  pow : ∃ m, c₀.hashTable.length = 2 ^ m
  large : 2 * C ≤ c₀.hashTable.length
  /-- The free list has every index of the pool once, and `clear` restores it. -/
  free : ∃ l : List Nat, l.Perm (List.range C) ∧ Follows c₀.nodes c₀.freeHead l ∧
    ∀ hash : UInt64 → Nat, (∀ k, hash k < c₀.hashTable.length) → ∀ ops rs c,
      run (Cache.step hash) ops c₀ = .ok (rs, c) →
        ∃ c', c.clear = .ok c' ∧ Follows c'.nodes c'.freeHead l
  /-- `C` keys can be put before the first eviction. -/
  fill : ∀ hash : UInt64 → Nat, (∀ k, hash k < c₀.hashTable.length) →
    ∀ items : List (UInt64 × UInt64), (keys items).Nodup → items.length ≤ C →
      ∃ rs c, run (Cache.step hash) (putAll items) c₀ = .ok (rs, c) ∧ c.size = items.length ∧
        c.evictions = 0

/-- The constructor returns, with a usable cache. -/
def Constructs (C : Nat) : Prop := ∃ c₀, Cache.new C = .ok c₀ ∧ Usable C c₀

/-! ## Small capacities -/

/-- With all nodes free, the free chain is `0, …, cap - 1`. -/
theorem Rep.follows_free {hash : UInt64 → Nat} {cap n : Nat} {c : Cache}
    {order free : List Nat} {t : Nat → Option Nat} (h : Rep hash cap c order free n t) :
    Follows c.nodes c.freeHead free := by
  rw [h.lists.freeHead_eq]
  exact follows_of_chain h.lists.chain fun _ hi => h.lists.free_lt hi

/-- Below 2^31 the constructor gives a usable cache. -/
theorem constructs_of_lt {C : Nat} (hpos : 0 < C) (hlt : C < 2 ^ 31) : Constructs C := by
  rcases Cache.new_ok hpos hlt with ⟨c₀, hnew, _, hlen, hmask, _, _, _, hrep⟩
  have hmask_lt : ∀ k, hashKey c₀.hashMask k < c₀.hashTable.length := by
    intro k
    rw [hmask]
    exact hashKey_lt hlen k
  rcases Sim.new hpos hlt with ⟨c₁, hnew₁, _, hsim⟩
  rw [hnew] at hnew₁
  cases hnew₁
  refine ⟨c₀, hnew, ?_⟩
  refine
    { noWrap := ?_
      tableSize := ?_
      pow := ⟨_, hlen⟩
      large := ?_
      free := ⟨List.range C, List.Perm.refl _, (hrep _ hmask_lt).follows_free, ?_⟩
      fill := ?_ }
  · rw [wrap, Nat.mod_eq_of_lt]
    omega
  · rw [hlen]
    exact nextPowerOfTwo_eq (by omega)
  · rw [hlen, Nat.mul_comm]
    exact Nat.le_pow_clog (by omega) (C * 2)
  · intro hash hhash ops rs c hrun
    rcases (hsim hash hhash).run ops with ⟨c', hrun', hc⟩
    rw [hrun] at hrun'
    cases hrun'
    rcases hc.holds with ⟨order, free, n, t, hrep', _⟩
    rcases hrep'.clear with ⟨c', hclear, _, _, _, hempty⟩
    rw [cap_reference] at hempty
    exact ⟨c', hclear, hempty.follows_free⟩
  · intro hash hhash items hnd hle
    rcases (hsim hash hhash).run (putAll items) with ⟨c, hrun, hc⟩
    have hstored := runTotal_putAll items (s := State.init C hpos)
      (by
        show (keys (items ++ [])).Nodup
        rw [List.append_nil]
        exact hnd)
      hle
    refine ⟨_, c, hrun, ?_, ?_⟩
    · rw [hc.holds.size_eq, hstored.1]
      show (items.reverse ++ []).length = _
      rw [List.append_nil, List.length_reverse]
    · rw [hc.evictions, hstored.2]
      rfl

/-! ## Large capacities -/

section Follows

variable {nodes : List Node} {l : List Nat}

/-- A chain that starts below `k` stays there if no link leads out. -/
theorem Follows.lt {k : Nat} (hclosed : ∀ i < k, ∀ j : Nat, nextOf nodes i = (j : Int) → j < k)
    {x : Int} (h : Follows nodes x l) (hx : ∀ j : Nat, x = (j : Int) → j < k) :
    ∀ i ∈ l, i < k := by
  induction h with
  | nil =>
    intro i hi
    cases hi
  | @cons i l _ _ ih =>
    intro j hj
    rcases List.mem_cons.mp hj with rfl | hj
    · exact hx j rfl
    · exact ih (hclosed i (hx i rfl)) j hj

/-- From a node that is linked to itself no chain comes to an end. -/
theorem not_follows_loop {i : Nat} (hloop : nextOf nodes i = (i : Int)) :
    ¬ Follows nodes i l := by
  -- on the chain: its tail starts at the same node
  induction l with
  | nil =>
    intro h
    generalize hx : (i : Int) = x at h
    cases h
    exact natCast_ne_neg_one i hx
  | cons j l ih =>
    intro h
    generalize hx : (i : Int) = x at h
    cases h with
    | cons _ hrest =>
      rw [← Int.ofNat.inj hx, hloop] at hrest
      exact ih hrest

end Follows

/-- No `int32_t` reaches 2^31. -/
theorem toInt32_lt (n : Nat) : toInt32 n < 2 ^ 31 := by
  have h := Int.bmod_lt (x := (n : Int)) (m := 2 ^ 32) (by decide)
  unfold toInt32
  omega

/-- What the constructor makes of the pool. -/
theorem Cache.nodes_of_new {C : Nat} {c₀ : Cache} (h : Cache.new C = .ok c₀) :
    linkFree C (List.replicate C Node.zero) = .ok c₀.nodes ∧ c₀.freeHead = 0 := by
  by_cases hzero : C = 0
  · rw [Cache.new, if_pos hzero] at h
    cases h
  · rw [Cache.new, if_neg hzero] at h
    rcases bind_eq_ok h with ⟨nodes, hlink, h⟩
    rcases bind_eq_ok h with ⟨n, _, hc⟩
    cases hc
    exact ⟨hlink, rfl⟩

/-- From `2^31` on the loop misses the last node of the pool. -/
theorem not_follows_pool {C : Nat} (hge : 2 ^ 31 ≤ C) {c₀ : Cache} (hnew : Cache.new C = .ok c₀)
    {l : List Nat} (hperm : l.Perm (List.range C)) : ¬ Follows c₀.nodes c₀.freeHead l := by
  intro hfollows
  rcases Cache.nodes_of_new hnew with ⟨hlink, hfree⟩
  rw [hfree] at hfollows
  have hlt := toInt32_lt C
  rcases linkFree_turns (toInt32 C) (List.replicate C Node.zero)
    (k := (toInt32 C).toNat) (by rw [List.length_replicate]; omega) with ⟨nodes, hrun, _, hnext⟩
  have hnodes : nodes = c₀.nodes := Except.ok.inj (hrun.symm.trans hlink)
  subst hnodes
  by_cases hturns : toInt32 C ≤ 0
  · -- no turn at all: every node is linked to node 0, as it was allocated
    have hzero : (toInt32 C).toNat = 0 := by omega
    rw [linkFree, hzero] at hlink
    have hpool : List.replicate C Node.zero = c₀.nodes := Except.ok.inj hlink
    refine not_follows_loop (i := 0) ?_ hfollows
    rw [← hpool, nextOf, nodeOf, List.getD_eq_getElem _ _ (by rw [List.length_replicate]; omega),
      List.getElem_replicate]
    rfl
  · -- the chain stays among the nodes that the loop has linked
    have hin := hfollows.lt (k := (toInt32 C).toNat)
      (by
        intro i hi j hj
        rw [hnext i hi] at hj
        split at hj <;> omega)
      (by
        intro j hj
        omega)
    have hlast := hin (C - 1) (hperm.mem_iff.mpr (List.mem_range.mpr (by omega)))
    omega

/-- From 2^31 on the free list does not have the whole pool. -/
theorem not_usable {C : Nat} (hge : 2 ^ 31 ≤ C) {c₀ : Cache} (hnew : Cache.new C = .ok c₀) :
    ¬ Usable C c₀ := by
  intro husable
  rcases husable.free with ⟨l, hperm, hfollows, _⟩
  exact not_follows_pool hge hnew hperm hfollows

/-- The constructor links no node if the capacity is not positive as an `int32_t`; it returns
all the same. -/
theorem Cache.new_of_nonpos {C : Nat} (hpos : 0 < C) (hle : C ≤ 2 ^ 62)
    (hturns : toInt32 C ≤ 0) : ∃ c₀, Cache.new C = .ok c₀ := by
  have hlink : linkFree C (List.replicate C Node.zero) = .ok (List.replicate C Node.zero) := by
    rw [linkFree, Int.toNat_of_nonpos hturns]
    rfl
  have hwrap : wrap (C * 2) = C * 2 := by
    rw [wrap, Nat.mod_eq_of_lt]
    omega
  have hpow : nextPowerOfTwo (wrap (C * 2)) = .ok (2 ^ Nat.clog 2 (C * 2)) := by
    rw [hwrap]
    exact nextPowerOfTwo_eq (by omega)
  exact ⟨_, Cache.new_eq (by omega) hlink hpow⟩

/-- **Usable capacities.** Of the capacities that the constructor takes, exactly those below
`2^31` give a usable cache. -/
theorem usable_iff {C : Nat} (hpos : 0 < C) : Constructs C ↔ C < 2 ^ 31 := by
  constructor
  · rintro ⟨c₀, hnew, husable⟩
    by_contra hge
    exact not_usable (by omega) hnew husable
  · exact constructs_of_lt hpos

/-- A small capacity, and one for which the loop stops after two nodes. -/
theorem usable_iff_two : Constructs 2 ∧ ¬ Constructs (2 ^ 32 + 2) :=
  ⟨(usable_iff (by decide)).mpr (by decide), fun h => absurd ((usable_iff (by decide)).mp h)
    (by decide)⟩

/-- The first capacity that goes wrong: the constructor returns, but links no node. -/
theorem usable_fails : ∃ c₀, Cache.new (2 ^ 31) = .ok c₀ ∧ ¬ Usable (2 ^ 31) c₀ := by
  rcases Cache.new_of_nonpos (C := 2 ^ 31) (by decide) (by decide) (by decide) with ⟨c₀, hnew⟩
  exact ⟨c₀, hnew, not_usable (Nat.le_refl _) hnew⟩

end LruCache
