import LruCache.Cache.Probes

/-!
# What a search costs on average

The table has at least two slots for each node, "to minimize probe lengths". How long the probes
are depends on the hash function. Averaged over all hash functions into the table, however large
the cache is and whatever happened before, to find the stored keys costs at most a slot and a half
for each of them, to look for another key two and a half, and to remove the stored keys, each from
the same table, four and a half for each.

Main results:

* `mean_costs`: the exact means, which depend on the number of stored keys only, and the bounds.

Deliberate scope limits: for stored keys the mean is taken over the keys as well. Which of them had
to give way depends on the order of insertion, and a key that came late can be further from its
home on average than the bound says.
-/

namespace LruCache

open LinearProbing Recency Transition
open scoped BigOperators

/-! ## The costs -/

/-- To find each of `k` stored keys. -/
def findCost (n k : Nat) : ℚ := k + meanShift n k

/-- To look for a key that is not one of the `k` stored keys. -/
def missCost (n k : Nat) : ℚ := 1 + (meanShift n (k + 1) - meanShift n k)

/-- To remove each of `k` stored keys. -/
def removeCost (n k : Nat) : ℚ := findCost n k + n * (meanShift n (k + 1) - meanShift n k)

section Bounds

variable {n k : Nat}

/-- At most half of the slots are occupied, and the cost of finding all keys is at most three
halves of a slot for each. -/
theorem findCost_le (hhalf : 2 * k ≤ n) : 2 * findCost n k ≤ 3 * k := by
  have hshift := meanShift_le_half hhalf
  rw [findCost]
  linarith

/-- A search that fails reads at most two slots and a half. -/
theorem missCost_le (hn : 0 < n) (hhalf : 2 * k ≤ n) : 2 * missCost n k ≤ 5 := by
  have hstep := meanShift_succ_sub_le_half hn hhalf
  rw [missCost]
  linarith

/-- And a removal, with the shift, four and a half. -/
theorem removeCost_le (hn : 0 < n) (hhalf : 2 * k ≤ n) : 2 * removeCost n k ≤ 9 * k := by
  have hfind := findCost_le hhalf
  have hways := mul_meanShift_succ_sub_le_half hn hhalf
  rw [removeCost]
  linarith

end Bounds

/-! ## All hash functions -/

/-- The keys are finitely many, so that hash functions can be averaged over. -/
instance fintypeUInt64 : Fintype UInt64 :=
  Fintype.ofEquiv (Fin (2 ^ 64)) ⟨UInt64.ofFin, UInt64.toFin, fun _ => rfl, fun _ => rfl⟩

/-- There are more keys than any cache has room for. -/
theorem exists_other_key (stored : Finset UInt64) (h : stored.card < 2 ^ 64) :
    ∃ key, key ∉ stored := by
  by_contra hall
  have huniv : stored = Finset.univ :=
    Finset.eq_univ_of_forall fun key => by_contra fun hkey => hall ⟨key, hkey⟩
  have hcard : Fintype.card UInt64 = 2 ^ 64 := (Fintype.ofEquiv_card _).trans (Fintype.card_fin _)
  rw [huniv, Finset.card_univ, hcard] at h
  exact lt_irrefl _ h

section Mean

variable {n cap : Nat} {final : (UInt64 → Fin n) → Cache} {stored : Finset UInt64}

/-- The mean number of slots that are read to find all stored keys. -/
theorem expect_sum_slotsRead [NeZero n] (hfits : stored.card ≤ n)
    (hrep : ∀ h, ∃ order free t, Rep (fun k => (h k : Nat)) cap (final h) order free n t)
    (hstored : ∀ h, storedKeys (final h) = stored) :
    𝔼 h, ((∑ key ∈ stored, (final h).slotsRead (fun k => (h k : Nat)) key : Nat) : ℚ) =
      findCost n stored.card := by
  have hread : ∀ h ∈ (Finset.univ : Finset (UInt64 → Fin n)),
      ((∑ key ∈ stored, (final h).slotsRead (fun k => (h k : Nat)) key : Nat) : ℚ) =
        stored.card + totalShift n (fun k => (h k : Nat)) stored := by
    intro h _
    rcases hrep h with ⟨order, free, t, hrep⟩
    have hsum := hrep.sum_slotsRead
    rw [hstored h] at hsum
    exact_mod_cast hsum
  rw [Finset.expect_congr rfl hread, Finset.expect_add_distrib, Fintype.expect_const,
    expect_totalShift hfits, findCost]

/-- The mean number of slots that are read to look for a key that is not stored. -/
theorem expect_slotsRead_absent [NeZero n] (hroom : stored.card < n)
    (hrep : ∀ h, ∃ order free t, Rep (fun k => (h k : Nat)) cap (final h) order free n t)
    (hstored : ∀ h, storedKeys (final h) = stored) {key : UInt64} (hkey : key ∉ stored) :
    𝔼 h, ((final h).slotsRead (fun k => (h k : Nat)) key : ℚ) =
      missCost n stored.card := by
  have hread : ∀ h ∈ (Finset.univ : Finset (UInt64 → Fin n)),
      ((final h).slotsRead (fun k => (h k : Nat)) key : ℚ) =
        1 + toFree n (loadOf (fun k => (h k : Nat)) stored) (h key) := by
    intro h _
    rcases hrep h with ⟨order, free, t, hrep⟩
    have hnot : key ∉ storedKeys (final h) := by
      rw [hstored h]
      exact hkey
    have hsum := hrep.slotsRead_absent hnot
    rw [hstored h] at hsum
    exact_mod_cast hsum
  rw [Finset.expect_congr rfl hread, Finset.expect_add_distrib, Fintype.expect_const,
    expect_toFree_home hroom hkey, missCost]

/-- The mean number of slots that are read to remove every stored key, each from the same table. -/
theorem expect_sum_removeReads [NeZero n] (hroom : stored.card < n)
    (hrep : ∀ h, ∃ order free t, Rep (fun k => (h k : Nat)) cap (final h) order free n t)
    (hstored : ∀ h, storedKeys (final h) = stored) {other : UInt64} (hother : other ∉ stored) :
    𝔼 h, ((∑ key ∈ stored, (final h).removeReads (fun k => (h k : Nat)) key : Nat) : ℚ) =
      removeCost n stored.card := by
  have hread : ∀ h ∈ (Finset.univ : Finset (UInt64 → Fin n)),
      ((∑ key ∈ stored, (final h).removeReads (fun k => (h k : Nat)) key : Nat) : ℚ) =
        stored.card + totalShift n (fun k => (h k : Nat)) stored +
          ∑ i ∈ Finset.range n, (toFree n (loadOf (fun k => (h k : Nat)) stored) i : ℚ) := by
    intro h _
    rcases hrep h with ⟨order, free, t, hrep⟩
    have hsum := hrep.sum_removeReads
    rw [hstored h] at hsum
    exact_mod_cast hsum
  rw [Finset.expect_congr rfl hread, Finset.expect_add_distrib, Finset.expect_add_distrib,
    Fintype.expect_const, expect_totalShift hroom.le, expect_sum_toFree hroom hother, removeCost,
    findCost]

end Mean

/-- **Mean costs.** After any calls, averaged over all hash functions into the table: to look for a
key that is not stored costs `5 / 2` slots at most; averaged over the stored keys too, to find one
costs `3 / 2`, and to remove one `9 / 2`. What they cost exactly is decided by how many keys are
stored. -/
theorem mean_costs {C : Nat} (hpos : 0 < C) (hlt : C < 2 ^ 31) :
    ∃ c₀ n, Cache.new C = .ok c₀ ∧ c₀.hashTable.length = n ∧ ∀ ops : List Call,
      ∃ (rs : List Returned) (stored : Finset UInt64) (final : (UInt64 → Fin n) → Cache),
        (∀ h, run (Cache.step fun k => (h k : Nat)) ops c₀ = .ok (rs, final h) ∧
          storedKeys (final h) = stored) ∧
        (𝔼 h, ((∑ key ∈ stored, (final h).slotsRead (fun k => (h k : Nat)) key : Nat) : ℚ)) =
          findCost n stored.card ∧
        (∀ key ∉ stored, (𝔼 h, ((final h).slotsRead (fun k => (h k : Nat)) key : ℚ)) =
          missCost n stored.card) ∧
        (𝔼 h, ((∑ key ∈ stored, (final h).removeReads (fun k => (h k : Nat)) key : Nat) : ℚ)) =
          removeCost n stored.card ∧
        2 * findCost n stored.card ≤ 3 * stored.card ∧ 2 * missCost n stored.card ≤ 5 ∧
        2 * removeCost n stored.card ≤ 9 * stored.card := by
  rcases Cache.new_ok hpos hlt with ⟨c₀, hnew, _, hlen, _⟩
  rcases Sim.new hpos hlt with ⟨c₁, hnew', _, hsim⟩
  rw [hnew] at hnew'
  cases hnew'
  have hhalf : 2 * C ≤ c₀.hashTable.length := by
    rw [hlen, Nat.mul_comm]
    exact Nat.le_pow_clog (by omega) _
  have hzero : NeZero c₀.hashTable.length := ⟨by omega⟩
  refine ⟨c₀, _, hnew, rfl, ?_⟩
  intro ops
  have hruns : ∀ h : UInt64 → Fin c₀.hashTable.length, ∃ c,
      run (Cache.step fun k => (h k : Nat)) ops c₀ =
        .ok ((runTotal referenceStep ops (State.init C hpos)).1, c) ∧
      Sim (fun k => (h k : Nat)) c (runTotal referenceStep ops (State.init C hpos)).2 :=
    fun h => (hsim _ fun k => (h k).isLt).run ops
  choose final hrun hfinal using hruns
  have hcap := cap_reference hpos ops
  have hrep : ∀ h, ∃ order free t,
      Rep (fun k => (h k : Nat)) C (final h) order free c₀.hashTable.length t := by
    intro h
    rcases (hfinal h).holds with ⟨order, free, n, t, hrep, _⟩
    have hn : n = c₀.hashTable.length := by
      rw [← hrep.table.slots.length, (run_shape (hrun h)).table]
    rw [hcap, hn] at hrep
    exact ⟨order, free, t, hrep⟩
  -- the keys are those of the reference, which knows of no hash function
  have hstored : ∀ h, storedKeys (final h) =
      (keys (runTotal referenceStep ops (State.init C hpos)).2.store.items).toFinset := by
    intro h
    rw [storedKeys, (hfinal h).holds.pairs_eq]
  have hcard : (keys (runTotal referenceStep ops (State.init C hpos)).2.store.items).toFinset.card
      ≤ C := by
    refine (List.toFinset_card_le _).trans ?_
    rw [keys, List.length_map]
    exact (Store.length_le _).trans hcap.le
  generalize (keys (runTotal referenceStep ops (State.init C hpos)).2.store.items).toFinset = stored
    at hstored hcard
  have hload : 2 * stored.card ≤ c₀.hashTable.length := by omega
  have hroom : stored.card < c₀.hashTable.length := by omega
  rcases exists_other_key stored (by omega) with ⟨other, hother⟩
  exact ⟨_, stored, final, fun h => ⟨hrun h, hstored h⟩,
    expect_sum_slotsRead hroom.le hrep hstored,
    fun key hkey => expect_slotsRead_absent hroom hrep hstored hkey,
    expect_sum_removeReads hroom hrep hstored hother, findCost_le hload,
    missCost_le (by omega) hload, removeCost_le (by omega) hload⟩

/-- The key 4, which has been evicted. -/
theorem mean_costs_two : ∃ (c₀ : Cache) (final : (UInt64 → Fin 4) → Cache),
    Cache.new 2 = .ok c₀ ∧ (∀ h, ∃ rs, run (Cache.step fun k => (h k : Nat))
      [.put 4 10, .put 7 30, .put 5 20] c₀ = .ok (rs, final h)) ∧
    2 * (𝔼 h, ((final h).slotsRead (fun k => (h k : Nat)) 4 : ℚ)) ≤ 5 := by
  rcases mean_costs (C := 2) (by decide) (by decide) with ⟨c₀, n, hnew, hlen, hall⟩
  have hn : n = 4 := by
    have hcheck : (Cache.new 2).map (fun c => c.hashTable.length) = .ok 4 := by decide +kernel
    rw [hnew] at hcheck
    exact hlen.symm.trans (Except.ok.inj hcheck)
  subst hn
  rcases hall [.put 4 10, .put 7 30, .put 5 20] with
    ⟨rs, stored, final, hrun, _, hother, _, _, hmiss, _⟩
  have hnot : (4 : UInt64) ∉ stored := by
    rw [← (hrun fun _ => 0).2, storedKeys_of_check (h := fun _ _ => 0) (r := [5, 7]) hnew
      (hrun fun _ => 0).1 (by decide +kernel)]
    decide
  refine ⟨c₀, final, hnew, fun h => ⟨rs, (hrun h).1⟩, ?_⟩
  rw [hother 4 hnot]
  exact hmiss

end LruCache
