import LruCache.Lib.Flow
import Mathlib.Algebra.BigOperators.Expect
import Mathlib.Algebra.BigOperators.Fin
import Mathlib.Algebra.Order.BigOperators.Ring.Finset
import Mathlib.Logic.Equiv.Defs
import Mathlib.Order.Lattice.Nat
import Mathlib.Tactic.FieldSimp
import Mathlib.Tactic.Positivity

/-!
# The cost of linear probing on average

What keys cost in a linear-probing table of `n` slots, averaged over all hash functions into the
table. The flow at the home of a key is the one of the other keys (`Flow.eq_home`), and their flow
does not depend on that home; so the balance of the flow (`Flow.balance`) becomes a recurrence
between the averages for `k` and for `k - 1` keys, which has the solution `meanShift`. The bounds
that follow from it are the well-known ones: with a load of `α`, a search for a key that is there
looks at `(1 + 1 / (1 - α)) / 2` slots at most (`two_mul_meanShift_le`), one for a key that is not
there at `(1 + 1 / (1 - α) ^ 2) / 2` (`two_mul_meanShift_succ_sub_le`).

Main results:

* `expect_totalShift` — the mean of the sum of the ways, exactly, by a recurrence in the number of
  keys.
* `two_mul_meanShift_le`, `two_mul_meanShift_succ_sub_le` — the bounds in terms of the load.

Deliberate scope limits:

* All hash functions into the table are equally likely. Nothing is said of a fixed one.
-/

namespace LinearProbing

open Finset
open scoped BigOperators

/-! ## The flow of some keys -/

section Load

variable {κ : Type*} {n : ℕ} {home home' : κ → ℕ} {K : Finset κ} {k : κ}

/-- One key more adds to the load of its home. -/
theorem loadOf_insert [DecidableEq κ] (hk : k ∉ K) (i : ℕ) :
    loadOf home (insert k K) i = loadOf home K i + if i = home k then 1 else 0 := by
  rw [loadOf, loadOf, filter_insert]
  by_cases hi : home k = i
  · rw [if_pos hi, if_pos hi.symm, card_insert_of_notMem]
    exact fun hmem => hk (mem_filter.mp hmem).1
  · rw [if_neg hi, if_neg (Ne.symm hi), Nat.add_zero]

/-- The load depends on the homes of the keys only. -/
theorem loadOf_congr (h : ∀ k ∈ K, home k = home' k) :
    loadOf home K = loadOf home' K := by
  funext i
  refine congrArg Finset.card (filter_congr ?_)
  intro k hk
  rw [h k hk]

/-- A sum over the slots, each counted once for each of its keys. -/
theorem sum_mul_loadOf (hhome : ∀ k, home k < n) (f : ℕ → ℕ) :
    ∑ i ∈ range n, f i * loadOf home K i = ∑ k ∈ K, f (home k) := by
  have hmaps : ∀ k ∈ K, home k ∈ range n := fun k _ => mem_range.mpr (hhome k)
  rw [← sum_fiberwise_of_maps_to hmaps]
  refine sum_congr rfl ?_
  intro i _
  have hconst : ∀ k ∈ K.filter fun k => home k = i, f (home k) = f i := by
    intro k hk
    rw [(mem_filter.mp hk).2]
  rw [sum_const_nat hconst, loadOf, Nat.mul_comm]

/-- Every key has one home. -/
theorem sum_loadOf (hhome : ∀ k, home k < n) :
    ∑ i ∈ range n, loadOf home K i = #K := by
  have hsum := sum_mul_loadOf (K := K) hhome fun _ => 1
  simp only [one_mul] at hsum
  rw [hsum, card_eq_sum_ones]

/-- Keys that fit into the table have a flow. -/
theorem exists_flow [DecidableEq κ] (hhome : ∀ k, home k < n) (hn : 0 < n) (hfits : #K ≤ n) :
    ∃ c, Flow n (loadOf home K) c := by
  induction K using Finset.induction_on with
  | empty => exact ⟨_, flow_zero hn⟩
  | insert k K hk ih =>
    rw [card_insert_of_notMem hk] at hfits
    rcases ih (by omega) with ⟨c, hc⟩
    rcases hc.exists_first_free (by rw [sum_loadOf hhome]; omega) (home k) with
      ⟨e, he, hfree, hfirst⟩
    exact ⟨_, (hc.push (hhome k) he hfree hfirst fun i _ => loadOf_insert hk i).1⟩

end Load

open Classical in
/-- The flow for a load, if there is one. -/
noncomputable def flowOf (n : ℕ) (load : ℕ → ℕ) : ℕ → ℕ :=
  if h : ∃ c, Flow n load c then Classical.choose h else fun _ => 0

/-- How far the keys sit from home, taken together. -/
noncomputable def totalShift {κ : Type*} (n : ℕ) (home : κ → ℕ) (K : Finset κ) : ℕ :=
  ∑ i ∈ range n, flowOf n (loadOf home K) i

/-- How far the first free slot is from slot `a`. -/
noncomputable def toFree (n : ℕ) (load : ℕ → ℕ) (a : ℕ) : ℕ :=
  sInf {m | flowOf n load ((a + m) % n) + load ((a + m) % n) = 0}

section Shift

variable {κ : Type*} {n a e : ℕ} {home : κ → ℕ} {K : Finset κ} {k : κ}
variable {load c : ℕ → ℕ}

/-- The chosen flow is one, -/
theorem flow_flowOf (h : ∃ c, Flow n load c) : Flow n load (flowOf n load) := by
  rw [flowOf, dif_pos h]
  exact Classical.choose_spec h

/-- and the only one. -/
theorem flowOf_eq (h : Flow n load c) : ∀ i < n, flowOf n load i = c i :=
  (flow_flowOf ⟨c, h⟩).unique h fun _ _ => rfl

/-- The way to the first empty slot. -/
theorem toFree_eq (h : Flow n load c) (ha : a < n) (he : e < n) (hfree : c e + load e = 0)
    (hfirst : ∀ i < n, hops n a i < hops n a e → c i + load i ≠ 0) :
    toFree n load a = hops n a e := by
  have hmem : hops n a e ∈ {m | flowOf n load ((a + m) % n) + load ((a + m) % n) = 0} := by
    show flowOf n load ((a + hops n a e) % n) + load ((a + hops n a e) % n) = 0
    rw [add_hops_mod ha he, flowOf_eq h e he]
    exact hfree
  refine le_antisymm (Nat.sInf_le hmem) ?_
  by_contra hless
  have hfound := Nat.sInf_mem ⟨_, hmem⟩
  have hslot : (a + toFree n load a) % n < n := Nat.mod_lt _ (by omega)
  have hway : toFree n load a < n := by
    have := hops_lt ha he
    omega
  refine hfirst _ hslot ?_ ?_
  · rw [hops_add_mod ha hway]
    omega
  · rw [← flowOf_eq h _ hslot]
    exact hfound

/-- The total shift is the sum of the flow. -/
theorem totalShift_eq (h : Flow n load c) (hload : ∀ i < n, load i = loadOf home K i) :
    totalShift n home K = ∑ i ∈ range n, c i := by
  have hsame : Flow n (loadOf home K) c := by
    refine ⟨?_, h.idle⟩
    intro i hi
    rw [← hload i hi]
    exact h.step i hi
  refine sum_congr rfl ?_
  intro i hi
  exact flowOf_eq hsame i (mem_range.mp hi)

/-- One more key adds its way to the first free slot. -/
theorem totalShift_insert [DecidableEq κ] (hhome : ∀ k, home k < n)
    (hroom : #K < n) (hk : k ∉ K) :
    totalShift n home (insert k K) =
      totalShift n home K + toFree n (loadOf home K) (home k) := by
  have hflow := flow_flowOf (exists_flow hhome (Nat.zero_lt_of_lt hroom) hroom.le)
  rcases hflow.exists_first_free (by rw [sum_loadOf hhome]; exact hroom) (home k) with
    ⟨e, he, hfree, hfirst⟩
  rcases hflow.push (hhome k) he hfree hfirst fun i _ => loadOf_insert hk i with ⟨hmore, hsum⟩
  rw [totalShift_eq hmore fun _ _ => rfl, hsum, toFree_eq hflow (hhome k) he hfree hfirst]
  rfl

/-- What the keys cost, by the flow that each finds at its home. -/
theorem totalShift_balance [DecidableEq κ] (hhome : ∀ k, home k < n) (hn : 0 < n) (hfits : #K ≤ n) :
    2 * totalShift n home K + #K =
      2 * ∑ k ∈ K, flowOf n (loadOf home (K.erase k)) (home k) +
        ∑ k ∈ K, loadOf home K (home k) := by
  have hflow := flow_flowOf (exists_flow hhome hn hfits)
  have hbalance := hflow.balance
  rw [sum_loadOf hhome, sum_mul_loadOf hhome, sum_mul_loadOf hhome] at hbalance
  rw [totalShift, hbalance]
  congr 2
  refine sum_congr rfl ?_
  intro k hk
  have hother := flow_flowOf (exists_flow (K := K.erase k) hhome hn
    (le_trans (card_le_card (erase_subset k K)) hfits))
  have hload : ∀ i, loadOf home K i =
      loadOf home (K.erase k) i + if i = home k then 1 else 0 := by
    intro i
    rw [← loadOf_insert (notMem_erase k K), insert_erase hk]
  refine (hother.eq_home hflow (hhome k) ?_ ?_).symm
  · rw [hload]
    exact Nat.le_add_right _ _
  · intro i _ hi
    rw [hload, if_neg hi, Nat.add_zero]

end Shift

/-! ## The keys of a table -/

section Table

variable {ε κ : Type*} {n : ℕ} {keyOf : ε → κ} {home : κ → ℕ} {t : ℕ → Option ε}
variable {K : Finset κ}

/-- The ways of the keys from their homes do not depend on who sits where. -/
theorem Valid.sum_ways_eq_totalShift (hv : Valid n keyOf home t) (hhome : ∀ k, home k < n)
    (hspare : ∃ e < n, t e = none)
    (hstored : ∀ k, k ∈ K ↔ ∃ j < n, ∃ x, t j = some x ∧ keyOf x = k) {slot : κ → ℕ}
    (hslot : ∀ k ∈ K, slot k < n ∧ ∃ x, t (slot k) = some x ∧ keyOf x = k) :
    ∑ k ∈ K, hops n (home k) (slot k) = totalShift n home K := by
  rw [hv.sum_ways hstored hslot, ← sum_crossing hhome]
  exact (totalShift_eq (hv.flow hhome hspare) fun i _ => hv.homed_eq hstored i).symm

/-- How far the first empty slot is. -/
theorem Valid.toFree_eq_hops (hv : Valid n keyOf home t) (hhome : ∀ k, home k < n)
    (hstored : ∀ k, k ∈ K ↔ ∃ j < n, ∃ x, t j = some x ∧ keyOf x = k) {a e : ℕ} (ha : a < n)
    (he : e < n) (hempty : t e = none) (hfirst : ∀ i < n, hops n a i < hops n a e → t i ≠ none) :
    toFree n (loadOf home K) a = hops n a e := by
  have hload : homed n keyOf home t = loadOf home K := funext (hv.homed_eq hstored)
  rw [← hload]
  refine toFree_eq (hv.flow hhome ⟨e, he, hempty⟩) ha he ((hv.free_iff hhome he).mpr hempty) ?_
  intro i hi hlt hfree
  exact hfirst i hi hlt ((hv.free_iff hhome hi).mp hfree)

end Table

/-! ## Averages over the hash functions -/

/-- The mean shift of `k` keys in a table of `n` slots. -/
def meanShift (n : ℕ) : ℕ → ℚ
  | 0 => 0
  | k + 1 => (k + 1) / n * (meanShift n k + k / 2)

section Mean

variable {κ : Type*} [DecidableEq κ] {n : ℕ} {K : Finset κ} {k : κ}

/-- The homes of the other keys stay as they are. -/
theorem loadOf_update (h : κ → Fin n) (a : Fin n) :
    loadOf (fun k' => (Function.update h k a k' : ℕ)) (K.erase k) =
      loadOf (fun k' => (h k' : ℕ)) (K.erase k) := by
  refine loadOf_congr fun k' hk' => ?_
  rw [Function.update_of_ne (ne_of_mem_erase hk')]

variable [Fintype κ]

/-- The value at one key may be drawn again. -/
theorem expect_resample {β : Type*} [Fintype β] [Nonempty β] (k : κ) (g : (κ → β) → ℚ) :
    𝔼 h, g h = 𝔼 h, 𝔼 a, g (Function.update h k a) := by
  let swap : (κ → β) × β → (κ → β) × β := fun p => (Function.update p.1 k p.2, p.1 k)
  have hswap : Function.Involutive swap := by
    rintro ⟨h, a⟩
    refine Prod.ext ?_ ?_
    · show Function.update (Function.update h k a) k (h k) = h
      rw [Function.update_idem, Function.update_eq_self]
    · show Function.update h k a k = a
      exact Function.update_self ..
  calc 𝔼 h, g h
      = 𝔼 h, 𝔼 _a : β, g h := by
        refine expect_congr rfl fun h _ => ?_
        exact (Fintype.expect_const _).symm
    _ = 𝔼 p : (κ → β) × β, g p.1 := by
        rw [← univ_product_univ, expect_product]
    _ = 𝔼 p : (κ → β) × β, g (swap p).1 :=
        (Fintype.expect_equiv hswap.toPerm _ _ fun p => rfl).symm
    _ = 𝔼 h, 𝔼 a, g (Function.update h k a) := by
        rw [← univ_product_univ, expect_product]

/-- What does not depend on the home of `k` is met there as anywhere else. -/
theorem expect_at_home [NeZero n] (f : (κ → Fin n) → ℕ → ℚ)
    (hf : ∀ h a, f (Function.update h k a) = f h) :
    𝔼 h, f h (h k) = (𝔼 h, ∑ i ∈ range n, f h i) / n := by
  rw [expect_resample k, expect_div]
  refine expect_congr rfl fun h _ => ?_
  have hdraw : ∀ a ∈ (univ : Finset (Fin n)),
      f (Function.update h k a) ((Function.update h k a) k) = f h a := by
    intro a _
    rw [hf, Function.update_self]
  rw [expect_congr rfl hdraw, Fintype.expect_eq_sum_div_card, Fintype.card_fin,
    Fin.sum_univ_eq_sum_range fun i => f h i]

/-- The home of a key is any slot, whatever the other keys do; so the mean of the flow at it is
that over all slots. -/
theorem expect_flow_home [NeZero n] :
    𝔼 h : κ → Fin n, (flowOf n (loadOf (fun k => (h k : ℕ)) (K.erase k)) (h k) : ℚ) =
      (𝔼 h : κ → Fin n, (totalShift n (fun k => (h k : ℕ)) (K.erase k) : ℚ)) / n := by
  rw [expect_at_home fun h i => (flowOf n (loadOf (fun k => (h k : ℕ)) (K.erase k)) i : ℚ)]
  · congr 1
    refine expect_congr rfl fun h _ => ?_
    rw [totalShift, Nat.cast_sum]
  · intro h a
    rw [loadOf_update]

/-- Each of the other keys has the same home with the chance `1 / n`. -/
theorem expect_load_home [NeZero n] (hk : k ∈ K) :
    𝔼 h : κ → Fin n, (loadOf (fun k => (h k : ℕ)) K (h k) : ℚ) =
      1 + ((#K - 1 : ℕ) : ℚ) / n := by
  have hload : ∀ h ∈ (univ : Finset (κ → Fin n)),
      (loadOf (fun k => (h k : ℕ)) K (h k) : ℚ) =
        1 + (loadOf (fun k => (h k : ℕ)) (K.erase k) (h k) : ℚ) := by
    intro h _
    have hinsert : loadOf (fun k => (h k : ℕ)) (insert k (K.erase k)) (h k) = _ :=
      loadOf_insert (notMem_erase k K) (h k)
    rw [insert_erase hk, if_pos rfl] at hinsert
    rw [hinsert]
    push_cast
    ring
  rw [expect_congr rfl hload, expect_add_distrib, Fintype.expect_const,
    expect_at_home fun h i => (loadOf (fun k => (h k : ℕ)) (K.erase k) i : ℚ)]
  · congr 2
    have hsum : ∀ h ∈ (univ : Finset (κ → Fin n)),
        ∑ i ∈ range n, (loadOf (fun k => (h k : ℕ)) (K.erase k) i : ℚ) =
          ((#K - 1 : ℕ) : ℚ) := by
      intro h _
      rw [← Nat.cast_sum, sum_loadOf fun k => (h k).isLt, card_erase_of_mem hk]
    rw [expect_congr rfl hsum, Fintype.expect_const]
  · intro h a
    rw [loadOf_update]

/-- The recurrence: what the keys cost, by what they cost without one of them. -/
theorem expect_totalShift_balance [NeZero n] (hfits : #K ≤ n) :
    2 * (𝔼 h : κ → Fin n, (totalShift n (fun k => (h k : ℕ)) K : ℚ)) + #K =
      2 * ∑ k ∈ K,
          (𝔼 h : κ → Fin n, (totalShift n (fun k => (h k : ℕ)) (K.erase k) : ℚ)) / n +
        #K * (1 + ((#K - 1 : ℕ) : ℚ) / n) := by
  have hn : 0 < n := Nat.pos_of_neZero n
  have hbalance : ∀ h ∈ (univ : Finset (κ → Fin n)),
      (2 * totalShift n (fun k => (h k : ℕ)) K + #K : ℚ) =
        2 * ∑ k ∈ K, (flowOf n (loadOf (fun k => (h k : ℕ)) (K.erase k)) (h k) : ℚ) +
          ∑ k ∈ K, (loadOf (fun k => (h k : ℕ)) K (h k) : ℚ) := by
    intro h _
    exact_mod_cast totalShift_balance (fun k => (h k).isLt) hn hfits
  have hmean := expect_congr rfl hbalance
  rw [expect_add_distrib, expect_add_distrib, ← mul_expect, ← mul_expect, Fintype.expect_const,
    expect_sum_comm, expect_sum_comm] at hmean
  rw [hmean, sum_congr rfl fun k _ => expect_flow_home (K := K) (k := k),
    sum_congr rfl fun k hk => expect_load_home hk, sum_const, nsmul_eq_mul]

/-- The ways of the keys from home, over all hash functions. -/
theorem expect_totalShift [NeZero n] (hfits : #K ≤ n) :
    𝔼 h : κ → Fin n, (totalShift n (fun k => (h k : ℕ)) K : ℚ) = meanShift n #K := by
  have hn : (n : ℚ) ≠ 0 := Nat.cast_ne_zero.mpr (NeZero.ne n)
  induction hcard : #K generalizing K with
  | zero =>
    have hbalance := expect_totalShift_balance (K := K) hfits
    rw [card_eq_zero.mp hcard, sum_empty, card_empty, Nat.cast_zero] at hbalance
    rw [card_eq_zero.mp hcard, meanShift]
    linarith
  | succ m ih =>
    have hbalance := expect_totalShift_balance (K := K) hfits
    have hother : ∀ k ∈ K,
        (𝔼 h : κ → Fin n, (totalShift n (fun k => (h k : ℕ)) (K.erase k) : ℚ)) / n =
          meanShift n m / n := by
      intro k hk
      have hless : #(K.erase k) = m := by rw [card_erase_of_mem hk, hcard, Nat.add_sub_cancel]
      rw [ih (by omega) hless]
    rw [sum_congr rfl hother, sum_const, hcard, nsmul_eq_mul, Nat.add_sub_cancel,
      Nat.cast_succ] at hbalance
    rw [meanShift]
    field_simp at hbalance ⊢
    linarith

/-- The way of another key to a free slot. -/
theorem expect_toFree_home [NeZero n] (hroom : #K < n) (hk : k ∉ K) :
    𝔼 h : κ → Fin n, (toFree n (loadOf (fun k => (h k : ℕ)) K) (h k) : ℚ) =
      meanShift n (#K + 1) - meanShift n #K := by
  have hway : ∀ h ∈ (univ : Finset (κ → Fin n)),
      (toFree n (loadOf (fun k => (h k : ℕ)) K) (h k) : ℚ) =
        totalShift n (fun k => (h k : ℕ)) (insert k K) - totalShift n (fun k => (h k : ℕ)) K := by
    intro h _
    rw [totalShift_insert (fun k => (h k).isLt) hroom hk]
    push_cast
    ring
  rw [expect_congr rfl hway, expect_sub_distrib, expect_totalShift hroom.le,
    expect_totalShift (by rw [card_insert_of_notMem hk]; exact hroom), card_insert_of_notMem hk]

/-- The ways from all slots to the free ones. -/
theorem expect_sum_toFree [NeZero n] (hroom : #K < n) (hk : k ∉ K) :
    𝔼 h : κ → Fin n, ∑ i ∈ range n, (toFree n (loadOf (fun k => (h k : ℕ)) K) i : ℚ) =
      n * (meanShift n (#K + 1) - meanShift n #K) := by
  have hn : (n : ℚ) ≠ 0 := Nat.cast_ne_zero.mpr (NeZero.ne n)
  have hhome := expect_at_home (k := k)
    (fun (h : κ → Fin n) i => (toFree n (loadOf (fun k => (h k : ℕ)) K) i : ℚ)) (by
      intro h a
      have hsame := loadOf_update (K := K) (k := k) h a
      rw [erase_eq_of_notMem hk] at hsame
      rw [hsame])
  rw [expect_toFree_home hroom hk] at hhome
  rw [hhome]
  field_simp

end Mean

/-! ## Bounds -/

section Bounds

variable {n : ℕ}

/-- Ways have no negative length. -/
theorem meanShift_nonneg (n k : ℕ) : 0 ≤ meanShift n k := by
  induction k with
  | zero => exact le_rfl
  | succ k ih =>
    rw [meanShift]
    positivity

/-- With the load `α = k / n`, the mean way of a key from home is `α / (1 - α) / 2` at most. -/
theorem two_mul_meanShift_le {k : ℕ} (hk : k < n) :
    2 * (n - k) * meanShift n k ≤ k * (k - 1) := by
  induction k with
  | zero => simp [meanShift]
  | succ k ih =>
    have hn : (0 : ℚ) < n := by exact_mod_cast Nat.zero_lt_of_lt hk
    have hroom : (k : ℚ) + 1 < n := by exact_mod_cast hk
    have hih := ih (by omega)
    have hnonneg := meanShift_nonneg n k
    rw [meanShift]
    push_cast
    have hinner : 2 * (n - (k + 1)) * (meanShift n k + k / 2) ≤ n * k := by
      nlinarith
    calc 2 * ((n : ℚ) - (k + 1)) * ((k + 1) / n * (meanShift n k + k / 2))
        = (k + 1) / n * (2 * (n - (k + 1)) * (meanShift n k + k / 2)) := by ring
      _ ≤ (k + 1) / n * (n * k) := by gcongr
      _ = (k + 1) * (k + 1 - 1) := by field_simp; ring

/-- What the next key costs, by what the key before it costs. -/
theorem meanShift_succ_sub (hn : 0 < n) (k : ℕ) :
    n * (meanShift n (k + 2) - meanShift n (k + 1)) =
      (k + 1) * (meanShift n (k + 1) - meanShift n k) + meanShift n (k + 1) + (k + 1) := by
  have hn' : (n : ℚ) ≠ 0 := by exact_mod_cast hn.ne'
  have hthis : n * meanShift n (k + 2) = (k + 2) * (meanShift n (k + 1) + (k + 1) / 2) := by
    rw [meanShift]
    push_cast
    field_simp
    ring
  have hbefore : n * meanShift n (k + 1) = (k + 1) * (meanShift n k + k / 2) := by
    rw [meanShift]
    field_simp
  linarith

/-- With the load `α = k / n`, the mean way to a free slot is `(1 / (1 - α) ^ 2 - 1) / 2` at
most. -/
theorem two_mul_meanShift_succ_sub_le {k : ℕ} (hk : k < n) :
    2 * (n - k) ^ 2 * (meanShift n (k + 1) - meanShift n k) ≤ k * (2 * n - k) := by
  induction k with
  | zero => simp [meanShift]
  | succ k ih =>
    have hn : (0 : ℚ) < n := by exact_mod_cast Nat.zero_lt_of_lt hk
    have hstep := meanShift_succ_sub (Nat.zero_lt_of_lt hk) k
    have hshift := two_mul_meanShift_le hk
    have hih := ih (by omega)
    push_cast at hshift ⊢
    generalize meanShift n (k + 1 + 1) - meanShift n (k + 1) = u at hstep ⊢
    generalize meanShift n (k + 1) - meanShift n k = v at hstep hih
    generalize meanShift n (k + 1) = d at hstep hshift
    -- the slots that are left
    obtain ⟨b, hb⟩ : ∃ b : ℚ, b = n - (k + 1) := ⟨_, rfl⟩
    have hpos : 0 < b := by
      rw [hb, sub_pos]
      exact_mod_cast hk
    have hkb : (k : ℚ) = n - 1 - b := by linarith
    have hk0 : (0 : ℚ) ≤ k := Nat.cast_nonneg k
    rw [← hb] at hshift ⊢
    have hbefore : 2 * b ^ 2 * v ≤ n ^ 2 - b ^ 2 := by
      have hsquare : 2 * (b + 1) ^ 2 * v ≤ n ^ 2 - (b + 1) ^ 2 := by
        rw [hkb] at hih
        linarith
      have hless : b ^ 2 ≤ (b + 1) ^ 2 := by nlinarith
      have hscaled : b ^ 2 * (2 * (b + 1) ^ 2 * v) ≤ b ^ 2 * (n ^ 2 - (b + 1) ^ 2) := by gcongr
      have hcompare : b ^ 2 * n ^ 2 ≤ (b + 1) ^ 2 * n ^ 2 := by gcongr
      refine le_of_mul_le_mul_left ?_ (by positivity : (0 : ℚ) < (b + 1) ^ 2)
      linarith
    refine le_of_mul_le_mul_left ?_ hn
    calc (n : ℚ) * (2 * b ^ 2 * u)
        = 2 * b ^ 2 * (n * u) := by ring
      _ = (k + 1) * (2 * b ^ 2 * v) + b * (2 * b * d) + 2 * b ^ 2 * (k + 1) := by
          rw [hstep]
          ring
      _ ≤ (k + 1) * (n ^ 2 - b ^ 2) + b * ((k + 1) * (k + 1 - 1)) + 2 * b ^ 2 * (k + 1) := by
          gcongr
      _ = (k + 1) * (n ^ 2 + b * (b + k)) := by ring
      _ ≤ (k + 1) * (n * (2 * n - (k + 1))) := by
          gcongr
          rw [hkb]
          nlinarith
      _ = n * ((k + 1) * (2 * n - (k + 1))) := by ring

/-- If half of the table is empty, a key is half a slot away from home. -/
theorem meanShift_le_half {k : ℕ} (hhalf : 2 * k ≤ n) : 2 * meanShift n k ≤ k := by
  rcases Nat.eq_zero_or_pos k with rfl | hk
  · simp [meanShift]
  · have hle := two_mul_meanShift_le (n := n) (k := k) (by omega)
    have hroom : (2 * k : ℚ) ≤ n := by exact_mod_cast hhalf
    have hk' : (0 : ℚ) < k := by exact_mod_cast hk
    have hnonneg := meanShift_nonneg n k
    refine le_of_mul_le_mul_left ?_ hk'
    nlinarith

/-- If half of the table is empty, a free slot is three halves of a slot away. -/
theorem meanShift_succ_sub_le_half {k : ℕ} (hn : 0 < n) (hhalf : 2 * k ≤ n) :
    2 * (meanShift n (k + 1) - meanShift n k) ≤ 3 := by
  have hle := two_mul_meanShift_succ_sub_le (n := n) (k := k) (by omega)
  have hroom : (2 * k : ℚ) ≤ n := by exact_mod_cast hhalf
  have hn' : (0 : ℚ) < n := by exact_mod_cast hn
  have hk : (0 : ℚ) ≤ k := Nat.cast_nonneg k
  have hleft : (0 : ℚ) < n - k := by linarith
  refine le_of_mul_le_mul_left ?_ (by positivity : (0 : ℚ) < (n - k) ^ 2)
  nlinarith

/-- If half of the table is empty, the ways from all slots to the free ones are three slots for
each key, taken together. -/
theorem mul_meanShift_succ_sub_le_half {k : ℕ} (hn : 0 < n) (hhalf : 2 * k ≤ n) :
    n * (meanShift n (k + 1) - meanShift n k) ≤ 3 * k := by
  have hle := two_mul_meanShift_succ_sub_le (n := n) (k := k) (by omega)
  have hroom : (2 * k : ℚ) ≤ n := by exact_mod_cast hhalf
  have hn' : (0 : ℚ) < n := by exact_mod_cast hn
  have hk : (0 : ℚ) ≤ k := Nat.cast_nonneg k
  have hleft : (0 : ℚ) < n - k := by linarith
  have hquadratic : (n : ℚ) * (2 * n - k) ≤ 6 * (n - k) ^ 2 := by nlinarith
  refine le_of_mul_le_mul_left ?_ (by positivity : (0 : ℚ) < 2 * (n - k) ^ 2)
  calc 2 * ((n : ℚ) - k) ^ 2 * (n * (meanShift n (k + 1) - meanShift n k))
      = (n : ℚ) * (2 * (n - k) ^ 2 * (meanShift n (k + 1) - meanShift n k)) := by ring
    _ ≤ (n : ℚ) * (k * (2 * n - k)) := by gcongr
    _ = (k : ℚ) * (n * (2 * n - k)) := by ring
    _ ≤ (k : ℚ) * (6 * (n - k) ^ 2) := by gcongr
    _ = 2 * ((n : ℚ) - k) ^ 2 * (3 * k) := by ring

end Bounds

end LinearProbing
