import LruCache.Lib.LinearProbing
import Mathlib.Data.Finset.Card
import Mathlib.Combinatorics.Pigeonhole

/-!
# Which slots a linear-probing table occupies

Which entry sits in which slot of a valid table depends on the order of the insertions; which
slots are occupied does not (`Valid.empty_iff`). The reason is a count: the entries of a block
of occupied slots behind an empty one all have their homes in the block, so a table in which one
of these slots were empty would have to keep as many entries in one slot less.

Main results:

* `Valid.empty_iff` — two valid tables of the same keys have the same empty slots.

Deliberate scope limits:

* The two tables have the same homes and the same number of slots; their entries may be of
  different types.
-/

namespace LinearProbing

section Occupancy

variable {n : ℕ} {ε₁ ε₂ κ : Type*} {home : κ → ℕ} {keyOf₁ : ε₁ → κ} {keyOf₂ : ε₂ → κ}
variable {t₁ : ℕ → Option ε₁} {t₂ : ℕ → Option ε₂}

/-- From every slot a walk backwards reaches a last empty slot, if there is one at all: the slots
behind it, up to `e`, are occupied. -/
theorem exists_last_empty {t : ℕ → Option ε₁} (e : ℕ) {e₀ : ℕ} (he₀ : e₀ < n) (h : t e₀ = none) :
    ∃ a < n, t a = none ∧ ∀ i < n, hops n i e < hops n a e → t i ≠ none := by
  classical
  let empties := (Finset.range n).filter fun i => t i = none
  have hne : empties.Nonempty := ⟨e₀, by simp [empties, he₀, h]⟩
  rcases Finset.exists_min_image empties (fun i => hops n i e) hne with ⟨a, ha, hmin⟩
  simp only [empties, Finset.mem_filter, Finset.mem_range] at ha hmin
  refine ⟨a, ha.1, ha.2, ?_⟩
  intro i hi hlt hnone
  have hle := hmin i ⟨hi, hnone⟩
  omega

/-- An entry behind an empty slot has its home behind that slot. -/
theorem Valid.home_behind (hv : Valid n keyOf₁ home t₁) (hhome : ∀ k, home k < n) {a e j : ℕ}
    {x : ε₁} (ha : a < n) (hj : j < n) (hempty : t₁ a = none) (hx : t₁ j = some x)
    (hbehind : hops n j e < hops n a e) : hops n (home (keyOf₁ x)) e < hops n a e := by
  have hway : ¬ hops n (home (keyOf₁ x)) a < hops n (home (keyOf₁ x)) j :=
    fun hlt => hv.chain j x hj hx a ha hlt hempty
  have hh := hhome (keyOf₁ x)
  unfold hops at hbehind hway ⊢
  split_ifs at hbehind hway ⊢ <;> omega

/-- An entry whose home lies behind `a` stays between `a` and an empty slot `e`. -/
theorem Valid.slot_behind (hv : Valid n keyOf₁ home t₁) (hhome : ∀ k, home k < n) {a e j : ℕ}
    {x : ε₁} (ha : a < n) (he : e < n) (hj : j < n) (hempty : t₁ e = none) (hx : t₁ j = some x)
    (hbehind : hops n (home (keyOf₁ x)) e < hops n a e) : hops n j e < hops n a e := by
  have hway : ¬ hops n (home (keyOf₁ x)) e < hops n (home (keyOf₁ x)) j :=
    fun hlt => hv.chain j x hj hx e he hlt hempty
  have hh := hhome (keyOf₁ x)
  unfold hops at hbehind hway ⊢
  split_ifs at hbehind hway ⊢ <;> omega

/-- More keys occupy more slots. -/
theorem Valid.occupied_mono (h₁ : Valid n keyOf₁ home t₁) (h₂ : Valid n keyOf₂ home t₂)
    (hhome : ∀ k, home k < n) (hspare : ∃ j < n, t₁ j = none)
    (hkeys : ∀ j < n, ∀ x, t₁ j = some x → ∃ i < n, ∃ y, t₂ i = some y ∧ keyOf₂ y = keyOf₁ x)
    {e : ℕ} (he : e < n) (hocc : t₁ e ≠ none) : t₂ e ≠ none := by
  intro hempty
  rcases hspare with ⟨e₀, he₀, hnone⟩
  rcases exists_last_empty e he₀ hnone with ⟨a, ha, ha_empty, hbetween⟩
  have hae : a ≠ e := fun heq => hocc (heq ▸ ha_empty)
  -- the slots behind `a` up to `e` are occupied in `t₁`; their keys are in `t₂` before `e`
  let segment := (Finset.range n).filter fun i => hops n i e < hops n a e
  have hmem : ∀ i, i ∈ segment ↔ i < n ∧ hops n i e < hops n a e := by
    intro i
    simp only [segment, Finset.mem_filter, Finset.mem_range]
  have he_mem : e ∈ segment := by
    rw [hmem, hops_self]
    exact ⟨he, hops_pos ha hae⟩
  have hmove : ∀ i ∈ segment, ∃ j ∈ segment.erase e, ∃ x y, t₁ i = some x ∧ t₂ j = some y ∧
      keyOf₂ y = keyOf₁ x := by
    intro i hi
    rw [hmem] at hi
    rcases Option.ne_none_iff_exists'.mp (hbetween i hi.1 hi.2) with ⟨x, hx⟩
    rcases hkeys i hi.1 x hx with ⟨j, hj, y, hy, hkey⟩
    have hhome_x := h₁.home_behind hhome ha hi.1 ha_empty hx hi.2
    rw [← hkey] at hhome_x
    refine ⟨j, ?_, x, y, hx, hy, hkey⟩
    rw [Finset.mem_erase, hmem]
    refine ⟨?_, hj, h₂.slot_behind hhome ha he hj hempty hy hhome_x⟩
    rintro rfl
    rw [hempty] at hy
    cases hy
  choose! slot hslot hentry using hmove
  -- one slot too few: two of the keys would share a slot of `t₂`
  rcases Finset.exists_ne_map_eq_of_card_lt_of_maps_to
    (Finset.card_erase_lt_of_mem he_mem) hslot with ⟨i, hi, i', hi', hne, heq⟩
  rcases hentry i hi with ⟨x, y, hx, hy, hkey⟩
  rcases hentry i' hi' with ⟨x', y', hx', hy', hkey'⟩
  rw [heq, hy'] at hy
  cases hy
  exact hne (h₁.inj i i' x x' ((hmem i).mp hi).1 ((hmem i').mp hi').1 hx hx' (hkey ▸ hkey'))

/-- Tables with the same keys have the same empty slots. -/
theorem Valid.empty_iff (h₁ : Valid n keyOf₁ home t₁) (h₂ : Valid n keyOf₂ home t₂)
    (hhome : ∀ k, home k < n) (hspare₁ : ∃ j < n, t₁ j = none) (hspare₂ : ∃ j < n, t₂ j = none)
    (hkeys : ∀ k, (∃ j < n, ∃ x, t₁ j = some x ∧ keyOf₁ x = k) ↔
      ∃ j < n, ∃ y, t₂ j = some y ∧ keyOf₂ y = k)
    {e : ℕ} (he : e < n) : t₁ e = none ↔ t₂ e = none := by
  rw [← not_iff_not]
  constructor
  · refine h₁.occupied_mono h₂ hhome hspare₁ ?_ he
    intro j hj x hx
    exact (hkeys _).mp ⟨j, hj, x, hx, rfl⟩
  · refine h₂.occupied_mono h₁ hhome hspare₂ ?_ he
    intro j hj y hy
    exact (hkeys _).mpr ⟨j, hj, y, hy, rfl⟩

end Occupancy

end LinearProbing
