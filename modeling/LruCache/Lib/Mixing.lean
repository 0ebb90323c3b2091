import Mathlib.Data.Int.CardIntervalMod
import Mathlib.Data.LawfulXor.Basic
import Mathlib.Data.Set.Card

/-!
# Mixing and masking

A word is mixed by adding a shifted copy of itself, where addition is `^^^`; if two shifts leave
nothing, doing it twice gives the word back. Masked words are residues: a map onto an initial
segment of the numbers hits every residue equally often, and distinct numbers with one residue
differ in a bit that the mask takes away.

Main results:

* `xorWith_involutive` — a step of the mixing is its own inverse.
* `ncard_mod_eq` — each residue is that of equally many words.
* `exists_testBit_ne` — words with the same residue differ in a bit above the mask.
-/

namespace Mixing

/-! ## Adding a shifted copy -/

section XorShift

variable {α : Type*} [XorOp α]

/-- `x ^= f(x)`, where `f` is a shift. -/
def xorWith (f : α → α) (x : α) : α := x ^^^ f x

variable [Zero α] [LawfulXor α] {f : α → α}

/-- Adding the shifted copy twice gives the word back, as two shifts leave nothing. -/
theorem xorWith_involutive (hadd : ∀ x y, f (x ^^^ y) = f x ^^^ f y) (hzero : ∀ x, f (f x) = 0) :
    Function.Involutive (xorWith f) := by
  intro x
  rw [xorWith, xorWith, hadd, hzero, xor_zero, xor_assoc, LawfulXor.xor_self, xor_zero]

end XorShift

/-! ## Buckets -/

section Buckets

variable {α : Type*} {f : α → ℕ} {d q r : ℕ}

/-- Each residue occurs equally often in a whole number of periods. -/
theorem card_filter_mod_eq (hr : r < d) :
    ((Finset.range (d * q)).filter fun n => n ≡ r [MOD d]).card = q := by
  have hd : 0 < d := Nat.zero_lt_of_lt hr
  rw [← Nat.count_eq_card_filter_range, Nat.count_modEq_card _ hd, Nat.mul_mod_right,
    if_neg (Nat.not_lt_zero _), Nat.add_zero, Nat.mul_div_cancel_left q hd]

/-- A numbering by `0, …, d * q - 1` gives every residue modulo `d` to `q` elements. -/
theorem ncard_mod_eq (hinj : Function.Injective f) (hrange : Set.range f = Set.Iio (d * q))
    (hr : r < d) : {x | f x % d = r}.ncard = q := by
  have himage : f '' {x | f x % d = r} =
      ((Finset.range (d * q)).filter fun n => n ≡ r [MOD d] : Finset ℕ) := by
    ext n
    simp only [Set.mem_image, Set.mem_ofPred_eq, Finset.coe_filter, Finset.mem_range]
    constructor
    · rintro ⟨x, hx, rfl⟩
      have hlt : f x ∈ Set.Iio (d * q) := hrange ▸ Set.mem_range_self x
      exact ⟨hlt, hx.trans (Nat.mod_eq_of_lt hr).symm⟩
    · rintro ⟨hlt, hmod⟩
      have hn : n ∈ Set.range f := hrange ▸ hlt
      rcases hn with ⟨x, rfl⟩
      exact ⟨x, Eq.trans hmod (Nat.mod_eq_of_lt hr), rfl⟩
  rw [← Set.ncard_image_of_injective _ hinj, himage, Set.ncard_coe_finset, card_filter_mod_eq hr]

/-- Distinct numbers below `2 ^ w` that agree below bit `m` differ at a bit from `m` on. -/
theorem exists_testBit_ne {w m x y : ℕ} (hx : x < 2 ^ w) (hy : y < 2 ^ w) (hne : x ≠ y)
    (hmod : x % 2 ^ m = y % 2 ^ m) : ∃ i, m ≤ i ∧ i < w ∧ x.testBit i ≠ y.testBit i := by
  rcases Nat.exists_testBit_ne_of_ne hne with ⟨i, hi⟩
  refine ⟨i, ?_, ?_, hi⟩
  · by_contra hlt
    have hbit := congrArg (fun n => n.testBit i) hmod
    simp only [Nat.testBit_mod_two_pow, decide_eq_true (Nat.lt_of_not_le hlt),
      Bool.true_and] at hbit
    exact hi hbit
  · by_contra hge
    have hpow : 2 ^ w ≤ 2 ^ i := Nat.pow_le_pow_right (by decide) (Nat.le_of_not_lt hge)
    rw [Nat.testBit_lt_two_pow (Nat.lt_of_lt_of_le hx hpow),
      Nat.testBit_lt_two_pow (Nat.lt_of_lt_of_le hy hpow)] at hi
    exact hi rfl

end Buckets

end Mixing
