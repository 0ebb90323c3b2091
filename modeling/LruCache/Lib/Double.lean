import Mathlib.Data.Int.Log
import Mathlib.Data.Rat.Floor
import Mathlib.Tactic.FieldSimp
import Mathlib.Tactic.Linarith
import Mathlib.Tactic.Positivity
import Mathlib.Tactic.Ring

/-!
# Floating-point numbers

The values of a binary floating-point format as rational numbers, and rounding to the nearest of
them. A format has `p` binary digits, and `emin` is the exponent of its smallest positive number;
`double` is IEEE 754's binary64. A program's `x * y` is `nearest p emin (x * y)`, and a decimal
literal is the value nearest to it.

Main results:

* `nearest_le`, `le_nearest`: rounding does not step over a value of the format;
* `nearest_error`, `nearest_le_mul`: how far it goes;
* `le_one_sub`: the largest value below one;
* `nearest_mul_lt`: a value below one times `n` stays below `n`, although it is rounded.

Deliberate scope limits: no infinities, no NaN and no signed zeros. Results are not tested for
overflow, so `nearest` is the rounding of the format as long as they stay below the largest value.
-/

namespace FloatingPoint

/-! ## Definitions -/

/-- The nearest integer; of two the even one. -/
def roundEven (x : ℚ) : ℤ :=
  if x - ⌊x⌋ < 1 / 2 then ⌊x⌋
  else if 1 / 2 < x - ⌊x⌋ then ⌊x⌋ + 1
  else if Even ⌊x⌋ then ⌊x⌋ else ⌊x⌋ + 1

/-- The exponent of the last digit of `x`. -/
def exponent (p : ℕ) (emin : ℤ) (x : ℚ) : ℤ := max (Int.log 2 |x| + 1 - p) emin

/-- The value of the format nearest to `x`, ties to even. -/
def nearest (p : ℕ) (emin : ℤ) (x : ℚ) : ℚ :=
  roundEven (x / 2 ^ exponent p emin x) * 2 ^ exponent p emin x

/-- The double nearest to `x`. -/
def double (x : ℚ) : ℚ := nearest 53 (-1074) x

example : double (95 / 100) = 95 / 100 - 1 / (5 * 2 ^ 52) := by decide +kernel

/-! ## Integers -/

section RoundEven

variable {x : ℚ} {m : ℤ}

/-- The rounding of a number is one of its two neighbours. -/
theorem roundEven_cases (x : ℚ) :
    roundEven x = ⌊x⌋ ∧ x - ⌊x⌋ ≤ 1 / 2 ∨ roundEven x = ⌊x⌋ + 1 ∧ 1 / 2 ≤ x - ⌊x⌋ := by
  unfold roundEven
  split_ifs with hlow hhigh heven
  · exact Or.inl ⟨rfl, hlow.le⟩
  · exact Or.inr ⟨rfl, hhigh.le⟩
  · exact Or.inl ⟨rfl, le_of_not_gt hhigh⟩
  · exact Or.inr ⟨rfl, le_of_not_gt hlow⟩

/-- It does not step over an integer above, -/
theorem roundEven_le (h : x ≤ m) : roundEven x ≤ m := by
  rcases roundEven_cases x with ⟨heq, _⟩ | ⟨heq, hhalf⟩
  · rw [heq]
    exact Int.floor_le_iff.mpr (lt_of_le_of_lt h (lt_add_one _))
  · rw [heq]
    -- `x` is not an integer, so it is below `m`
    have hlt : ⌊x⌋ < m := by
      have : (⌊x⌋ : ℚ) < m := by linarith
      exact_mod_cast this
    exact hlt

/-- nor over one below. -/
theorem le_roundEven (h : m ≤ x) : m ≤ roundEven x := by
  have hfloor : m ≤ ⌊x⌋ := Int.le_floor.mpr h
  rcases roundEven_cases x with ⟨heq, _⟩ | ⟨heq, _⟩ <;> omega

/-- It is off by half at most. -/
theorem roundEven_error (x : ℚ) : |roundEven x - x| ≤ 1 / 2 := by
  have hfloor := Int.floor_le x
  have hlt := Int.lt_floor_add_one x
  rcases roundEven_cases x with ⟨heq, hhalf⟩ | ⟨heq, hhalf⟩
  · rw [heq, abs_le]
    constructor <;> linarith
  · rw [heq, abs_le]
    push_cast
    constructor <;> linarith

end RoundEven

/-! ## Rounding -/

section Nearest

variable {p : ℕ} {emin k : ℤ} {x g : ℚ}

/-- The distance of the values of a format is positive. -/
theorem two_zpow_pos (k : ℤ) : (0 : ℚ) < 2 ^ k := zpow_pos (by norm_num) k

/-- On a finer grid lie all the values of a coarser one. -/
theorem grid_refines (hg : ∃ m : ℤ, g = m * 2 ^ k) {e : ℤ} (he : e ≤ k) :
    ∃ m : ℤ, g = m * 2 ^ e := by
  rcases hg with ⟨m, rfl⟩
  rcases Int.eq_ofNat_of_zero_le (sub_nonneg.mpr he) with ⟨n, hn⟩
  refine ⟨m * 2 ^ n, ?_⟩
  have hk : k = e + n := by omega
  rw [hk, zpow_add₀ (by norm_num), zpow_natCast]
  push_cast
  ring

/-- Rounding does not step over a value of the grid that it rounds to. -/
theorem nearest_le (h : x ≤ g) (hg : ∃ m : ℤ, g = m * 2 ^ k) (hk : exponent p emin x ≤ k) :
    nearest p emin x ≤ g := by
  rcases grid_refines hg hk with ⟨m, rfl⟩
  have hpos := two_zpow_pos (exponent p emin x)
  refine mul_le_mul_of_nonneg_right ?_ hpos.le
  exact_mod_cast roundEven_le ((div_le_iff₀ hpos).mpr h)

/-- Rounding does not step over a value of the format below. -/
theorem le_nearest (h : g ≤ x) (hg : ∃ m : ℤ, g = m * 2 ^ k) (hk : exponent p emin x ≤ k) :
    g ≤ nearest p emin x := by
  rcases grid_refines hg hk with ⟨m, rfl⟩
  have hpos := two_zpow_pos (exponent p emin x)
  refine mul_le_mul_of_nonneg_right ?_ hpos.le
  exact_mod_cast le_roundEven ((le_div_iff₀ hpos).mpr h)

/-- A value of the grid is not rounded. -/
theorem nearest_of_grid (hg : ∃ m : ℤ, x = m * 2 ^ k) (hk : exponent p emin x ≤ k) :
    nearest p emin x = x :=
  le_antisymm (nearest_le le_rfl hg hk) (le_nearest le_rfl hg hk)

/-- A rounded number is a multiple of the distance. -/
theorem nearest_mem_grid (p : ℕ) (emin : ℤ) (x : ℚ) :
    ∃ m : ℤ, nearest p emin x = m * 2 ^ exponent p emin x :=
  ⟨_, rfl⟩

/-- It is off by half the distance at most. -/
theorem nearest_error (p : ℕ) (emin : ℤ) (x : ℚ) :
    |nearest p emin x - x| ≤ 2 ^ exponent p emin x / 2 := by
  have hpos := two_zpow_pos (exponent p emin x)
  have hsplit : nearest p emin x - x =
      (roundEven (x / 2 ^ exponent p emin x) - x / 2 ^ exponent p emin x) *
        2 ^ exponent p emin x := by
    unfold nearest
    field_simp
  rw [hsplit, abs_mul, abs_of_pos hpos]
  have := mul_le_mul_of_nonneg_right (roundEven_error (x / 2 ^ exponent p emin x)) hpos.le
  linarith

/-- Smaller numbers lie closer together. -/
theorem exponent_le (hpos : 0 < x) (hx : x < 2 ^ (k + p)) (hk : emin ≤ k) :
    exponent p emin x ≤ k := by
  have hlog : Int.log 2 |x| < k + p := by
    rw [abs_of_pos hpos]
    exact (Int.lt_zpow_iff_log_lt (by norm_num) hpos).mp (by exact_mod_cast hx)
  exact max_le (by omega) hk

/-- Zero is a value. -/
theorem nearest_zero (p : ℕ) (emin : ℤ) : nearest p emin 0 = 0 := by
  have hzero : roundEven 0 = 0 := by decide +kernel
  rw [nearest, zero_div, hzero, Int.cast_zero, zero_mul]

/-- Rounding does not change the sign. -/
theorem nearest_nonneg (h : 0 ≤ x) : 0 ≤ nearest p emin x :=
  le_nearest h ⟨0, by simp⟩ le_rfl

/-- The relative error, and the absolute one next to zero. -/
theorem nearest_le_mul (hx : 0 ≤ x) :
    nearest p emin x ≤ x * (1 + 2 ^ (-p : ℤ)) + 2 ^ emin / 2 := by
  have hemin := two_zpow_pos emin
  have hp := two_zpow_pos (-p : ℤ)
  rcases hx.eq_or_lt with rfl | hpos
  · rw [nearest_zero, zero_mul]
    linarith
  · have herror := (abs_le.mp (nearest_error p emin x)).2
    have hlog := Int.zpow_log_le_self (R := ℚ) (b := 2) (by norm_num) hpos
    rcases max_cases (Int.log 2 |x| + 1 - p) emin with ⟨hexp, _⟩ | ⟨hexp, _⟩
    · -- half of the last digit is `2 ^ -p` times the first one
      have hdigit : (2 : ℚ) ^ exponent p emin x / 2 = 2 ^ Int.log 2 |x| * 2 ^ (-p : ℤ) := by
        rw [exponent, hexp, sub_eq_add_neg, zpow_add₀ (by norm_num), zpow_add₀ (by norm_num)]
        ring
      rw [abs_of_pos hpos] at hdigit
      have := mul_le_mul_of_nonneg_right hlog hp.le
      push_cast at this
      rw [hdigit] at herror
      linarith
    · have hdigit : (2 : ℚ) ^ exponent p emin x / 2 = 2 ^ emin / 2 := by rw [exponent, hexp]
      have := mul_nonneg hpos.le hp.le
      rw [hdigit] at herror
      linarith

end Nearest

/-! ## Values below one -/

section Unit

variable {p : ℕ} {emin : ℤ} {r s : ℚ} {n : ℕ}

/-- The largest value below one. -/
theorem le_one_sub (hvalue : nearest p emin r = r) (hlt : r < 1) (hp : 0 < p) (hmin : emin ≤ -p) :
    r ≤ 1 - 2 ^ (-p : ℤ) := by
  have hhalf : (2 : ℚ) ^ (-p : ℤ) ≤ 1 / 2 := by
    have := zpow_le_zpow_right₀ (one_le_two (α := ℚ)) (show (-p : ℤ) ≤ -1 by omega)
    norm_num at this ⊢
    exact this
  rcases le_or_gt r (1 / 2) with hlow | hhigh
  · linarith
  · -- from one half on the values are the multiples of `2 ^ -p`
    have hr : 0 < r := by linarith
    have hlog : Int.log 2 |r| = -1 := by
      rw [abs_of_pos hr]
      refine le_antisymm ?_ ?_
      · have := (Int.lt_zpow_iff_log_lt (b := 2) (x := 0) (by norm_num) hr).mp (by simpa using hlt)
        omega
      · exact (Int.zpow_le_iff_le_log (b := 2) (by norm_num) hr).mp (by norm_num; linarith)
    have hexp : exponent p emin r = -p := by
      rw [exponent, hlog]
      exact (max_eq_left (by omega)).trans (by omega)
    rcases nearest_mem_grid p emin r with ⟨m, hm⟩
    rw [hvalue, hexp] at hm
    have hgrid := two_zpow_pos (-p : ℤ)
    have hone : (2 : ℚ) ^ (p : ℤ) * 2 ^ (-p : ℤ) = 1 := by
      rw [← zpow_add₀ (by norm_num), add_neg_cancel, zpow_zero]
    have hless : (m : ℚ) < 2 ^ (p : ℤ) := by
      rw [hm, ← hone] at hlt
      exact lt_of_mul_lt_mul_right hlt hgrid.le
    have hle : m + 1 ≤ 2 ^ p := by
      rw [zpow_natCast] at hless
      exact_mod_cast hless
    have hle' : (m : ℚ) + 1 ≤ 2 ^ (p : ℤ) := by
      rw [zpow_natCast]
      exact_mod_cast hle
    have := mul_le_mul_of_nonneg_right hle' hgrid.le
    rw [hone, add_mul, ← hm, one_mul] at this
    linarith

/-- The error of a product with a value below one is less than what it lacks. -/
theorem nearest_mul_lt (hr : 0 ≤ r) (hle : r ≤ 1 - 2 ^ (-p : ℤ)) (hmin : emin ≤ -(2 * p : ℤ))
    (hn : 0 < n) : nearest p emin (r * n) < n := by
  have hn' : (1 : ℚ) ≤ n := by exact_mod_cast hn
  have hu := two_zpow_pos (-p : ℤ)
  have hmul := @nearest_le_mul p emin _ (mul_nonneg hr (by linarith : (0 : ℚ) ≤ n))
  have hsquare : (2 : ℚ) ^ emin ≤ 2 ^ (-p : ℤ) * 2 ^ (-p : ℤ) := by
    rw [← zpow_add₀ (by norm_num)]
    exact zpow_le_zpow_right₀ one_le_two (by omega)
  have hgap : r * n * (1 + 2 ^ (-p : ℤ)) ≤ n - n * (2 ^ (-p : ℤ) * 2 ^ (-p : ℤ)) := by
    have := mul_le_mul_of_nonneg_right hle
      (mul_nonneg (by linarith : (0 : ℚ) ≤ n) (by linarith : (0 : ℚ) ≤ 1 + 2 ^ (-p : ℤ)))
    calc r * n * (1 + 2 ^ (-p : ℤ)) = r * (n * (1 + 2 ^ (-p : ℤ))) := by ring
      _ ≤ (1 - 2 ^ (-p : ℤ)) * (n * (1 + 2 ^ (-p : ℤ))) := this
      _ = n - n * (2 ^ (-p : ℤ) * 2 ^ (-p : ℤ)) := by ring
  have hmany := mul_le_mul_of_nonneg_right hn' (mul_nonneg hu.le hu.le)
  have hemin := two_zpow_pos emin
  linarith

/-- So is the product of two values below one. -/
theorem nearest_mul_le_one_sub (hr : 0 ≤ r) (hrle : r ≤ 1 - 2 ^ (-p : ℤ)) (hs : 0 ≤ s)
    (hsle : s ≤ 1 - 2 ^ (-p : ℤ)) (hp : 0 < p) (hmin : emin ≤ -(2 * p : ℤ)) :
    nearest p emin (r * s) ≤ 1 - 2 ^ (-p : ℤ) := by
  have hu := two_zpow_pos (-p : ℤ)
  have hmul := @nearest_le_mul p emin _ (mul_nonneg hr hs)
  have hsquare : (2 : ℚ) ^ emin ≤ 2 ^ (-p : ℤ) * 2 ^ (-p : ℤ) := by
    rw [← zpow_add₀ (by norm_num)]
    exact zpow_le_zpow_right₀ one_le_two (by omega)
  have hhalf : (2 : ℚ) ^ (-p : ℤ) ≤ 1 / 2 := by
    have := zpow_le_zpow_right₀ (one_le_two (α := ℚ)) (show (-p : ℤ) ≤ -1 by omega)
    norm_num at this ⊢
    exact this
  have hprod : r * s ≤ (1 - 2 ^ (-p : ℤ)) * (1 - 2 ^ (-p : ℤ)) :=
    mul_le_mul hrle hsle hs (by linarith)
  have hgrow := mul_le_mul_of_nonneg_right hprod (by linarith : (0 : ℚ) ≤ 1 + 2 ^ (-p : ℤ))
  have hcube : 2 ^ (-p : ℤ) * 2 ^ (-p : ℤ) * 2 ^ (-p : ℤ) ≤
      2 ^ (-p : ℤ) * 2 ^ (-p : ℤ) * (1 / 2 : ℚ) :=
    mul_le_mul_of_nonneg_left hhalf (mul_nonneg hu.le hu.le)
  linarith

end Unit

end FloatingPoint
