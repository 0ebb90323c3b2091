import LruCache.Lib.Transition
import Mathlib.Algebra.BigOperators.Fin
import Mathlib.Algebra.BigOperators.Ring.Finset
import Mathlib.Algebra.Polynomial.Coeff
import Mathlib.Data.Nat.Choose.Sum

/-!
# Runs on drawn calls

A machine whose calls are drawn one by one. If in every state the draws together multiply the
weight of the state by the same factor, then so does each turn of the run (`sum_runTotal`). With
powers of a counter as weights this is the distribution of the counter (`card_count`).

Main results:

* `sum_runTotal` — the sum over all sequences of draws, as a power.
* `card_count` — how many sequences give a counter a certain value.
-/

namespace Transition

open Finset Polynomial

section Draws

variable {α ρ τ δ R : Type*} [Fintype δ] [CommSemiring R]

/-- The first draw, and the others. -/
theorem sum_first_draw {n : ℕ} (f : (Fin (n + 1) → δ) → R) :
    ∑ draws, f draws = ∑ d, ∑ draws : Fin n → δ, f (Fin.cons d draws) := by
  rw [← (Fin.consEquiv fun _ => δ).sum_comp, Fintype.sum_prod_type]
  rfl

/-- By induction over the turns, the sum over all sequences of draws is a power of the factor. -/
theorem sum_runTotal {next : α → τ → ρ × τ} {call : δ → α} {I : τ → Prop} {weight : τ → R}
    {factor : R} (hinv : ∀ d t, I t → I (next (call d) t).2)
    (hturn : ∀ t, I t → ∑ d, weight (next (call d) t).2 = weight t * factor) (n : ℕ) {t : τ}
    (h : I t) :
    ∑ draws : Fin n → δ, weight (runTotal next ((List.ofFn draws).map call) t).2 =
      weight t * factor ^ n := by
  induction n generalizing t with
  | zero => simp [runTotal]
  | succ n ih =>
    -- the first draw makes the state from which the others start
    have hrest : ∀ d : δ, ∑ draws : Fin n → δ,
        weight (runTotal next ((List.ofFn (Fin.cons d draws : Fin (n + 1) → δ)).map call) t).2 =
          weight (next (call d) t).2 * factor ^ n := by
      intro d
      rw [← ih (hinv d t h)]
      refine sum_congr rfl fun draws _ => ?_
      rw [List.ofFn_cons, List.map_cons]
      rfl
    calc _ = ∑ d, weight (next (call d) t).2 * factor ^ n := by
          rw [sum_first_draw]
          exact sum_congr rfl fun d _ => hrest d
      _ = weight t * factor ^ (n + 1) := by
          rw [← sum_mul, hturn t h, mul_assoc, pow_succ']

end Draws

/-- A counter that goes up for `a` draws of each turn and stays for the other `b`. -/
theorem card_count {δ : Type*} [Fintype δ] {count : δ → ℕ} {a b n : ℕ}
    (h : ∑ d, (X : ℕ[X]) ^ count d = (C a * X + C b) ^ n) (k : ℕ) :
    #{d | count d = k} = n.choose k * a ^ k * b ^ (n - k) := by
  have hterm : ∀ m, (C a * X) ^ m * C b ^ (n - m) * (n.choose m : ℕ[X]) =
      C (n.choose m * a ^ m * b ^ (n - m)) * X ^ m := by
    intro m
    rw [mul_pow, ← C_eq_natCast, C_mul, C_mul, C_pow, C_pow, Nat.cast_id]
    ring
  have hcoeff := congrArg (fun p => p.coeff k) h
  simp only [finsetSum_coeff, coeff_X_pow, add_pow, hterm, coeff_C_mul_X_pow] at hcoeff
  calc #{d | count d = k} = ∑ d, if k = count d then 1 else 0 := by
        rw [card_filter]
        exact sum_congr rfl fun d _ => by simp only [eq_comm]
    _ = ∑ m ∈ range (n + 1), if k = m then n.choose m * a ^ m * b ^ (n - m) else 0 := hcoeff
    _ = n.choose k * a ^ k * b ^ (n - k) := by
        rw [sum_ite_eq]
        split
        · rfl
        · rename_i hk
          rw [Nat.choose_eq_zero_of_lt (by rw [mem_range] at hk; omega), Nat.zero_mul, Nat.zero_mul]

end Transition
