import Mathlib.Data.Nat.Basic
import Mathlib.Tactic.Choose

/-!
# Progress under fairness

Several threads take turns in an order of which only this is known: none of them is passed over
forever. A rank that no step raises and that some thread, the helpful one, lowers whenever it
gets its turn falls until the goal is reached.

Main results:

* `exists_fairRun` — threads that can always move have fair runs.
* `FairRun.reaches` — a fair run of threads that progress reaches the goal.
-/

namespace Transition

variable {ι σ : Type*}

/-- An infinite run in which every thread gets its turn again and again. -/
def FairRun (step : ι → σ → σ → Prop) (e : ℕ → σ) : Prop :=
  ∃ turn : ℕ → ι, (∀ i, step (turn i) (e i) (e (i + 1))) ∧ ∀ t i, ∃ j, i ≤ j ∧ turn j = t

/-- Until the goal is reached every step lowers the rank, or it is not one of the helpful
thread, leaves the rank as it is and the helpful thread helpful. -/
structure Progresses (step : ι → σ → σ → Prop) (I goal : σ → Prop) (rank : σ → ℕ)
    (helpful : σ → ι) : Prop where
  keeps : ∀ t s s', step t s s' → I s → I s'
  falls : ∀ t s s', step t s s' → I s → ¬ goal s →
    rank s' < rank s ∨ t ≠ helpful s ∧ rank s' = rank s ∧ helpful s' = helpful s

section Fair

variable {step : ι → σ → σ → Prop} {I goal : σ → Prop} {rank : σ → ℕ} {helpful : σ → ι}
variable {e : ℕ → σ}

theorem FairRun.invariant (h : FairRun step e) (hkeeps : ∀ t s s', step t s s' → I s → I s')
    (h₀ : I (e 0)) (k : ℕ) : I (e k) := by
  rcases h with ⟨turn, hstep, _⟩
  induction k with
  | zero => exact h₀
  | succ k ih => exact hkeeps _ _ _ (hstep k) ih

/-- If no thread is ever stuck, any order of turns in which each thread comes up again and again
gives a fair run. -/
theorem exists_fairRun {turn : ℕ → ι} (hturn : ∀ t i, ∃ j, i ≤ j ∧ turn j = t)
    (hkeeps : ∀ t s s', step t s s' → I s → I s') (hstep : ∀ t s, I s → ∃ s', step t s s')
    {s₀ : σ} (h₀ : I s₀) : ∃ e, FairRun step e ∧ e 0 = s₀ := by
  choose next hnext using fun (t : ι) (s : {s // I s}) => hstep t s.1 s.2
  let advance : ι → {s // I s} → {s // I s} :=
    fun t s => ⟨next t s, hkeeps t s.1 _ (hnext t s) s.2⟩
  let e : ℕ → {s // I s} := fun i => Nat.rec ⟨s₀, h₀⟩ (fun i s => advance (turn i) s) i
  refine ⟨fun i => (e i).1, ⟨turn, ?_, hturn⟩, rfl⟩
  intro i
  exact hnext (turn i) (e i)

/-- Up to the next turn of the helpful thread the rank falls, or nothing is lost. -/
theorem Progresses.until_turn (hp : Progresses step I goal rank helpful) {turn : ℕ → ι}
    (hstep : ∀ i, step (turn i) (e i) (e (i + 1))) (hI : ∀ k, I (e k)) (hno : ∀ k, ¬ goal (e k))
    (i d : ℕ) :
    (∃ m, rank (e m) < rank (e i)) ∨
      rank (e (i + d)) = rank (e i) ∧ helpful (e (i + d)) = helpful (e i) := by
  induction d with
  | zero => exact Or.inr ⟨rfl, rfl⟩
  | succ d ih =>
    rcases ih with hfell | ⟨hrank, hhelp⟩
    · exact Or.inl hfell
    · rcases hp.falls _ _ _ (hstep (i + d)) (hI _) (hno _) with hlt | ⟨_, hsame, hkept⟩
      · exact Or.inl ⟨i + d + 1, by rw [← hrank]; exact hlt⟩
      · exact Or.inr ⟨hsame.trans hrank, hkept.trans hhelp⟩

/-- A fair run reaches the goal. -/
theorem FairRun.reaches (h : FairRun step e) (hp : Progresses step I goal rank helpful)
    (h₀ : I (e 0)) : ∃ k, goal (e k) := by
  have hI := h.invariant hp.keeps h₀
  rcases h with ⟨turn, hstep, hfair⟩
  by_contra hno
  rw [not_exists] at hno
  -- the rank would fall again and again
  have hfall : ∀ i, ∃ m, rank (e m) < rank (e i) := by
    intro i
    rcases hfair (helpful (e i)) i with ⟨j, hij, hturn⟩
    rcases hp.until_turn hstep hI hno i (j - i) with hfell | ⟨hrank, hhelp⟩
    · exact hfell
    · rw [Nat.add_sub_cancel' hij] at hrank hhelp
      rcases hp.falls _ _ _ (hstep j) (hI j) (hno j) with hlt | ⟨hnot, _⟩
      · exact ⟨j + 1, by rw [← hrank]; exact hlt⟩
      · exact absurd (hturn.trans hhelp.symm) hnot
  have hdescent : ∀ r i, rank (e i) = r → False := by
    intro r
    induction r using Nat.strong_induction_on with
    | _ r ih =>
      intro i hi
      rcases hfall i with ⟨m, hm⟩
      exact ih (rank (e m)) (by omega) m rfl
  exact hdescent _ 0 rfl

end Fair

end Transition
