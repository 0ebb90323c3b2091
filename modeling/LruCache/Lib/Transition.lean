import Mathlib.Logic.Function.Iterate
import Mathlib.Logic.Relation

/-!
# Runs, invariants and simulations

Two kinds of systems. A *machine* takes a list of calls one after the other, returns a result
for each, and may fault (`Except ε`). A *transition system* is a step relation with no
distinguished caller, for the interleaved systems. Each has one induction rule for what every run
preserves; the developments over it prove facts about single steps only.

Main results:

* `run_simulation`, `run_ok`: forward simulation and freedom from faults, for machines;
* `runTotal_invariant`, `runTotal_history`, `runTotal_lockstep`: invariants of a machine that never
  faults, with its history and for two machines at once;
* `Reachable.invariant`, `Reachable.refines`: invariants and refinement mappings of a transition
  system.
-/

namespace Transition

/-! ## Machines -/

section Machine

universe u

variable {α ρ σ τ ε : Type*}

/-- The calls of a machine in order, with the list of their results; a fault ends the run. -/
def run (step : α → σ → Except ε (ρ × σ)) : List α → σ → Except ε (List ρ × σ)
  | [], s => .ok ([], s)
  | a :: as, s => do
      let (r, s) ← step a s
      let (rs, s) ← run step as s
      return (r :: rs, s)

/-- The calls of a machine that never faults. -/
def runTotal (next : α → τ → ρ × τ) : List α → τ → List ρ × τ
  | [], t => ([], t)
  | a :: as, t =>
      let (r, t) := next a t
      let (rs, t) := runTotal next as t
      (r :: rs, t)

/-- A computation that ends well has a first part that does. -/
theorem bind_eq_ok {β γ : Type u} {x : Except ε β} {f : β → Except ε γ} {r : γ}
    (h : x >>= f = .ok r) : ∃ a, x = .ok a ∧ f a = .ok r := by
  cases x with
  | error e => cases h
  | ok a => exact ⟨a, rfl, h⟩

theorem run_cons_ok {step : α → σ → Except ε (ρ × σ)} {a : α} {as : List α} {s s' : σ} {r : ρ}
    (h : step a s = .ok (r, s')) :
    run step (a :: as) s = (run step as s').map fun out => (r :: out.1, out.2) := by
  have hrun : run step (a :: as) s =
      (run step as s' >>= fun out => pure (r :: out.1, out.2)) := by
    rw [run, h]
    rfl
  rw [hrun]
  cases run step as s' with
  | error e => rfl
  | ok out => rfl

theorem of_run_cons {step : α → σ → Except ε (ρ × σ)} {a : α} {as : List α} {s s'' : σ}
    {rs : List ρ} (h : run step (a :: as) s = .ok (rs, s'')) :
    ∃ r s' rs', step a s = .ok (r, s') ∧ run step as s' = .ok (rs', s'') ∧ rs = r :: rs' := by
  rcases bind_eq_ok h with ⟨⟨r, s'⟩, hstep, hrest⟩
  rcases bind_eq_ok hrest with ⟨⟨rs', s₁⟩, hrun, hend⟩
  cases hend
  exact ⟨r, s', rs', hstep, hrun, rfl⟩

/-- One more call at the end of a run. -/
theorem run_snoc_ok {step : α → σ → Except ε (ρ × σ)} {as : List α} {a : α} {s s' s'' : σ}
    {rs : List ρ} {r : ρ} (h : run step as s = .ok (rs, s')) (h' : step a s' = .ok (r, s'')) :
    run step (as ++ [a]) s = .ok (rs ++ [r], s'') := by
  induction as generalizing s rs with
  | nil =>
    cases h
    rw [List.nil_append, run_cons_ok h']
    rfl
  | cons b as ih =>
    rcases of_run_cons h with ⟨rb, sb, rest, hb, hrest, rfl⟩
    rw [List.cons_append, run_cons_ok hb, ih hrest]
    rfl

/-- Forward simulation: if every call of the machine answers as the reference does and leads to
a related state, so does every run. -/
theorem run_simulation {step : α → σ → Except ε (ρ × σ)} {next : α → τ → ρ × τ}
    {R : σ → τ → Prop}
    (hstep : ∀ a s t, R s t → ∃ s', step a s = .ok ((next a t).1, s') ∧ R s' (next a t).2)
    (as : List α) {s : σ} {t : τ} (h : R s t) :
    ∃ s', run step as s = .ok ((runTotal next as t).1, s') ∧ R s' (runTotal next as t).2 := by
  -- on the calls; the relation `R` is what one call hands to the next
  induction as generalizing s t with
  | nil => exact ⟨s, rfl, h⟩
  | cons a as ih =>
    rcases hstep a s t h with ⟨s₁, hs₁, h₁⟩
    rcases ih h₁ with ⟨s₂, hs₂, h₂⟩
    refine ⟨s₂, ?_, h₂⟩
    rw [run_cons_ok hs₁, hs₂]
    rfl

/-- If an invariant keeps every call from faulting, no run faults. -/
theorem run_ok {step : α → σ → Except ε (ρ × σ)} {I : σ → Prop}
    (hstep : ∀ a s, I s → ∃ r s', step a s = .ok (r, s') ∧ I s') (as : List α) {s : σ}
    (h : I s) : ∃ rs s', run step as s = .ok (rs, s') ∧ I s' := by
  induction as generalizing s with
  | nil => exact ⟨[], s, rfl, h⟩
  | cons a as ih =>
    rcases hstep a s h with ⟨r, s₁, hs₁, h₁⟩
    rcases ih h₁ with ⟨rs, s₂, hs₂, h₂⟩
    refine ⟨r :: rs, s₂, ?_, h₂⟩
    rw [run_cons_ok hs₁, hs₂]
    rfl

/-- Answers may be translated call by call or all at once. -/
theorem runTotal_map {ρ' : Type*} (f : ρ → ρ') (next : α → τ → ρ × τ) (as : List α) (t : τ) :
    runTotal (fun a t => (f (next a t).1, (next a t).2)) as t =
      ((runTotal next as t).1.map f, (runTotal next as t).2) := by
  induction as generalizing t with
  | nil => rfl
  | cons a as ih => simp only [runTotal, ih, List.map_cons]

/-- What every call of a total machine preserves, every run preserves. -/
theorem runTotal_invariant {next : α → τ → ρ × τ} {I : τ → Prop}
    (hstep : ∀ a t, I t → I (next a t).2) (as : List α) {t : τ} (h : I t) :
    I (runTotal next as t).2 := by
  induction as generalizing t with
  | nil => exact h
  | cons a as ih => exact ih (hstep a t h)

theorem runTotal_append (next : α → τ → ρ × τ) (as bs : List α) (t : τ) :
    (runTotal next (as ++ bs) t).2 = (runTotal next bs (runTotal next as t).2).2 := by
  induction as generalizing t with
  | nil => rfl
  | cons a as ih => exact ih (next a t).2

/-- A loop over `i < n`: what the call of each turn carries over to the next turn. -/
theorem runTotal_loop {next : α → τ → ρ × τ} {call : Nat → α} {I : Nat → τ → Prop} {n : Nat}
    (hstep : ∀ i t, i < n → I i t → I (i + 1) (next (call i) t).2) {t : τ} (h : I 0 t) :
    I n (runTotal next ((List.range n).map call) t).2 := by
  induction n with
  | zero => exact h
  | succ n ih =>
    have hn := ih fun i t hi => hstep i t (Nat.lt_succ_of_lt hi)
    rw [List.range_succ, List.map_append, runTotal_append]
    exact hstep n _ (Nat.lt_succ_self n) hn

/-- Two total machines in lockstep: what every pair of calls preserves, every pair of runs
preserves. -/
theorem runTotal_lockstep {τ' ρ' : Type*} {next : α → τ → ρ × τ} {next' : α → τ' → ρ' × τ'}
    {R : τ → τ' → Prop} (hstep : ∀ a t t', R t t' → R (next a t).2 (next' a t').2)
    (as : List α) {t : τ} {t' : τ'} (h : R t t') :
    R (runTotal next as t).2 (runTotal next' as t').2 := by
  induction as generalizing t t' with
  | nil => exact h
  | cons a as ih => exact ih (hstep a t t' h)

/-- An invariant over the history of a run: calls with their results so far, and the state. -/
theorem runTotal_history {next : α → τ → ρ × τ} {I : List (α × ρ) → τ → Prop}
    (hstep : ∀ h a t, I h t → I (h ++ [(a, (next a t).1)]) (next a t).2)
    (as : List α) {h : List (α × ρ)} {t : τ} (hI : I h t) :
    I (h ++ as.zip (runTotal next as t).1) (runTotal next as t).2 := by
  -- on the calls still to come, the history being what is already behind them
  induction as generalizing h t with
  | nil => simpa [runTotal] using hI
  | cons a as ih =>
    have h' := ih (hstep h a t hI)
    rw [List.append_assoc] at h'
    exact h'

/-- `k` steps of a machine that takes no calls. -/
def steps {ε : Type*} {σ : Type u} (step : σ → Except ε σ) : Nat → σ → Except ε σ
  | 0, s => .ok s
  | k + 1, s => do
      let s ← step s
      steps step k s

/-- Forward simulation for machines without calls. -/
theorem steps_simulation {ε τ : Type*} {σ : Type u} {step : σ → Except ε σ} {next : τ → τ}
    {R : σ → τ → Prop} (hstep : ∀ s t, R s t → ∃ s', step s = .ok s' ∧ R s' (next t)) (k : Nat)
    {s : σ} {t : τ} (h : R s t) : ∃ s', steps step k s = .ok s' ∧ R s' (next^[k] t) := by
  induction k generalizing s t with
  | zero => exact ⟨s, rfl, h⟩
  | succ k ih =>
    rcases hstep s t h with ⟨s₁, hs₁, h₁⟩
    rcases ih h₁ with ⟨s₂, hs₂, h₂⟩
    refine ⟨s₂, ?_, h₂⟩
    rw [steps, hs₁]
    exact hs₂

/-- The run of a schedule, whose entries say who moves next; a fault ends it. -/
def play {κ ε : Type*} {σ : Type u} (move : κ → σ → Except ε σ) : List κ → σ → Except ε σ
  | [], s => .ok s
  | k :: ks, s => do
      let s ← move k s
      play move ks s

end Machine

/-! ## Transition systems -/

section System

variable {σ τ : Type*}

/-- A state that some sequence of steps leads to from an initial state. -/
def Reachable (init : σ → Prop) (step : σ → σ → Prop) (s : σ) : Prop :=
  ∃ s₀, init s₀ ∧ Relation.ReflTransGen step s₀ s

theorem Reachable.start {init : σ → Prop} {step : σ → σ → Prop} {s : σ} (h : init s) :
    Reachable init step s :=
  ⟨s, h, .refl⟩

theorem Reachable.tail {init : σ → Prop} {step : σ → σ → Prop} {s s' : σ}
    (h : Reachable init step s) (hs : step s s') : Reachable init step s' := by
  rcases h with ⟨s₀, h₀, hr⟩
  exact ⟨s₀, h₀, hr.tail hs⟩

/-- What a schedule of moves leads to is reachable. -/
theorem Reachable.play {κ ε : Type*} {init : σ → Prop} {step : σ → σ → Prop}
    {move : κ → σ → Except ε σ} (hmove : ∀ k s s', move k s = .ok s' → step s s') {s s' : σ}
    (h : Reachable init step s) (ks : List κ) (hrun : play move ks s = .ok s') :
    Reachable init step s' := by
  induction ks generalizing s with
  | nil =>
    cases hrun
    exact h
  | cons k ks ih =>
    rcases bind_eq_ok hrun with ⟨s₁, hstep, hrest⟩
    exact ih (h.tail (hmove k s s₁ hstep)) hrest

/-- What holds initially and is preserved by every step holds in every reachable state. -/
theorem Reachable.invariant {init : σ → Prop} {step : σ → σ → Prop} {I : σ → Prop}
    (hinit : ∀ s, init s → I s) (hstep : ∀ s s', step s s' → I s → I s')
    {s : σ} (h : Reachable init step s) : I s := by
  rcases h with ⟨s₀, h₀, hr⟩
  induction hr with
  | refl => exact hinit s₀ h₀
  | tail _ hs ih => exact hstep _ _ hs ih

/-- Refinement mapping: if every step from a reachable state is a step of the other system or
leaves the mapped state as it is, reachable states are mapped to reachable ones. -/
theorem Reachable.refines {init : σ → Prop} {step : σ → σ → Prop} {init' : τ → Prop}
    {step' : τ → τ → Prop} {f : σ → τ} (hinit : ∀ s, init s → init' (f s))
    (hstep : ∀ s s', Reachable init step s → step s s' → f s' = f s ∨ step' (f s) (f s'))
    {s : σ} (h : Reachable init step s) : Reachable init' step' (f s) := by
  rcases h with ⟨s₀, h₀, hr⟩
  induction hr with
  | refl => exact Reachable.start (hinit s₀ h₀)
  | tail hr hs ih =>
    rcases hstep _ _ ⟨s₀, h₀, hr⟩ hs with heq | hs'
    · rw [heq]
      exact ih
    · exact ih.tail hs'

end System

end Transition
