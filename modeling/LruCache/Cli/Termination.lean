import LruCache.Cli.Refinement
import Mathlib.Data.List.Infix

/-!
# When the simulator terminates

`read_choice` takes end of file for choice 8; `read_capacity` does not look for it, and asks
again. So the program comes to its exit unless the input ends while it asks for a capacity
(`terminates_iff`). The measure is the number of lines that are left: every turn of a loop takes
one, but for the turns at end of file.

Main results:

* `terminates_iff` — the program exits exactly if no prompt for a capacity meets the end of the
  input.
* `terminates_fails` — it does not on an empty input.

Deliberate scope limits:

* A file that has ended stays ended, so `std::getline` goes on to fail: no line arrives later on.
-/

namespace LruCache

open Recency Transition

/-! ## What the commands read -/

section Reads

variable {ρ κ : Type}

/-- Reading leaves the rest of the input. -/
theorem getline_suffix (con : Console ρ) : con.getline.2.lines <:+ con.lines := by
  unfold Console.getline
  split
  · exact List.suffix_refl _
  · rename_i line lines hlines
    rw [hlines]
    exact List.suffix_cons line lines

/-- Lines are only taken away. -/
theorem kept_suffix (N : Naming κ ρ) (lines : List String) :
    Kept N fun con => con.lines <:+ lines where
  print := fun h _ => h
  getline := fun h => (getline_suffix _).trans h
  enter := fun h _ => h

end Reads

/-! ## Capacity prompts -/

/-- A line with which `read_capacity` returns. -/
def IsCapacity (line : String) : Prop := ∃ capacity, parseCapacity (trimString line) = .ok capacity

/-- In a call of `read_capacity`. -/
def Point.AtPrompt {σ : Type} : Point σ → Prop
  | .start => True
  | .resetting _ => True
  | .menu _ => False
  | .exited => False

section Prompt

variable {ρ κ : Type}

/-- A turn at a prompt takes a line, if there is one; only a capacity leads on. -/
theorem promptStep_cases (created : Nat → Message) (again : Point (State κ κ)) (con : Console ρ) :
    (promptStep created again con).console.lines = con.lines.tail ∧
      ((promptStep created again con).point = again ∨ ∃ line ∈ con.lines, IsCapacity line) := by
  cases hlines : con.lines with
  | nil =>
    have hparse : parseCapacity "" =
        .error "  [ERROR] Please enter a number between 1 and 10000.\n" := by decide
    rw [promptStep_none (readCapacity_error (readLine_nil hlines _) hparse)]
    exact ⟨hlines, Or.inl rfl⟩
  | cons line rest =>
    cases hparse : parseCapacity (trimString line) with
    | error text =>
      rw [promptStep_none (readCapacity_error (readLine_cons hlines _) hparse)]
      exact ⟨rfl, Or.inl rfl⟩
    | ok capacity =>
      rw [promptStep_some (readCapacity_ok (readLine_cons hlines _) hparse)
        (parseCapacity_range hparse).1]
      exact ⟨rfl, Or.inr ⟨line, List.mem_cons_self, capacity, hparse⟩⟩

variable [DecidableEq κ] (N : Naming κ ρ) (ratio : Nat → Nat → String)

/-- A turn at the menu takes a line; at end of file it is the last one. -/
theorem menuStep_cases (st : State κ κ) (con : Console ρ) :
    (con.lines = [] ∧
        (referenceMain N ratio { console := con, point := .menu st }).point = .exited) ∨
      (referenceMain N ratio { console := con, point := .menu st }).console.lines <:+
        con.lines.tail := by
  cases hlines : con.lines with
  | nil =>
    left
    have hchoice : readChoice (con.say (.menu st.store.cap)) = (8, _) := readChoice_nil hlines
    simp only [referenceMain, hchoice]
    exact ⟨trivial, rfl⟩
  | cons line rest =>
    right
    have hchoice : readChoice (con.say (.menu st.store.cap)) = _ := readChoice_cons hlines
    simp only [referenceMain, hchoice]
    exact (kept_suffix N rest).carryOut (List.suffix_refl _) _

/-! ## Termination of the reference -/

/-- So does every turn. -/
theorem referenceMain_suffix (s : Simulator ρ (State κ κ)) :
    (referenceMain N ratio s).console.lines <:+ s.console.lines :=
  (kept_suffix N s.console.lines).referenceMain (List.suffix_refl _)

/-- A prompt that no line answers is never left. -/
theorem referenceMain_stuck {s : Simulator ρ (State κ κ)} (hprompt : s.point.AtPrompt)
    (hno : ¬ ∃ line ∈ s.console.lines, IsCapacity line) :
    (referenceMain N ratio s).point.AtPrompt ∧
      ¬ ∃ line ∈ (referenceMain N ratio s).console.lines, IsCapacity line := by
  constructor
  · rcases s with ⟨con, point⟩
    cases point with
    | start =>
      have hagain : (promptStep .created (.start : Point (State κ κ)) con).point = .start :=
        (promptStep_cases .created .start con).2.resolve_right hno
      simp only [referenceMain, hagain]
      trivial
    | resetting st =>
      have hagain := (promptStep_cases .reset (.resetting st) con).2.resolve_right hno
      simp only [referenceMain, hagain]
      trivial
    | menu st => exact hprompt.elim
    | exited => exact hprompt.elim
  · rintro ⟨line, hline, hcapacity⟩
    exact hno ⟨line, (referenceMain_suffix N ratio s).subset hline, hcapacity⟩

/-- Every turn before the exit, but for those at a prompt at end of file, leads to the exit or
takes a line. -/
theorem referenceMain_progress {s : Simulator ρ (State κ κ)}
    (hinput : s.point.AtPrompt → s.console.lines ≠ []) (hpoint : s.point ≠ .exited) :
    (referenceMain N ratio s).point = .exited ∨
      (referenceMain N ratio s).console.lines.length < s.console.lines.length := by
  have htail : ∀ {lines : List String}, lines <:+ s.console.lines.tail →
      s.console.lines ≠ [] → lines.length < s.console.lines.length := by
    intro lines hsuffix hne
    have hpos := List.length_pos_iff.mpr hne
    have hle := hsuffix.length_le
    rw [List.length_tail] at hle
    omega
  rcases s with ⟨con, point⟩
  cases point with
  | start =>
    right
    refine htail ?_ (hinput trivial)
    simp only [referenceMain, (promptStep_cases .created .start con).1]
    exact List.suffix_refl _
  | resetting st =>
    right
    refine htail ?_ (hinput trivial)
    simp only [referenceMain, (promptStep_cases .reset (.resetting st) con).1]
    exact List.suffix_refl _
  | menu st =>
    rcases menuStep_cases N ratio st con with ⟨_, hexit⟩ | hsuffix
    · exact Or.inl hexit
    · by_cases hlines : con.lines = []
      · left
        have hchoice : readChoice (con.say (.menu st.store.cap)) = (8, _) := readChoice_nil hlines
        simp only [referenceMain, hchoice]
        rfl
      · exact Or.inr (htail hsuffix hlines)
  | exited => exact absurd rfl hpoint

/-- The measure argument: with input at every prompt, the exit comes after finitely many turns. -/
theorem referenceMain_exits (s : Simulator ρ (State κ κ))
    (hinput : ∀ k, ((referenceMain N ratio)^[k] s).point.AtPrompt →
      ((referenceMain N ratio)^[k] s).console.lines ≠ []) :
    ∃ k, ((referenceMain N ratio)^[k] s).point = .exited := by
  induction hn : s.console.lines.length using Nat.strong_induction_on generalizing s with
  | _ n ih =>
    by_cases hpoint : s.point = .exited
    · exact ⟨0, hpoint⟩
    rcases referenceMain_progress N ratio (hinput 0) hpoint with hexit | hless
    · exact ⟨1, hexit⟩
    · rcases ih _ (hn ▸ hless) _ (fun k => hinput (k + 1)) rfl with ⟨k, hk⟩
      exact ⟨k + 1, hk⟩

/-- A program that has exited stays so. -/
theorem referenceMain_exited {s : Simulator ρ (State κ κ)} (h : s.point = .exited) (k : Nat) :
    ((referenceMain N ratio)^[k] s).point = .exited := by
  induction k with
  | zero => exact h
  | succ k ih =>
    rw [Function.iterate_succ_apply']
    simp only [referenceMain, ih]

/-- Without a capacity among the lines that are left, the prompt is never left. -/
theorem referenceMain_starved {s : Simulator ρ (State κ κ)} (hprompt : s.point.AtPrompt)
    (hno : ¬ ∃ line ∈ s.console.lines, IsCapacity line) (k : Nat) :
    ((referenceMain N ratio)^[k] s).point.AtPrompt := by
  induction k generalizing s with
  | zero => exact hprompt
  | succ k ih =>
    rcases referenceMain_stuck N ratio hprompt hno with ⟨hprompt', hno'⟩
    exact ih hprompt' hno'

end Prompt

/-! ## Termination of the program -/

/-- The program reaches its exit, after finitely many turns and hence finitely many reads. -/
def Terminates (hash : String → UInt64) (ratio : Nat → Nat → String) (lines : List String) :
    Prop :=
  ∃ k s, steps (mainStep hash ratio) k (mainStart lines) = .ok s ∧ s.point = .exited

section Terminates

variable {hash : String → UInt64} {ratio : Nat → Nat → String} {lines : List String}

/-- The program has exited if its reference has, -/
theorem SamePoint.exited_iff {σ τ : Type} {R : σ → τ → Prop} {point : Point σ} {point' : Point τ}
    (h : SamePoint R point point') : point = .exited ↔ point' = .exited := by
  cases h <;> simp

/-- and asks for a capacity if its reference does. -/
theorem SamePoint.atPrompt_iff {σ τ : Type} {R : σ → τ → Prop} {point : Point σ}
    {point' : Point τ} (h : SamePoint R point point') : point.AtPrompt ↔ point'.AtPrompt := by
  cases h <;> exact Iff.rfl

/-- The run of the reference that the program goes through. -/
def referenceRun (hash : String → UInt64) (ratio : Nat → Nat → String) (lines : List String)
    (k : Nat) : Simulator Registry (State UInt64 UInt64) :=
  (referenceMain (numbers hash) ratio)^[k] (referenceStart Registry.empty lines)

/-- So termination is a question about the reference. -/
theorem terminates_iff_reference :
    Terminates hash ratio lines ↔ ∃ k, (referenceRun hash ratio lines k).point = .exited := by
  constructor
  · rintro ⟨k, s, hrun, hexit⟩
    rcases main_refines hash ratio lines k with ⟨s', hrun', _, hpoint⟩
    cases hrun.symm.trans hrun'
    exact ⟨k, hpoint.exited_iff.mp hexit⟩
  · rintro ⟨k, hexit⟩
    rcases main_refines hash ratio lines k with ⟨s, hrun, _, hpoint⟩
    exact ⟨k, s, hrun, hpoint.exited_iff.mpr hexit⟩

/-- Without a capacity in the input the first prompt is never left. -/
theorem not_terminates_of_no_capacity (hno : ¬ ∃ line ∈ lines, IsCapacity line) :
    ¬ Terminates hash ratio lines := by
  rw [terminates_iff_reference]
  rintro ⟨k, hexit⟩
  have hprompt : (referenceRun hash ratio lines k).point.AtPrompt :=
    referenceMain_starved (numbers hash) ratio (s := referenceStart Registry.empty lines)
      trivial hno k
  rw [hexit] at hprompt
  exact hprompt

/-- The program exits if and only if end of file never falls on a capacity prompt. -/
theorem terminates_iff (hash : String → UInt64) (ratio : Nat → Nat → String)
    (lines : List String) :
    Terminates hash ratio lines ↔
      ∀ k s, steps (mainStep hash ratio) k (mainStart lines) = .ok s → s.point.AtPrompt →
        s.console.lines ≠ [] := by
  rw [terminates_iff_reference]
  constructor
  · rintro ⟨n, hexit⟩ k s hrun hprompt hlines
    rcases main_refines hash ratio lines k with ⟨s', hrun', hcon, hpoint⟩
    cases hrun.symm.trans hrun'
    have hprompt' : (referenceRun hash ratio lines k).point.AtPrompt :=
      hpoint.atPrompt_iff.mp hprompt
    have hno : ¬ ∃ line ∈ (referenceRun hash ratio lines k).console.lines, IsCapacity line := by
      rintro ⟨line, hline, _⟩
      rw [referenceRun, ← hcon, hlines] at hline
      cases hline
    -- the exit and the prompt at end of file are both for ever, so they exclude each other
    have hstill := referenceMain_starved (numbers hash) ratio hprompt' hno n
    have hdone := referenceMain_exited (numbers hash) ratio hexit k
    rw [referenceRun, ← Function.iterate_add_apply] at hstill hdone
    rw [Nat.add_comm, hdone] at hstill
    exact hstill
  · intro hinput
    refine referenceMain_exits (numbers hash) ratio _ ?_
    intro k hprompt
    rcases main_refines hash ratio lines k with ⟨s, hrun, hcon, hpoint⟩
    rw [← hcon]
    exact hinput k s hrun (hpoint.atPrompt_iff.mpr hprompt)

/-- No input at all: the first prompt is repeated for ever. -/
theorem terminates_fails : ¬ Terminates (fun _ => 0) (fun _ _ => "0") [] :=
  not_terminates_of_no_capacity (by simp)

end Terminates

end LruCache
