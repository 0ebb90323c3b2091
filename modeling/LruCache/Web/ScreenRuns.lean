import LruCache.Lib.Transition
import LruCache.Web.ScreenInv

/-!
# The page in any run

Main results:

* `screen_safe` — whatever has been clicked and whatever has arrived, the playback and its timer
  go to entries of `simHistory` and show them.
* `autoplay_ends` — when the playback runs by itself, it comes to its end.

Deliberate scope limits:

* When the answer to a batch arrives, entry 0 of the history is shown. It is the state that this
  simulation started from if no other simulation has been started in the meantime; that is the
  subject of `LruCache.Web.Solo`.
-/

namespace LruCache

open Transition

/-! ## Any run -/

/-- The page shows an entry of the history, and the lines up to it. -/
def Screen.Shows (s : Screen) (i : Nat) : Prop :=
  ∃ entry state, s.simHistory[i]? = some entry ∧ entry.state = some state ∧ s.simIndex = i ∧
    s.rendered = some state ∧
    s.simStepLabel = ((i : Int), (s.simHistory.length : Int) - 1) ∧ s.console = s.linesTo i

/-- A function goes to the entry `i`, and shows it unless its state is missing; then it throws. -/
def Screen.Goes (s : Screen) (i : Nat) (r : Screen × Bool) : Prop :=
  ∃ entry, s.simHistory[i]? = some entry ∧ r.1.simHistory = s.simHistory ∧ r.1.simIndex = i ∧
    r.2 = entry.state.isSome ∧ (r.2 = true → r.1.Shows i)

theorem Screen.goes_showing {s : Screen} {i : Nat} {entry : HistoryEntry}
    (h : s.simHistory[i]? = some entry) : s.Goes i (s.showing i entry, entry.state.isSome) := by
  refine ⟨entry, h, rfl, rfl, rfl, ?_⟩
  intro hsome
  rcases Option.isSome_iff_exists.mp hsome with ⟨state, hstate⟩
  refine ⟨entry, state, h, hstate, rfl, ?_, ?_, rfl⟩
  · show entry.state.or s.rendered = _
    rw [hstate, Option.some_or]
  · show (if entry.state.isSome then _ else _) = _
    rw [if_pos hsome]
    rfl

/-- The states that a page can be in. -/
def OnScreen (mayStart : Screen → Prop) (mayArrive : List GenEntry → List StateView → Prop) :
    Screen → Prop :=
  Reachable (· = Screen.load) (ScreenStep mayStart mayArrive)

section Runs

variable {mayStart : Screen → Prop} {mayArrive : List GenEntry → List StateView → Prop}
variable {s : Screen}

theorem OnScreen.inv (h : OnScreen mayStart mayArrive s) : ScreenInv s := by
  refine Reachable.invariant (I := ScreenInv) ?_ (fun _ _ hstep h => h.step hstep) h
  rintro _ rfl
  exact ScreenInv.load

/-- No state is missing if none was missing in any answer. -/
theorem OnScreen.states (harrive : ∀ genHistory states, mayArrive genHistory states →
    genHistory.length ≤ states.length) (h : OnScreen mayStart mayArrive s) :
    ∀ entry ∈ s.simHistory, entry.state.isSome := by
  refine Reachable.invariant (I := fun s => ∀ entry ∈ s.simHistory, entry.state.isSome) ?_ ?_ h
  · rintro _ rfl entry hmem
    cases hmem
  · intro s s' hstep hstates entry hmem
    rcases hstep.simHistory with heq | ⟨view, heq⟩ | ⟨cap, view, genHistory, states, hmay, heq⟩
    · exact hstates entry (heq ▸ hmem)
    · rw [heq, List.mem_singleton] at hmem
      rw [hmem]
      rfl
    · rw [heq] at hmem
      rcases List.mem_append.mp hmem with hmem | hmem
      · exact hstates entry hmem
      · exact (pushed_complete (harrive _ _ hmay)).2 entry hmem

/-- A simulation of two operations, up to the answer to its batch. -/
theorem onScreen_simBatch (hstart : ∀ s, s.tasks = [] → mayStart s) (view : StateView)
    (first second : Draws) :
    ∃ s, OnScreen mayStart mayArrive s ∧
      s.tasks = [.simBatch view (generate view [first, second]).genHistory] ∧
      s.simHistory = [(Screen.captured view).entry] ∧ s.autoPlay = false := by
  have hload : OnScreen mayStart mayArrive Screen.load := .start rfl
  have hsim := hload.tail (.setOp .sim)
  have hasked := hsim.tail (.runSimulation (some 2) (Or.inl rfl) rfl (hstart _ rfl))
  have hstate := hasked.tail (@ScreenStep.simState _ _ _ [] [] 2 view [first, second] rfl rfl)
  exact ⟨_, hstate, rfl, rfl, rfl⟩

/-- Whatever has been clicked and whatever has arrived: what is displayed says what the page is
doing, a step of the playback or of the timer goes to an entry of the history, or stops the timer
at the last one or beyond it, and a simulation whose batch was answered in full ends by showing the
first entry of the history. If no answer to a batch was too short, no state is missing. -/
theorem screen_safe (hs : OnScreen mayStart mayArrive s) :
    s.simPlayback = s.inSimulation ∧ s.btnExec = !s.inSimulation ∧
      s.btnPlay = (if s.autoPlay then "PAUSE" else "PLAY") ∧
      (s.simPlayback = true → ∀ dir : Int, ∃ i : Nat, s.Goes i (s.stepSim dir) ∧
        (i : Int) = min (max (s.simIndex + dir) 0) (s.simHistory.length - 1)) ∧
      (s.autoPlay = true →
        (s.simIndex ≥ s.simHistory.length - 1 ∧ s.tick = (s.toggleAutoPlay, true)) ∨
          (s.simIndex < s.simHistory.length - 1 ∧ ∃ i : Nat, (i : Int) = s.simIndex + 1 ∧
            s.Goes i s.tick)) ∧
      (∀ before currentState genHistory later states,
        s.tasks = before ++ .simBatch currentState genHistory :: later →
        genHistory.length ≤ states.length → ∃ s',
          { s with tasks := before ++ later }.simBatchDone currentState genHistory states =
            (s', true) ∧ s'.Shows 0) ∧
      ((∀ genHistory states, mayArrive genHistory states → genHistory.length ≤ states.length) →
        ∀ entry ∈ s.simHistory, entry.state.isSome) := by
  have h := hs.inv
  refine ⟨h.playback, h.exec, h.play, ?_, ?_, ?_, fun harrive => hs.states harrive⟩
  · intro hplay dir
    rcases Screen.stepSim_eq (h.begun_of_playback hplay).ne_nil dir with
      ⟨i, entry, hentry, hi, hstep⟩
    rw [hstep]
    exact ⟨i, Screen.goes_showing hentry, hi⟩
  · intro hauto
    rcases Screen.tick_eq (h.begun_of_autoPlay hauto).ne_nil with
      hstop | ⟨i, entry, hentry, hlt, hi, hnext⟩
    · exact Or.inl hstop
    · have hindex := h.index
      rw [hnext]
      exact Or.inr ⟨hlt, i, by omega, Screen.goes_showing hentry⟩
  · intro before currentState genHistory later states htasks hlen
    have hbegun : Screen.Begun { s with tasks := before ++ later } := h.begun_of_batch htasks
    rcases Screen.simBatchDone_cases hbegun currentState genHistory states with
      ⟨s₁, _, _, ⟨_, entry, hfirst, hsome, heq⟩ | ⟨hcut, _⟩⟩
    · rcases @Screen.goes_showing s₁.enterSim 0 entry hfirst with ⟨_, _, _, _, _, hshows⟩
      exact ⟨_, heq, hshows hsome⟩
    · rw [(pushed_complete hlen).1] at hcut
      cases hcut

end Runs

/-- A simulation of two operations that is played, at its first entry. -/
theorem onScreen_playing : ∃ s : Screen, OnScreen (fun _ => True) (fun _ _ => True) s ∧
    s.simPlayback = true ∧ s.autoPlay = false ∧ s.simIndex = 0 ∧ s.simHistory.length = 3 := by
  rcases @onScreen_simBatch (fun _ => True) (fun _ _ => True) (fun _ _ => trivial)
    ⟨10, 0, 0, 0, 0, []⟩ default default with ⟨s, hs, htasks, hhistory, hauto⟩
  have hplayed := hs.tail (@ScreenStep.simBatch _ _ _ [] [] _ _
    [⟨10, 1, 0, 0, 0, []⟩, ⟨10, 2, 0, 0, 0, []⟩] htasks trivial)
  have hbegun := @ScreenInv.begun_of_batch s [] [] hs.inv _ _ htasks
  rcases Screen.simBatchDone_cases (s := { s with tasks := [] }) hbegun ⟨10, 0, 0, 0, 0, []⟩
    (generate ⟨10, 0, 0, 0, 0, []⟩ [default, default]).genHistory
    [⟨10, 1, 0, 0, 0, []⟩, ⟨10, 2, 0, 0, 0, []⟩] with
    ⟨s₁, hs₁, _, ⟨_, entry, _, _, heq⟩ | ⟨hcut, _⟩⟩
  · rw [List.append_nil, heq] at hplayed
    refine ⟨_, hplayed, rfl, ?_, rfl, ?_⟩
    · show s₁.autoPlay = false
      rw [hs₁]
      exact hauto
    · show s₁.simHistory.length = 3
      rw [hs₁]
      show (s.simHistory ++ _).length = 3
      rw [hhistory]
      rfl
  · rw [(pushed_complete (le_refl 2)).1] at hcut
    cases hcut

/-- Seven steps on from the first of three entries lead to the last one, and a tick to the next. -/
theorem screen_safe_one : ∃ s : Screen, OnScreen (fun _ => True) (fun _ _ => True) s ∧
    s.btnPlay = "PAUSE" ∧ s.Goes 2 (s.stepSim 7) ∧ s.Goes 1 s.tick := by
  rcases onScreen_playing with ⟨s, hs, hplay, hauto, hindex, hlen⟩
  have hplaying := hs.tail (.toggleAutoPlay hplay)
  rw [Screen.toggleAutoPlay, if_neg (by rw [hauto]; exact Bool.false_ne_true)] at hplaying
  rcases screen_safe hplaying with ⟨_, _, hbtn, hstep, htick, _⟩
  refine ⟨_, hplaying, hbtn, ?_, ?_⟩
  · rcases hstep hplay 7 with ⟨i, hgoes, hi⟩
    have hi : (i : Int) = min (max (s.simIndex + 7) 0) (s.simHistory.length - 1) := hi
    have htwo : i = 2 := by
      rw [hindex, hlen] at hi
      omega
    exact htwo ▸ hgoes
  · rcases htick rfl with ⟨hend, _⟩ | ⟨_, i, hi, hgoes⟩
    · have hend : s.simIndex ≥ s.simHistory.length - 1 := hend
      rw [hindex, hlen] at hend
      omega
    · have hi : (i : Int) = s.simIndex + 1 := hi
      have hone : i = 1 := by omega
      exact hone ▸ hgoes

/-! ## The timer -/

/-- `k` ticks, and nothing else. -/
def Screen.ticks : Nat → Screen → Screen
  | 0, s => s
  | k + 1, s => (Screen.ticks k s).tick.1

/-- As long as there is a next entry, a tick goes to it. -/
theorem ticks_go {s : Screen} (h : ScreenInv s) (hauto : s.autoPlay = true) (k : Nat)
    (hk : s.simIndex + k ≤ s.simHistory.length - 1) :
    ScreenInv (s.ticks k) ∧ (s.ticks k).autoPlay = true ∧
      (s.ticks k).simHistory = s.simHistory ∧ (s.ticks k).simIndex = s.simIndex + k := by
  induction k with
  | zero => exact ⟨h, hauto, rfl, (Int.add_zero _).symm⟩
  | succ k ih =>
    rcases ih (by omega) with ⟨hinv, hauto', hhistory, hindex⟩
    have hnonneg := h.index
    rcases Screen.tick_eq (hinv.begun_of_autoPlay hauto').ne_nil with
      ⟨hend, _⟩ | ⟨i, entry, _, _, hi, hnext⟩
    · rw [hhistory] at hend
      omega
    · rw [Screen.ticks, hnext]
      refine ⟨hinv.showing i entry, hauto', hhistory, ?_⟩
      show (i : Int) = _
      omega

/-- From any page whose timer runs: if nothing else happens, each tick goes to the next entry, and
the one after the last entry stops the timer. -/
theorem autoplay_ends {mayStart : Screen → Prop}
    {mayArrive : List GenEntry → List StateView → Prop} {s : Screen}
    (hs : OnScreen mayStart mayArrive s) (hauto : s.autoPlay = true) :
    ∃ m : Nat, (m : Int) = max ((s.simHistory.length : Int) - 1 - s.simIndex) 0 ∧
      (∀ k < m, ∃ i : Nat, (i : Int) = s.simIndex + k + 1 ∧ s.Goes i (s.ticks k).tick ∧
        (s.ticks (k + 1)).autoPlay = true) ∧
      (s.ticks (m + 1)).autoPlay = false ∧ (s.ticks (m + 1)).btnPlay = "PLAY" ∧
        (s.ticks (m + 1)).simHistory = s.simHistory ∧
        (s.ticks (m + 1)).simIndex = s.simIndex + m := by
  have h := hs.inv
  have hpos := List.length_pos_iff.mpr (h.begun_of_autoPlay hauto).ne_nil
  refine ⟨((s.simHistory.length : Int) - 1 - s.simIndex).toNat, Int.toNat_eq_max _, ?_, ?_⟩
  · intro k hk
    have hindex := h.index
    rcases ticks_go h hauto k (by omega) with ⟨hinv, hauto', hhistory, hindex'⟩
    rcases Screen.tick_eq (hinv.begun_of_autoPlay hauto').ne_nil with
      ⟨hend, _⟩ | ⟨i, entry, hentry, _, hi, hnext⟩
    · rw [hhistory] at hend
      omega
    · refine ⟨i, by omega, ?_, (ticks_go h hauto (k + 1) (by omega)).2.1⟩
      rw [hnext, Screen.Goes, ← hhistory]
      exact Screen.goes_showing hentry
  · by_cases hlast : s.simIndex ≤ s.simHistory.length - 1
    · rcases ticks_go h hauto ((s.simHistory.length : Int) - 1 - s.simIndex).toNat (by omega) with
        ⟨_, hauto₁, hhistory, hindex⟩
      rw [Screen.ticks, Screen.tick, if_pos (by rw [hhistory, hindex]; omega),
        Screen.toggleAutoPlay, if_pos hauto₁]
      exact ⟨rfl, rfl, hhistory, hindex⟩
    · -- the history is a new one, and shorter
      have hzero : ((s.simHistory.length : Int) - 1 - s.simIndex).toNat = 0 := by omega
      rw [hzero, Screen.ticks, Screen.ticks, Screen.tick, if_pos (by omega),
        Screen.toggleAutoPlay, if_pos hauto]
      exact ⟨rfl, rfl, rfl, (Int.add_zero _).symm⟩

/-- Two ticks lead from the first of three entries to the last one, and the third one stops. -/
theorem autoplay_ends_one : ∃ s : Screen, OnScreen (fun _ => True) (fun _ _ => True) s ∧
    s.autoPlay = true ∧ (s.ticks 2).autoPlay = true ∧ (s.ticks 3).autoPlay = false ∧
      (s.ticks 3).simIndex = 2 := by
  rcases onScreen_playing with ⟨s, hs, hplay, hauto, hindex, hlen⟩
  have hplaying := hs.tail (.toggleAutoPlay hplay)
  rw [Screen.toggleAutoPlay, if_neg (by rw [hauto]; exact Bool.false_ne_true)] at hplaying
  rcases autoplay_ends hplaying rfl with ⟨m, hm, hgo, hstopped, _, _, hlast⟩
  have hm : (m : Int) = max ((s.simHistory.length : Int) - 1 - s.simIndex) 0 := hm
  have htwo : m = 2 := by
    rw [hindex, hlen] at hm
    omega
  subst htwo
  rcases hgo 1 (by decide) with ⟨_, _, _, hrunning⟩
  have hlast : Screen.simIndex _ = s.simIndex + 2 := hlast
  exact ⟨_, hplaying, rfl, hrunning, hstopped, by rw [hlast, hindex]; rfl⟩

end LruCache
