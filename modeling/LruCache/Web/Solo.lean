import LruCache.Web.ScreenRuns

/-!
# One simulation at a time

`runSimulation` throws away the history when its state arrives, and pushes its entries behind
whatever is there when the answer to its batch arrives. If no simulation is started while another
one is under way, what is played is one simulation (`simulation_whole`).

Main results:

* `SoloInv.step` — while a batch is waited for, the history is the state that its simulation
  started from.
* `simulation_whole` — what is played is one simulation, whole.
* `simulate_played` — and it is the one that `LruCache.Web.Playback` is about.

Deliberate scope limits:

* That simulations do not overlap is not checked by the page: its button stays where it is until
  the batch is answered. If they do, the histories run into each other.
-/

namespace LruCache

open Transition

/-- Is it `runSimulation` that waits? -/
def Task.isSim : Task → Bool
  | .simState _ => true
  | .simBatch _ _ => true
  | _ => false

/-- No simulation is under way. -/
def Alone (s : Screen) : Prop := ∀ task ∈ s.tasks, task.isSim = false

/-- The page in a run in which a simulation is started only if no other one is under way. -/
structure SoloInv (s : Screen) : Prop where
  one : (s.tasks.filter Task.isSim).length ≤ 1
  batch : ∀ currentState genHistory, Task.simBatch currentState genHistory ∈ s.tasks →
    s.simHistory = [(Screen.captured currentState).entry]

section Solo

variable {mayArrive : List GenEntry → List StateView → Prop} {s s' : Screen}
variable {before later : List Task} {task : Task}

/-- Only the history and the functions that wait play a role. -/
theorem SoloInv.of_eq (h : SoloInv s) (hhistory : s'.simHistory = s.simHistory)
    (htasks : s'.tasks.Sublist s.tasks) : SoloInv s' where
  one := Nat.le_trans (htasks.filter _).length_le h.one
  batch := by
    intro currentState genHistory hmem
    rw [hhistory]
    exact h.batch _ _ (htasks.subset hmem)

/-- The functions that still wait are some of those that waited. -/
theorem taken_sublist (htasks : s.tasks = before ++ task :: later) :
    (before ++ later).Sublist s.tasks := by
  rw [htasks]
  exact (List.Sublist.refl before).append (List.sublist_cons_self task later)

/-- A function that goes on leaves the others waiting. -/
theorem SoloInv.taken (h : SoloInv s) (htasks : s.tasks = before ++ task :: later) :
    SoloInv { s with tasks := before ++ later } :=
  h.of_eq rfl (taken_sublist htasks)

/-- Another function than `runSimulation` waits. -/
theorem SoloInv.wait (h : SoloInv s) (hsim : task.isSim = false) :
    SoloInv { s with tasks := s.tasks ++ [task] } where
  one := by
    have hfilter : (s.tasks ++ [task]).filter Task.isSim = s.tasks.filter Task.isSim := by
      rw [List.filter_append, List.filter_singleton, hsim]
      exact List.append_nil _
    rw [hfilter]
    exact h.one
  batch := by
    intro currentState genHistory hmem
    rcases List.mem_append.mp hmem with hmem | hmem
    · exact h.batch _ _ hmem
    · rw [← List.mem_singleton.mp hmem] at hsim
      cases hsim

/-- Once it goes on, no simulation is left. -/
theorem SoloInv.alone (h : SoloInv s) (htasks : s.tasks = before ++ task :: later)
    (hsim : task.isSim = true) : Alone { s with tasks := before ++ later } := by
  have hone := h.one
  rw [htasks, List.filter_append, List.filter_cons_of_pos hsim, List.length_append,
    List.length_cons] at hone
  have hnil : (before ++ later).filter Task.isSim = [] := by
    rw [List.filter_append, ← List.length_eq_zero_iff, List.length_append]
    omega
  intro x hx
  exact Bool.eq_false_iff.mpr (List.filter_eq_nil_iff.mp hnil x hx)

/-- Alone means that no simulation waits. -/
theorem Alone.filter_eq_nil (h : Alone s) : s.tasks.filter Task.isSim = [] := by
  apply List.filter_eq_nil_iff.mpr
  intro x hx
  rw [h x hx]
  exact Bool.false_ne_true

/-- Then any history will do. -/
theorem Alone.solo (h : Alone s) (htasks : s'.tasks = s.tasks) : SoloInv s' where
  one := by
    rw [htasks, h.filter_eq_nil]
    exact Nat.zero_le 1
  batch := by
    intro currentState genHistory hmem
    rw [htasks] at hmem
    cases h _ hmem

/-- A simulation that waits, no other one being under way. -/
theorem Alone.wait (h : Alone s) (hbatch : ∀ currentState genHistory,
      task = .simBatch currentState genHistory →
      s'.simHistory = [(Screen.captured currentState).entry])
    (htasks : s'.tasks = s.tasks ++ [task]) : SoloInv s' where
  one := by
    rw [htasks, List.filter_append, h.filter_eq_nil]
    exact List.length_filter_le _ _
  batch := by
    intro currentState genHistory hmem
    rw [htasks] at hmem
    rcases List.mem_append.mp hmem with hmem | hmem
    · cases h _ hmem
    · exact hbatch _ _ (List.mem_singleton.mp hmem).symm

/-- An operation of the page waits for an answer, as something else than a simulation. -/
theorem SoloInv.executeOp (h : SoloInv s) (k v : String) : SoloInv (s.executeOp k v) := by
  unfold Screen.executeOp
  split
  · split
    · exact h
    · exact h.wait rfl
  · split
    · exact h
    · exact h.wait rfl
  · split
    · exact h
    · exact h.wait rfl
  · exact h

/-- Every step keeps the invariant. It is only `runSimulation` that asks whether it may. -/
theorem SoloInv.step (h : SoloInv s) (hinv : ScreenInv s)
    (hstep : ScreenStep Alone mayArrive s s') : SoloInv s' := by
  have htoggle : ∀ {s : Screen}, SoloInv s → SoloInv s.toggleAutoPlay := by
    intro s h
    unfold Screen.toggleAutoPlay
    split <;> exact h.of_eq rfl (.refl _)
  cases hstep with
  | setOp op => exact h.of_eq rfl (.refl _)
  | executeOp k v _ => exact h.executeOp k v
  | runSimulation entered _ _ halone =>
    refine halone.wait ?_ rfl
    intro _ _ heq
    cases heq
  | bootSystem c _ => exact SoloInv.wait (h.of_eq rfl (.refl _)) rfl
  | showBootScreen =>
    unfold Screen.showBootScreen
    split <;> exact h.of_eq rfl (.refl _)
  | stepSim dir hplay =>
    rcases Screen.stepSim_eq (hinv.begun_of_playback hplay).ne_nil dir with ⟨i, entry, _, _, hstep⟩
    rw [hstep]
    exact h.of_eq rfl (.refl _)
  | toggleAutoPlay _ => exact htoggle h
  | exitSim _ =>
    unfold Screen.exitSim
    have hstopped : SoloInv (if s.autoPlay then s.toggleAutoPlay else s) := by
      split
      · exact htoggle h
      · exact h
    exact SoloInv.wait (hstopped.of_eq rfl (.refl _)) rfl
  | tick hauto =>
    rcases Screen.tick_eq (hinv.begun_of_autoPlay hauto).ne_nil with
      ⟨_, hstop⟩ | ⟨i, entry, _, _, _, hnext⟩
    · rw [hstop]
      exact htoggle h
    · rw [hnext]
      exact h.of_eq rfl (.refl _)
  | reqApi data htasks => exact h.of_eq rfl (taken_sublist htasks)
  | reqApiFails what htasks => exact h.of_eq rfl (taken_sublist htasks)
  | simState currentState draws htasks _ =>
    refine (h.alone htasks rfl).wait ?_ rfl
    intro _ _ heq
    cases heq
    rfl
  | @simBatch before later _ _ states htasks _ =>
    have halone := h.alone htasks rfl
    have hbegun := hinv.begun_of_batch htasks
    rcases Screen.simBatchDone_cases (s := { s with tasks := before ++ later }) hbegun _ _ states
      with ⟨s₁, hs₁, _, ⟨_, entry, _, _, heq⟩ | ⟨_, heq⟩⟩
    · rw [heq, hs₁]
      exact halone.solo rfl
    · rw [heq, hs₁]
      exact halone.solo rfl
  | exitState htasks => exact ((h.taken htasks).wait rfl).of_eq rfl (.refl _)
  | fails htasks _ => exact h.taken htasks

end Solo

/-- So it holds of every page in such a run. -/
theorem OnScreen.solo {mayArrive : List GenEntry → List StateView → Prop} {s : Screen}
    (h : OnScreen Alone mayArrive s) : SoloInv s := by
  have hboth : ScreenInv s ∧ SoloInv s := by
    refine Reachable.invariant (I := fun s => ScreenInv s ∧ SoloInv s) ?_ ?_ h
    · rintro _ rfl
      refine ⟨ScreenInv.load, Nat.zero_le 1, ?_⟩
      intro _ _ hmem
      cases hmem
    · intro _ _ hstep hboth
      exact ⟨hboth.1.step hstep, hboth.2.step hboth.1 hstep⟩
  exact hboth.2

/-- All entries are pushed if there is a state for each. -/
theorem pushed_of_playback {cap : Nat} {prevState : StateView} {entries : List GenEntry}
    {states : List StateView} {log : List SimEntry}
    (h : playback cap prevState entries states = some log) :
    pushed cap prevState entries states = (log.map SimEntry.entry, true) := by
  induction entries generalizing prevState states log with
  | nil =>
    cases h
    rfl
  | cons entry entries ih =>
    cases states with
    | nil => cases h
    | cons currentState states =>
      rcases hverdict : verdict cap prevState currentState entry.operation with ⟨outcome, lvl⟩
      simp only [playback, hverdict] at h
      rcases Option.map_eq_some_iff.mp h with ⟨rest, hrest, hlog⟩
      rw [pushed, hverdict, ih hrest, ← hlog]
      rfl

/-- The batch arrives, and the history has nothing but the state that it started from. -/
theorem SoloInv.simBatchDone {s : Screen} (h : SoloInv s) (hinv : ScreenInv s)
    {before later : List Task} {currentState : StateView} {genHistory : List GenEntry}
    (htasks : s.tasks = before ++ .simBatch currentState genHistory :: later)
    {states : List StateView} {log : List SimEntry}
    (hlog : playback currentState.capacity currentState genHistory states = some log) :
    ∃ s', { s with tasks := before ++ later }.simBatchDone currentState genHistory states =
        (s', true) ∧
      s'.simHistory = (Screen.captured currentState :: log).map SimEntry.entry ∧
      s'.inSimulation = true ∧ s'.Shows 0 := by
  have hmem : Task.simBatch currentState genHistory ∈ s.tasks := by
    rw [htasks]
    exact List.mem_append_right before List.mem_cons_self
  have hpushed := pushed_of_playback hlog
  have hbegun : Screen.Begun { s with tasks := before ++ later } := hinv.begun_of_batch htasks
  rcases Screen.simBatchDone_cases hbegun currentState genHistory states with
    ⟨s₁, hs₁, _, ⟨_, entry, hfirst, hsome, heq⟩ | ⟨hcut, _⟩⟩
  · rcases @Screen.goes_showing s₁.enterSim 0 entry hfirst with ⟨_, _, _, _, _, hshows⟩
    refine ⟨_, heq, ?_, rfl, hshows hsome⟩
    show s₁.simHistory = _
    rw [hs₁, hpushed]
    show s.simHistory ++ _ = _
    rw [h.batch _ _ hmem]
    rfl
  · rw [hpushed] at hcut
    cases hcut

/-- As long as simulations do not overlap, what is played is one simulation: the state that it
started from, and one entry for each of its operations. -/
theorem simulation_whole {mayArrive : List GenEntry → List StateView → Prop} {s : Screen}
    (hs : OnScreen Alone mayArrive s) {before later : List Task} {currentState : StateView}
    {genHistory : List GenEntry}
    (htasks : s.tasks = before ++ .simBatch currentState genHistory :: later)
    {states : List StateView} {log : List SimEntry}
    (hlog : playback currentState.capacity currentState genHistory states = some log) :
    ∃ s', { s with tasks := before ++ later }.simBatchDone currentState genHistory states =
        (s', true) ∧
      s'.simHistory = (Screen.captured currentState :: log).map SimEntry.entry ∧
      s'.inSimulation = true ∧ s'.Shows 0 :=
  hs.solo.simBatchDone hs.inv htasks hlog

/-- A simulation of two operations. -/
theorem simulation_whole_one : ∃ (s s' : Screen) (log : List SimEntry),
    OnScreen Alone (fun _ _ => True) s ∧
    { s with tasks := [] }.simBatchDone ⟨10, 0, 0, 0, 0, []⟩
        (generate ⟨10, 0, 0, 0, 0, []⟩ [default, default]).genHistory
        [⟨10, 1, 0, 0, 0, []⟩, ⟨10, 2, 0, 0, 0, []⟩] = (s', true) ∧
    log.map SimEntry.state = [⟨10, 1, 0, 0, 0, []⟩, ⟨10, 2, 0, 0, 0, []⟩] ∧
    s'.simHistory = (Screen.captured ⟨10, 0, 0, 0, 0, []⟩ :: log).map SimEntry.entry := by
  have halone : ∀ s : Screen, s.tasks = [] → Alone s := by
    intro s htasks task hmem
    rw [htasks] at hmem
    cases hmem
  rcases @onScreen_simBatch Alone (fun _ _ => True) halone ⟨10, 0, 0, 0, 0, []⟩ default default
    with ⟨s, hs, htasks, _⟩
  rcases @simulation_whole _ s hs [] [] ⟨10, 0, 0, 0, 0, []⟩ _ htasks
    [⟨10, 1, 0, 0, 0, []⟩, ⟨10, 2, 0, 0, 0, []⟩] _ rfl with ⟨s', hdone, hhistory, _⟩
  exact ⟨s, s', _, hs, hdone, rfl, hhistory⟩

/-- What `simulate` computes in one go is what the page plays, whatever happened while it waited. -/
theorem simulate_played {platform : Platform} {browser : Browser} {currentState : StateView}
    {draws : List Draws} {headers : String} {server server' : Server} {simulation : Simulation}
    (h : simulate platform browser currentState draws headers server =
      .ok (some simulation, server')) :
    ∃ response states,
      serve platform (recv (fetchPost (batchUrl (generate currentState draws).batchStr) headers))
        server = .ok (response, server') ∧
      browser.array response.body = some states ∧
      ∀ (mayArrive : List GenEntry → List StateView → Prop) (s : Screen) (before later : List Task),
        OnScreen Alone mayArrive s →
        s.tasks =
          before ++ .simBatch currentState (generate currentState draws).genHistory :: later →
        ∃ s', { s with tasks := before ++ later }.simBatchDone currentState
            (generate currentState draws).genHistory states = (s', true) ∧
          s'.simHistory = simulation.simHistory.map SimEntry.entry ∧ s'.Shows 0 := by
  rcases bind_eq_ok h with ⟨⟨response, server₁⟩, hserve, hrest⟩
  dsimp only at hrest
  cases harray : browser.array response.body with
  | none =>
    rw [harray] at hrest
    cases hrest
  | some states =>
    rw [harray] at hrest
    cases hlog : playback currentState.capacity currentState
      (generate currentState draws).genHistory states with
    | none =>
      rw [Option.bind_some, hlog] at hrest
      cases hrest
    | some log =>
      rw [Option.bind_some, hlog] at hrest
      cases hrest
      refine ⟨response, states, hserve, harray, ?_⟩
      intro mayArrive s before later hs htasks
      rcases hs.solo.simBatchDone hs.inv htasks hlog with ⟨s', hdone, hhistory, _, hshows⟩
      exact ⟨s', hdone, hhistory, hshows⟩

end LruCache
