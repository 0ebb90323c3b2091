import LruCache.Web.Screen

/-!
# The playback stays in its history

Main results:

* `Screen.stepSim_eq`, `Screen.tick_eq` — a step of the playback or of its timer goes to an entry
  of `simHistory`.
* `ScreenInv.step` — whatever is clicked and whatever arrives, what is displayed says what the page
  is doing, and there is a history wherever one is going to be read.
* `ScreenStep.simHistory` — a step leaves the history, starts a new one, or adds to it.

Deliberate scope limits:

* The index may be beyond the history: a new simulation begins with a history of one entry while
  the old one is still played. It is never below 0.
-/

namespace LruCache

/-! ## The playback -/

namespace Screen

/-- The page with the entry `i` of the history on it, as far as it is there. -/
def showing (s : Screen) (i : Nat) (entry : HistoryEntry) : Screen :=
  { s with
    simIndex := i
    console := s.linesTo i
    rendered := entry.state.or s.rendered
    simStepLabel :=
      if entry.state.isSome then (i, s.simHistory.length - 1) else s.simStepLabel }

section Playback

variable {s : Screen} {i : Nat} {entry : HistoryEntry}

/-- An entry of the history can be gone to; it is shown as far as its state is there. -/
theorem applySimState_eq (h : s.simHistory[i]? = some entry) :
    applySimState { s with simIndex := i } = (s.showing i entry, entry.state.isSome) := by
  have hentry : entryAt { s with simIndex := i } i = some entry := by
    rw [entryAt, if_pos (Int.natCast_nonneg i), Int.toNat_natCast]
    exact h
  rcases entry with ⟨state, logMsg, logLvl⟩
  rw [applySimState, hentry]
  cases state with
  | none => rfl
  | some state => rfl

@[simp]
theorem applySimState_simHistory (s : Screen) : s.applySimState.1.simHistory = s.simHistory := by
  unfold applySimState
  split
  · rfl
  · split <;> rfl

/-- The index that `stepSim` goes to is one of the history. -/
theorem stepSim_eq (hne : s.simHistory ≠ []) (dir : Int) :
    ∃ (i : Nat) (entry : HistoryEntry), s.simHistory[i]? = some entry ∧
      (i : Int) = min (max (s.simIndex + dir) 0) (s.simHistory.length - 1) ∧
      s.stepSim dir = (s.showing i entry, entry.state.isSome) := by
  have hpos := List.length_pos_iff.mpr hne
  -- both bounds are applied, the lower one first
  have hnonneg : 0 ≤ min (max (s.simIndex + dir) 0) ((s.simHistory.length : Int) - 1) := by omega
  rcases Int.eq_ofNat_of_zero_le hnonneg with ⟨i, hi⟩
  have hlt : i < s.simHistory.length := by omega
  refine ⟨i, s.simHistory[i], List.getElem?_eq_getElem hlt, hi.symm, ?_⟩
  have hindex : (if (if s.simIndex + dir < 0 then 0 else s.simIndex + dir) ≥ s.simHistory.length
      then (s.simHistory.length : Int) - 1
      else if s.simIndex + dir < 0 then 0 else s.simIndex + dir) = i := by
    split <;> split at * <;> omega
  rw [stepSim, hindex]
  exact applySimState_eq (List.getElem?_eq_getElem hlt)

/-- A tick stops the timer at the end of the history, or goes to the next entry. -/
theorem tick_eq (hne : s.simHistory ≠ []) :
    (s.simIndex ≥ s.simHistory.length - 1 ∧ s.tick = (s.toggleAutoPlay, true)) ∨
      ∃ (i : Nat) (entry : HistoryEntry), s.simHistory[i]? = some entry ∧
        s.simIndex < s.simHistory.length - 1 ∧ (i : Int) = max (s.simIndex + 1) 0 ∧
        s.tick = (s.showing i entry, entry.state.isSome) := by
  by_cases hend : s.simIndex ≥ s.simHistory.length - 1
  · left
    exact ⟨hend, by rw [tick, if_pos hend]⟩
  · right
    rcases stepSim_eq hne 1 with ⟨i, entry, hentry, hi, hstep⟩
    refine ⟨i, entry, hentry, by omega, by omega, ?_⟩
    rw [tick, if_neg hend]
    exact hstep

end Playback

end Screen

/-- If there is a state for each operation, the loop ends, and no entry lacks its state. -/
theorem pushed_complete {cap : Nat} {prevState : StateView} {entries : List GenEntry}
    {states : List StateView} (h : entries.length ≤ states.length) :
    (pushed cap prevState entries states).2 = true ∧
      ∀ entry ∈ (pushed cap prevState entries states).1, entry.state.isSome := by
  induction entries generalizing prevState states with
  | nil =>
    refine ⟨rfl, ?_⟩
    intro entry hmem
    cases hmem
  | cons entry entries ih =>
    cases states with
    | nil => cases h
    | cons currentState states =>
      rcases @ih currentState states (Nat.le_of_succ_le_succ h) with ⟨hend, hstates⟩
      refine ⟨hend, ?_⟩
      intro entry hmem
      rcases List.mem_cons.mp hmem with rfl | hmem
      · rfl
      · exact hstates entry hmem

/-! ## What holds of every page -/

/-- The history begins with the state that a simulation started from. -/
def Screen.Begun (s : Screen) : Prop :=
  ∃ view rest, s.simHistory = (Screen.captured view).entry :: rest

/-- A simulation that has begun has an entry. -/
theorem Screen.Begun.ne_nil {s : Screen} (h : s.Begun) : s.simHistory ≠ [] := by
  rcases h with ⟨view, rest, hhistory⟩
  rw [hhistory]
  exact List.cons_ne_nil _ _

/-- The history is going to be read. -/
def Screen.Reads (s : Screen) : Prop :=
  s.inSimulation = true ∨ s.autoPlay = true ∨ ∃ state history, Task.simBatch state history ∈ s.tasks

/-- A page in any run. -/
structure ScreenInv (s : Screen) : Prop where
  playback : s.simPlayback = s.inSimulation
  exec : s.btnExec = !s.inSimulation
  play : s.btnPlay = if s.autoPlay then "PAUSE" else "PLAY"
  index : 0 ≤ s.simIndex
  history : s.Reads → s.Begun

section Invariant

variable {mayStart : Screen → Prop} {mayArrive : List GenEntry → List StateView → Prop}
variable {s s' : Screen} {before later : List Task} {task : Task}

/-- Nothing is played when the page is loaded. -/
theorem ScreenInv.load : ScreenInv Screen.load where
  playback := rfl
  exec := rfl
  play := rfl
  index := le_refl 0
  history := by
    rintro (h | h | ⟨state, history, h⟩)
    · cases h
    · cases h
    · cases h

/-- Only the parts that the invariant is about play a role. -/
theorem ScreenInv.of_eq (h : ScreenInv s) (hplayback : s'.simPlayback = s.simPlayback)
    (hexec : s'.btnExec = s.btnExec) (hbtn : s'.btnPlay = s.btnPlay)
    (hsim : s'.inSimulation = s.inSimulation) (hauto : s'.autoPlay = s.autoPlay)
    (hhistory : s'.simHistory = s.simHistory) (hindex : s'.simIndex = s.simIndex)
    (htasks : ∀ state history, Task.simBatch state history ∈ s'.tasks →
      Task.simBatch state history ∈ s.tasks) : ScreenInv s' where
  playback := by rw [hplayback, hsim, h.playback]
  exec := by rw [hexec, hsim, h.exec]
  play := by rw [hbtn, hauto, h.play]
  index := by
    rw [hindex]
    exact h.index
  history := by
    intro hreads
    rw [Screen.Begun, hhistory]
    apply h.history
    rcases hreads with hs | ha | ⟨state, history, hmem⟩
    · exact Or.inl (hsim ▸ hs)
    · exact Or.inr (Or.inl (hauto ▸ ha))
    · exact Or.inr (Or.inr ⟨state, history, htasks state history hmem⟩)

/-- The functions that still wait have waited before. -/
theorem mem_of_taken {x : Task} (htasks : s.tasks = before ++ task :: later)
    (h : x ∈ before ++ later) : x ∈ s.tasks := by
  rw [htasks]
  rcases List.mem_append.mp h with h | h
  · exact List.mem_append_left _ h
  · exact List.mem_append_right _ (List.mem_cons_of_mem _ h)

/-- A function that waited goes on. -/
theorem ScreenInv.taken (h : ScreenInv s) (htasks : s.tasks = before ++ task :: later) :
    ScreenInv { s with tasks := before ++ later } :=
  h.of_eq rfl rfl rfl rfl rfl rfl rfl fun _ _ hmem => mem_of_taken htasks hmem

/-- A function other than `runSimulation` waits. -/
theorem ScreenInv.wait (h : ScreenInv s) (hne : ∀ state history, task ≠ .simBatch state history) :
    ScreenInv { s with tasks := s.tasks ++ [task] } := by
  refine h.of_eq rfl rfl rfl rfl rfl rfl rfl ?_
  intro state history hmem
  rcases List.mem_append.mp hmem with hmem | hmem
  · exact hmem
  · exact absurd (List.mem_singleton.mp hmem).symm (hne state history)

/-- `reqApi` asks, and waits. -/
theorem ScreenInv.reqApi (h : ScreenInv s) (msg : String) (hitMiss : Bool) :
    ScreenInv (s.reqApi msg hitMiss) :=
  h.wait fun _ _ => nofun

/-- The tabs have nothing to do with the playback. -/
theorem ScreenInv.setOp (h : ScreenInv s) (op : Tab) : ScreenInv (s.setOp op) :=
  h.of_eq rfl rfl rfl rfl rfl rfl rfl fun _ _ hmem => hmem

/-- Going to an entry changes neither the mode nor the history. -/
theorem ScreenInv.showing (h : ScreenInv s) (i : Nat) (entry : HistoryEntry) :
    ScreenInv (s.showing i entry) where
  playback := h.playback
  exec := h.exec
  play := h.play
  index := Int.natCast_nonneg i
  history := h.history

/-- The timer is started only where there is a history. -/
theorem ScreenInv.toggleAutoPlay (h : ScreenInv s) (hbegun : s.Begun) :
    ScreenInv s.toggleAutoPlay := by
  unfold Screen.toggleAutoPlay
  split
  · exact ⟨h.playback, h.exec, rfl, h.index, fun _ => hbegun⟩
  · exact ⟨h.playback, h.exec, rfl, h.index, fun _ => hbegun⟩

/-- The buttons are exchanged together with the mode. -/
theorem ScreenInv.leaveSim (h : ScreenInv s) : ScreenInv s.leaveSim where
  playback := rfl
  exec := rfl
  play := h.play
  index := h.index
  history := by
    rintro (hs | ha | hmem)
    · cases hs
    · exact h.history (Or.inr (Or.inl ha))
    · exact h.history (Or.inr (Or.inr hmem))

/-- `executeOp` asks for an operation, or does nothing. -/
theorem ScreenInv.executeOp (h : ScreenInv s) (k v : String) : ScreenInv (s.executeOp k v) := by
  unfold Screen.executeOp
  split
  · split
    · exact h
    · exact h.reqApi _ _
  · split
    · exact h
    · exact h.reqApi _ _
  · split
    · exact h
    · exact h.reqApi _ _
  · exact h

/-- The answer to the batch, cut into the pushed entries and the rest. -/
theorem Screen.simBatchDone_cases (hbegun : s.Begun) (currentState : StateView)
    (genHistory : List GenEntry) (states : List StateView) :
    ∃ s₁ : Screen, s₁ = { s with simHistory :=
        s.simHistory ++ (pushed currentState.capacity currentState genHistory states).1 } ∧
      s₁.Begun ∧
      (((pushed currentState.capacity currentState genHistory states).2 = true ∧
        ∃ entry, s₁.simHistory[0]? = some entry ∧ entry.state.isSome ∧
          s.simBatchDone currentState genHistory states = (s₁.enterSim.showing 0 entry, true)) ∨
      ((pushed currentState.capacity currentState genHistory states).2 = false ∧
        s.simBatchDone currentState genHistory states = (s₁, false))) := by
  rcases hbegun with ⟨view, rest, hhistory⟩
  unfold Screen.simBatchDone
  rcases pushed currentState.capacity currentState genHistory states with ⟨entries, complete⟩
  refine ⟨_, rfl, ⟨view, rest ++ entries, ?_⟩, ?_⟩
  · show s.simHistory ++ entries = _
    rw [hhistory, List.cons_append]
  · cases complete with
    | true =>
      have hfirst : (s.simHistory ++ entries)[0]? = some (Screen.captured view).entry := by
        rw [hhistory]
        rfl
      refine Or.inl ⟨rfl, _, hfirst, rfl, ?_⟩
      exact Screen.applySimState_eq (i := 0)
        (s := { s with simHistory := s.simHistory ++ entries }.enterSim) hfirst
    | false => exact Or.inr ⟨rfl, rfl⟩

/-- When the batch is answered, the history begins as before, and the mode changes only if the loop
over the states comes to its end. -/
theorem ScreenInv.simBatchDone (h : ScreenInv s) (hbegun : s.Begun) (currentState : StateView)
    (genHistory : List GenEntry) (states : List StateView) :
    ScreenInv (s.simBatchDone currentState genHistory states).1 := by
  rcases Screen.simBatchDone_cases hbegun currentState genHistory states with
    ⟨s₁, rfl, hlonger, ⟨_, entry, _, _, heq⟩ | ⟨_, heq⟩⟩
  · rw [heq]
    exact ⟨rfl, rfl, h.play, le_refl 0, fun _ => hlonger⟩
  · rw [heq]
    exact ⟨h.playback, h.exec, h.play, h.index, fun _ => hlonger⟩

/-- A batch that is waited for has its simulation in the history. -/
theorem ScreenInv.begun_of_batch (h : ScreenInv s) {currentState : StateView}
    {genHistory : List GenEntry}
    (htasks : s.tasks = before ++ .simBatch currentState genHistory :: later) : s.Begun := by
  apply h.history
  refine Or.inr (Or.inr ⟨currentState, genHistory, ?_⟩)
  rw [htasks]
  exact List.mem_append_right before List.mem_cons_self

/-- Where the playback is displayed, there is something to play. -/
theorem ScreenInv.begun_of_playback (h : ScreenInv s) (hplay : s.simPlayback = true) : s.Begun :=
  h.history (Or.inl (h.playback ▸ hplay))

/-- And where the timer runs, even if the simulation was left in the meantime. -/
theorem ScreenInv.begun_of_autoPlay (h : ScreenInv s) (hauto : s.autoPlay = true) : s.Begun :=
  h.history (Or.inr (Or.inl hauto))

/-- Every click, key, tick and answer keeps the invariant. -/
theorem ScreenInv.step (h : ScreenInv s) (hstep : ScreenStep mayStart mayArrive s s') :
    ScreenInv s' := by
  cases hstep with
  | setOp op => exact h.setOp op
  | executeOp k v _ => exact h.executeOp k v
  | runSimulation entered _ _ _ =>
    have hwait := @ScreenInv.wait s (.simState (Screen.simOps entered)) h fun _ _ => nofun
    exact hwait.of_eq rfl rfl rfl rfl rfl rfl rfl fun _ _ hmem => hmem
  | bootSystem c _ =>
    have hboot : ScreenInv { s with overlay := false } :=
      h.of_eq rfl rfl rfl rfl rfl rfl rfl fun _ _ hmem => hmem
    exact hboot.reqApi _ _
  | showBootScreen =>
    unfold Screen.showBootScreen
    have hleft : ScreenInv (if s.inSimulation then s.leaveSim else s) := by
      split
      · exact h.leaveSim
      · exact h
    exact hleft.of_eq rfl rfl rfl rfl rfl rfl rfl fun _ _ hmem => hmem
  | stepSim dir hplay =>
    rcases Screen.stepSim_eq (h.begun_of_playback hplay).ne_nil dir with ⟨i, entry, _, _, hstep⟩
    rw [hstep]
    exact h.showing i entry
  | toggleAutoPlay hplay => exact h.toggleAutoPlay (h.begun_of_playback hplay)
  | exitSim hplay =>
    unfold Screen.exitSim
    have hstopped : ScreenInv (if s.autoPlay then s.toggleAutoPlay else s) := by
      split
      · exact h.toggleAutoPlay (h.begun_of_playback hplay)
      · exact h
    exact (hstopped.leaveSim.setOp .put).wait fun _ _ => nofun
  | tick hauto =>
    have hbegun := h.begun_of_autoPlay hauto
    rcases Screen.tick_eq hbegun.ne_nil with ⟨_, hstop⟩ | ⟨i, entry, _, _, _, hnext⟩
    · rw [hstop]
      exact h.toggleAutoPlay hbegun
    · rw [hnext]
      exact h.showing i entry
  | reqApi data htasks =>
    exact (h.taken htasks).of_eq rfl rfl rfl rfl rfl rfl rfl fun _ _ hmem => hmem
  | reqApiFails what htasks =>
    exact (h.taken htasks).of_eq rfl rfl rfl rfl rfl rfl rfl fun _ _ hmem => hmem
  | simState currentState draws htasks _ =>
    exact ⟨h.playback, h.exec, h.play, h.index, fun _ => ⟨currentState, [], rfl⟩⟩
  | simBatch states htasks _ => exact (h.taken htasks).simBatchDone (h.begun_of_batch htasks) _ _ _
  | exitState htasks =>
    exact ((h.taken htasks).reqApi _ _).of_eq rfl rfl rfl rfl rfl rfl rfl fun _ _ hmem => hmem
  | fails htasks _ => exact h.taken htasks

/-- What a step does to the history. -/
theorem ScreenStep.simHistory (hstep : ScreenStep mayStart mayArrive s s') :
    s'.simHistory = s.simHistory ∨
      (∃ view, s'.simHistory = [(Screen.captured view).entry]) ∨
      ∃ cap view genHistory states, mayArrive genHistory states ∧
        s'.simHistory = s.simHistory ++ (pushed cap view genHistory states).1 := by
  have htoggle : ∀ s : Screen, s.toggleAutoPlay.simHistory = s.simHistory := by
    intro s
    unfold Screen.toggleAutoPlay
    split <;> rfl
  have hstepSim : ∀ (s : Screen) (dir : Int), (s.stepSim dir).1.simHistory = s.simHistory := by
    intro s dir
    rw [Screen.stepSim, Screen.applySimState_simHistory]
  cases hstep with
  | executeOp k v _ =>
    left
    unfold Screen.executeOp
    split
    · split <;> rfl
    · split <;> rfl
    · split <;> rfl
    · rfl
  | showBootScreen =>
    left
    unfold Screen.showBootScreen
    split <;> rfl
  | stepSim dir _ => exact Or.inl (hstepSim s dir)
  | toggleAutoPlay _ => exact Or.inl (htoggle s)
  | exitSim _ =>
    left
    unfold Screen.exitSim
    split
    · exact htoggle s
    · rfl
  | tick _ =>
    left
    unfold Screen.tick
    split
    · exact htoggle s
    · exact hstepSim s 1
  | simState currentState draws _ _ => exact Or.inr (Or.inl ⟨currentState, rfl⟩)
  | @simBatch _ _ currentState genHistory states _ harrive =>
    refine Or.inr (Or.inr ⟨currentState.capacity, currentState, genHistory, states, harrive, ?_⟩)
    unfold Screen.simBatchDone
    rcases pushed currentState.capacity currentState genHistory states with ⟨entries, complete⟩
    cases complete with
    | true => exact Screen.applySimState_simHistory _
    | false => rfl
  | _ => exact Or.inl rfl

end Invariant

end LruCache
