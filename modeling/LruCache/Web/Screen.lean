import LruCache.Web.Playback

/-!
# What the page shows

The buttons and keys of `public/app.js`, the timer of the playback, and the functions that wait
for an answer of the server: `reqApi`, `runSimulation` and `exitSim` go on when their answer
arrives, in any order, or never. A state of the page (`Screen`) is what these functions read and
write; a function that throws leaves the page as it has changed it so far.

`ScreenStep` is a click, a key, a tick or an answer. `LruCache.Web.ScreenInv` has the invariant of
its runs, `LruCache.Web.ScreenRuns` what the playback and its timer do in every run, and
`LruCache.Web.Solo` what is played if simulations do not overlap.

Deliberate scope limits:

* The answers of the server are any states at all; what they are is in `LruCache.Web.Playback`.
* The texts that are typed, the focus, the styles and the times of day are left out, and so is what
  `render` does to the elements of the cache.
* A tick, a click or an answer is one step: nothing interrupts a function between two awaits.
-/

namespace LruCache

/-! ## The variables -/

/-- `currentOp`. -/
inductive Tab where
  | put
  | get
  | del
  | sim
deriving DecidableEq, Repr

/-- A function that waits for an answer, and what it goes on with. -/
inductive Task where
  /-- `reqApi`, with `successMsg`, and whether hits and misses are told apart. -/
  | reqApi (successMsg : String) (hitMissLogic : Bool) (prevHits : Nat)
  /-- `runSimulation` before the state arrives. -/
  | simState (ops : Int)
  /-- `runSimulation` before the answer to the batch arrives. -/
  | simBatch (currentState : StateView) (genHistory : List GenEntry)
  /-- `exitSim`. -/
  | exitState

abbrev Line := String × LogLevel

/-- An entry of `simHistory`; its state is missing if the answer to the batch was too short. -/
structure HistoryEntry where
  state : Option StateView
  logMsg : String
  logLvl : LogLevel

def HistoryEntry.line (entry : HistoryEntry) : Line := (entry.logMsg, entry.logLvl)

/-- An entry whose state has arrived. -/
def SimEntry.entry (entry : SimEntry) : HistoryEntry where
  state := some entry.state
  logMsg := entry.logMsg
  logLvl := entry.logLvl

/-- The page. Of the elements there is whether they are displayed, and their text. -/
structure Screen where
  /-- `init-overlay`. -/
  overlay : Bool
  /-- `btn-exec`. -/
  btnExec : Bool
  /-- `sim-playback`. -/
  simPlayback : Bool
  btnPlay : String
  simStepLabel : Int × Int
  /-- `console`, the line on top first. -/
  console : List Line
  /-- What `render` was called with last. -/
  rendered : Option StateView
  currentOp : Tab
  simHistory : List HistoryEntry
  simIndex : Int
  inSimulation : Bool
  /-- Is there an `autoPlayInterval`? -/
  autoPlay : Bool
  tasks : List Task

/-- The page as it is loaded. -/
def Screen.load : Screen where
  overlay := true
  btnExec := true
  simPlayback := false
  btnPlay := "PLAY"
  simStepLabel := (0, 0)
  console := []
  rendered := none
  currentOp := .put
  simHistory := []
  simIndex := 0
  inSimulation := false
  autoPlay := false
  tasks := []

/-! ## The functions -/

namespace Screen

def setOp (s : Screen) (op : Tab) : Screen := { s with currentOp := op }

def logTerminal (s : Screen) (line : Line) : Screen := { s with console := line :: s.console }

/-- `st-hits`. -/
def stHits (s : Screen) : Nat := (s.rendered.map StateView.hits).getD 0

/-- `reqApi` up to its `fetch`. -/
def reqApi (s : Screen) (successMsg : String) (hitMissLogic : Bool) : Screen :=
  { s with tasks := s.tasks ++ [.reqApi successMsg hitMissLogic s.stHits] }

/-- The lines of `simHistory` up to the entry `i`. -/
def linesTo (s : Screen) (i : Nat) : List Line :=
  ((s.simHistory.take (i + 1)).map HistoryEntry.line).reverse

/-- `simHistory[i]`. -/
def entryAt (s : Screen) (i : Int) : Option HistoryEntry :=
  if 0 ≤ i then s.simHistory[i.toNat]? else none

/-- `applySimState`, and whether it comes to its end. -/
def applySimState (s : Screen) : Screen × Bool :=
  match s.entryAt s.simIndex with
  | none => ({ s with console := if s.simIndex < 0 then [] else s.console }, false)
  | some entry =>
      let s := { s with console := s.linesTo s.simIndex.toNat }
      match entry.state with
      | none => (s, false)
      | some state =>
          ({ s with
              rendered := some state
              simStepLabel := (s.simIndex, s.simHistory.length - 1) }, true)

def stepSim (s : Screen) (dir : Int) : Screen × Bool :=
  let simIndex := s.simIndex + dir
  let simIndex := if simIndex < 0 then 0 else simIndex
  let simIndex :=
    if simIndex ≥ s.simHistory.length then (s.simHistory.length : Int) - 1 else simIndex
  applySimState { s with simIndex := simIndex }

def toggleAutoPlay (s : Screen) : Screen :=
  if s.autoPlay then { s with autoPlay := false, btnPlay := "PLAY" }
  else { s with autoPlay := true, btnPlay := "PAUSE" }

/-- What `autoPlayInterval` calls. -/
def tick (s : Screen) : Screen × Bool :=
  if s.simIndex ≥ s.simHistory.length - 1 then (s.toggleAutoPlay, true) else s.stepSim 1

/-- `runSimulation` up to its first `fetch`. -/
def runSimulation (s : Screen) (ops : Int) : Screen :=
  { s with
    console := [("[SIM] Starting generation: Ops=" ++ toString ops, .info)]
    tasks := s.tasks ++ [.simState ops] }

/-- `parseInt(...) || 20`, and at most 100. -/
def simOps (entered : Option Int) : Int :=
  let ops := if entered.getD 0 = 0 then 20 else entered.getD 0
  if ops > 100 then 100 else ops

/-- `executeOp`, except for simulations. -/
def executeOp (s : Screen) (k v : String) : Screen :=
  match s.currentOp with
  | .put => if k = "" ∨ v = "" then s else s.reqApi ("PUT " ++ k ++ "=" ++ v) false
  | .get => if k = "" then s else s.reqApi ("GET " ++ k) true
  | .del => if k = "" then s else s.reqApi ("DEL " ++ k) false
  | .sim => s

/-- The end of a simulation, for the page. -/
def leaveSim (s : Screen) : Screen :=
  { s with inSimulation := false, simPlayback := false, btnExec := true }

/-- The end of `runSimulation`, for the page. -/
def enterSim (s : Screen) : Screen :=
  { s with inSimulation := true, btnExec := false, simPlayback := true }

/-- `exitSim` up to its `fetch`. -/
def exitSim (s : Screen) : Screen :=
  let s := if s.autoPlay then s.toggleAutoPlay else s
  let s := s.leaveSim.setOp .put
  { s with tasks := s.tasks ++ [.exitState] }

def bootSystem (s : Screen) (c : String) : Screen :=
  { s with overlay := false }.reqApi ("SYSTEM_BOOT CAP=" ++ c) false

def showBootScreen (s : Screen) : Screen :=
  let s := if s.inSimulation then s.leaveSim else s
  { s with overlay := true, console := [] }.setOp .put

/-! Answers arrive. -/

/-- The second part of `reqApi`. -/
def reqApiDone (s : Screen) (successMsg : String) (hitMissLogic : Bool) (prevHits : Nat)
    (data : StateView) : Screen :=
  let line : Line :=
    if hitMissLogic then
      if data.hits > prevHits then (successMsg ++ " -> HIT", .ok)
      else (successMsg ++ " -> MISS", .err)
    else (successMsg, .ok)
  { s.logTerminal line with rendered := some data }

/-- The first entry of a simulation. -/
def captured (currentState : StateView) : SimEntry where
  state := currentState
  logMsg := "[SIM] Captured existing cache state (CAP=" ++ toString currentState.capacity ++ ")"
  logLvl := .info

/-- The part of `runSimulation` between its two fetches, with the draws of each round. -/
def simStateDone (s : Screen) (currentState : StateView) (draws : List Draws) : Screen :=
  { s with
    simHistory := [(captured currentState).entry]
    tasks := s.tasks ++ [.simBatch currentState (generate currentState draws).genHistory] }

end Screen

/-- The entry that is pushed without a state; for a get, the state is read before that. -/
def missing (cap : Nat) (prevState : StateView) (entry : GenEntry) : List HistoryEntry :=
  match entry.operation with
  | .get _ => []
  | op =>
      let (outcome, lvl) := verdict cap prevState prevState op
      [{ state := none, logMsg := entry.msg ++ outcome, logLvl := lvl }]

/-- What the second loop of `runSimulation` pushes, and whether it comes to its end. -/
def pushed (cap : Nat) : StateView → List GenEntry → List StateView → List HistoryEntry × Bool
  | _, [], _ => ([], true)
  | prevState, entry :: _, [] => (missing cap prevState entry, false)
  | prevState, entry :: entries, currentState :: states =>
      let (outcome, lvl) := verdict cap prevState currentState entry.operation
      let (rest, complete) := pushed cap currentState entries states
      ({ state := some currentState, logMsg := entry.msg ++ outcome, logLvl := lvl } :: rest,
        complete)

namespace Screen

/-- The last part of `runSimulation`, and whether it comes to its end. -/
def simBatchDone (s : Screen) (currentState : StateView) (genHistory : List GenEntry)
    (states : List StateView) : Screen × Bool :=
  let (entries, complete) := pushed currentState.capacity currentState genHistory states
  let s := { s with simHistory := s.simHistory ++ entries }
  if complete then applySimState { s.enterSim with simIndex := 0 } else (s, false)

/-- The last part of `exitSim`. -/
def exitStateDone (s : Screen) : Screen :=
  { s.reqApi "Simulation Exited - Cache Cleared" false with console := [] }

end Screen

/-! ## Steps -/

/-- A click, a key, a tick or an answer; `mayStart` says when a simulation may be started, and
`mayArrive` what a batch may be answered with. Only what is displayed can be clicked, and the
enter key executes whenever the overlay is away. -/
inductive ScreenStep (mayStart : Screen → Prop) (mayArrive : List GenEntry → List StateView → Prop)
    (s : Screen) : Screen → Prop
  | setOp (op : Tab) : ScreenStep mayStart mayArrive s (s.setOp op)
  | executeOp (k v : String) : s.btnExec ∨ ¬ s.overlay →
      ScreenStep mayStart mayArrive s (s.executeOp k v)
  | runSimulation (entered : Option Int) : s.btnExec ∨ ¬ s.overlay → s.currentOp = .sim →
      mayStart s → ScreenStep mayStart mayArrive s (s.runSimulation (Screen.simOps entered))
  | bootSystem (c : String) : s.overlay → ScreenStep mayStart mayArrive s (s.bootSystem c)
  | showBootScreen : ScreenStep mayStart mayArrive s s.showBootScreen
  | stepSim (dir : Int) : s.simPlayback → ScreenStep mayStart mayArrive s (s.stepSim dir).1
  | toggleAutoPlay : s.simPlayback → ScreenStep mayStart mayArrive s s.toggleAutoPlay
  | exitSim : s.simPlayback → ScreenStep mayStart mayArrive s s.exitSim
  | tick : s.autoPlay → ScreenStep mayStart mayArrive s s.tick.1
  | reqApi {before later : List Task} {msg : String} {hitMiss : Bool} {prevHits : Nat}
      (data : StateView) : s.tasks = before ++ .reqApi msg hitMiss prevHits :: later →
      ScreenStep mayStart mayArrive s
        ({ s with tasks := before ++ later }.reqApiDone msg hitMiss prevHits data)
  | reqApiFails {before later : List Task} {msg : String} {hitMiss : Bool} {prevHits : Nat}
      (what : String) : s.tasks = before ++ .reqApi msg hitMiss prevHits :: later →
      ScreenStep mayStart mayArrive s
        ({ s with tasks := before ++ later }.logTerminal ("REQ_FAIL: " ++ what, .err))
  | simState {before later : List Task} {ops : Int} (currentState : StateView)
      (draws : List Draws) : s.tasks = before ++ .simState ops :: later →
      draws.length = ops.toNat →
      ScreenStep mayStart mayArrive s
        ({ s with tasks := before ++ later }.simStateDone currentState draws)
  | simBatch {before later : List Task} {currentState : StateView} {genHistory : List GenEntry}
      (states : List StateView) :
      s.tasks = before ++ .simBatch currentState genHistory :: later → mayArrive genHistory states →
      ScreenStep mayStart mayArrive s
        ({ s with tasks := before ++ later }.simBatchDone currentState genHistory states).1
  | exitState {before later : List Task} : s.tasks = before ++ .exitState :: later →
      ScreenStep mayStart mayArrive s ({ s with tasks := before ++ later }.exitStateDone)
  /-- A `fetch` of `runSimulation` or `exitSim` fails, and nothing catches it. -/
  | fails {before later : List Task} {task : Task} : s.tasks = before ++ task :: later →
      (∀ msg hitMiss prevHits, task ≠ .reqApi msg hitMiss prevHits) →
      ScreenStep mayStart mayArrive s { s with tasks := before ++ later }

end LruCache
