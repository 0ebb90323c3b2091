import LruCache.Lib.Double
import LruCache.Lib.InsertionOrder
import LruCache.Web.Page

/-!
# The simulation of the page, as the code has it

`runSimulation` of `public/app.js`: it asks for the state of the cache, makes up a list of
operations with a `Map` that is to foresee what the cache does, sends them as one batch, and says
of each of them what has come of it.

The numbers that `Math.random()` returns in one round of the loop are drawn in advance, one for
each place of the code that asks for one. They are doubles, as are the results of the arithmetic
on them and the decimals that they are compared with.

Deliberate scope limits: the time stamps of the log are left out. The language leaves `Math.pow`
to the engine; here the square is the rounded product, which is what engines compute.
-/

namespace LruCache

open FloatingPoint Recency

/-! ## Draws -/

/-- What `Math.random()` returns: a double from 0 on and below 1. -/
abbrev Draw := { r : ℚ // 0 ≤ r ∧ r < 1 ∧ double r = r }

instance : Inhabited Draw := ⟨⟨0, le_refl 0, zero_lt_one, nearest_zero 53 (-1074)⟩⟩

/-- `Math.floor(r * n)`. -/
def Draw.index (r : Draw) (n : Nat) : Nat := ⌊double (r.1 * n)⌋.toNat

/-- `Math.floor(Math.pow(r, 2) * n)`. -/
def Draw.hotIndex (r : Draw) (n : Nat) : Nat := ⌊double (double (r.1 * r.1) * n)⌋.toNat

/-- `Math.floor(r * 9000 + 1000)`. -/
def Draw.value (r : Draw) : Nat := ⌊double (double (r.1 * 9000) + 1000)⌋.toNat

/-- The draws of one round: for the operation, for the one that replaces it, for the decision
between old and new keys, for the key, and for the value. -/
structure Draws where
  r : Draw
  alternative : Draw
  decision : Draw
  choice : Draw
  value : Draw
deriving Inhabited

/-! ## Operations -/

/-- `possibleKeys`. -/
def possibleKeys : List String :=
  ["Alpha", "Beta", "Gamma", "Delta", "Epsilon", "Zeta", "Eta", "Theta", "Iota", "Kappa",
    "Lambda", "Mu", "Nu", "Xi", "Omicron", "Pi", "Rho", "Sigma", "Tau", "Upsilon", "Phi", "Chi",
    "Psi", "Omega",
    "Apollo", "Athena", "Ares", "Hades", "Zeus", "Hera"]

/-- `fullness < 0.9`, of a cache whose capacity is positive. -/
def filling (size cap : Nat) : Bool := decide (double (size / cap) < double (9 / 10))

/-- The operation that is drawn; `stored` says whether there are any keys. -/
def drawOp (filling : Bool) (r : Draw) (stored : Bool) : PageOp :=
  if filling then
    if r.1 < double (80 / 100) then .put
    else if r.1 < double (95 / 100) ∧ stored then .get
    else .del
  else
    if r.1 < double (65 / 100) ∧ stored then .get
    else if r.1 < double (85 / 100) then .put
    else if r.1 < double (95 / 100) then .get
    else .del

/-- `lastOpType` and `consecutiveCount`. -/
structure Streak where
  lastOpType : Option PageOp
  consecutiveCount : Nat

/-- At most two operations of one kind in a row: a third one is replaced by another one. -/
def Streak.limit (s : Streak) (opType : PageOp) (alternative : Draw) : PageOp × Streak :=
  if some opType = s.lastOpType then
    if s.consecutiveCount + 1 > 2 then
      let altOps := [PageOp.put, .get, .del].filter (· ≠ opType)
      let opType := altOps[alternative.index altOps.length]?.getD opType
      (opType, { lastOpType := some opType, consecutiveCount := 1 })
    else (opType, { s with consecutiveCount := s.consecutiveCount + 1 })
  else (opType, { lastOpType := some opType, consecutiveCount := 1 })

/-! ## Keys -/

/-- `keys[i]`, as it is put into a text. -/
def keyAt (keys : List String) (i : Nat) : String := keys[i]?.getD "undefined"

/-- The names that are not stored. -/
def missingKeys (shadowCache : InsertionOrder String) : List String :=
  possibleKeys.filter fun k => !shadowCache.has k

/-- A key that is not stored, if there is one. -/
def missingKey (shadowCache : InsertionOrder String) (choice : Draw) : String :=
  if (missingKeys shadowCache).length > 0 then
    keyAt (missingKeys shadowCache) (choice.index (missingKeys shadowCache).length)
  else keyAt possibleKeys 0

/-- The key of a put: mostly a name that is not in the map, else a key of the map. -/
def putKey (shadowCache : InsertionOrder String) (draws : Draws) : String :=
  let currentKeys := shadowCache.keys
  let missing := missingKeys shadowCache
  if missing.length > 0 ∧ draws.decision.1 < double (8 / 10) then
    keyAt missing (draws.choice.index missing.length)
  else if currentKeys.length > 0 then
    keyAt currentKeys (draws.choice.index currentKeys.length)
  else keyAt possibleKeys (draws.choice.index possibleKeys.length)

/-- Keys that were used lately are favoured. -/
def getKey (filling : Bool) (shadowCache : InsertionOrder String) (draws : Draws) : String :=
  let currentKeys := shadowCache.keys
  let wantHit := if filling then true else decide (draws.r.1 < double (65 / 100))
  if wantHit ∧ currentKeys.length > 0 then
    keyAt currentKeys (currentKeys.length - 1 - draws.choice.hotIndex currentKeys.length)
  else missingKey shadowCache draws.choice

/-- The key of a deletion: mostly a key of the map. -/
def delKey (shadowCache : InsertionOrder String) (draws : Draws) : String :=
  let currentKeys := shadowCache.keys
  let wantHit := decide (draws.decision.1 < double (7 / 10))
  if wantHit ∧ currentKeys.length > 0 then
    keyAt currentKeys (draws.choice.index currentKeys.length)
  else missingKey shadowCache draws.choice

/-! ## One round -/

/-- The operation as the map foresees it. -/
def updateShadow (cap : Nat) (shadowCache : InsertionOrder String) :
    Operation → InsertionOrder String
  | .put key _ =>
      let shadowCache := (shadowCache.delete key).set key
      if cap < shadowCache.size then shadowCache.deleteFirst else shadowCache
  | .get key => if shadowCache.has key then (shadowCache.delete key).set key else shadowCache
  | .remove key => shadowCache.delete key

/-- How the log names the operation. -/
def Operation.msg : Operation → String
  | .put key value => "PUT " ++ key ++ "=" ++ value
  | .get key => "GET " ++ key
  | .remove key => "DEL " ++ key

/-- An entry of `genHistory`, the value being the one that is in `msg`. -/
structure GenEntry where
  operation : Operation
  msg : String

/-- The variables of the loop. -/
structure Generator where
  shadowCache : InsertionOrder String
  streak : Streak
  batchStr : String
  genHistory : List GenEntry

/-- The operation of a round, and what is remembered of the operations before it. -/
def Generator.choose (cap : Nat) (draws : Draws) (g : Generator) : Operation × Streak :=
  let filling := filling g.shadowCache.size cap
  let stored := decide (g.shadowCache.keys.length > 0)
  let (opType, streak) := g.streak.limit (drawOp filling draws.r stored) draws.alternative
  match opType with
  | .put => (.put (putKey g.shadowCache draws) (toString draws.value.value), streak)
  | .get => (.get (getKey filling g.shadowCache draws), streak)
  | .del => (.remove (delKey g.shadowCache draws), streak)

/-- One round of the loop, out of `ops`. -/
def Generator.round (cap ops : Nat) (g : Generator) (draws : Draws) : Generator :=
  let (operation, streak) := g.choose cap draws
  { shadowCache := updateShadow cap g.shadowCache operation
    streak := streak
    batchStr := g.batchStr ++ operation.token ++ "|"
    genHistory := g.genHistory ++ [{
      operation := operation
      msg := "[SIM " ++ toString (g.genHistory.length + 1) ++ "/" ++ toString ops ++ "] " ++
        operation.msg }] }

/-- The loop starts with the keys of the state, the least recent one first. -/
def Generator.start (currentState : StateView) : Generator where
  shadowCache := (currentState.nodes.map Prod.fst).foldr (fun k m => m.set k) InsertionOrder.empty
  streak := { lastOpType := none, consecutiveCount := 0 }
  batchStr := ""
  genHistory := []

/-- The whole loop. -/
def generate (currentState : StateView) (draws : List Draws) : Generator :=
  draws.foldl (Generator.round currentState.capacity draws.length) (Generator.start currentState)

/-! ## The log -/

/-- The levels of `logTerminal`. -/
inductive LogLevel where
  | ok
  | err
  | info
  | warn
deriving DecidableEq, Repr

/-- What the log says of an operation, by the states before and after it. -/
def verdict (cap : Nat) (prevState currentState : StateView) : Operation → String × LogLevel
  | .get _ =>
      if currentState.hits > prevState.hits then (" -> HIT", .ok) else (" -> MISS", .err)
  | .remove key =>
      if prevState.nodes.any fun n => n.1 == key then (" -> DELETED", .ok)
      else (" -> NOT_FOUND", .err)
  | .put key _ =>
      if prevState.nodes.any fun n => n.1 == key then (" -> UPDATED", .info)
      else if prevState.nodes.length ≥ cap then (" -> EVICTED_AND_INSERTED", .warn)
      else (" -> INSERTED", .ok)

/-- An entry of `simHistory`. -/
structure SimEntry where
  state : StateView
  logMsg : String
  logLvl : LogLevel

/-- The loop over `statesArray`. Where there is no state, reading it throws. -/
def playback (cap : Nat) : StateView → List GenEntry → List StateView → Option (List SimEntry)
  | _, [], _ => some []
  | _, _ :: _, [] => none
  | prevState, entry :: entries, currentState :: states =>
      let (outcome, lvl) := verdict cap prevState currentState entry.operation
      (playback cap currentState entries states).map fun rest =>
        { state := currentState, logMsg := entry.msg ++ outcome, logLvl := lvl } :: rest

/-- What is left of a simulation: the variables of the first loop, and the log. -/
structure Simulation where
  generator : Generator
  simHistory : List SimEntry

/-- The two loops, and what is between them, once the state has arrived. -/
def simulate (platform : Platform) (browser : Browser) (currentState : StateView)
    (draws : List Draws) (headers : String) (server : Server) :
    Except Fault (Option Simulation × Server) := do
  let g := generate currentState draws
  let (response, server) ← serve platform (recv (fetchPost (batchUrl g.batchStr) headers)) server
  let log := (browser.array response.body).bind
    (playback currentState.capacity currentState g.genHistory)
  let captured := {
    state := currentState
    logMsg := "[SIM] Captured existing cache state (CAP=" ++ toString currentState.capacity ++ ")"
    logLvl := .info }
  return (log.map fun log => { generator := g, simHistory := captured :: log }, server)

/-- `runSimulation(ops)`, with the draws of each round; no other page asks for anything. -/
def runSimulation (platform : Platform) (browser : Browser) (draws : List Draws)
    (headers : String × String) (server : Server) :
    Except Fault (Option Simulation × Server) := do
  let (views, server) ← exchange platform browser (.state, headers.1) server
  match views with
  | some [currentState] => simulate platform browser currentState draws headers.2 server
  | _ => return (none, server)

end LruCache
