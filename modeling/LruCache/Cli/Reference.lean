import LruCache.Cache.Serves
import LruCache.Cli.Model

/-!
# The simulator as its users see it

A reference for `src/main.cpp` that is not taken from the code: the commands of the menu over the
reference machine of `Recency`, which is a least-recently-used store with unbounded counters, and
what they say, as `Message`s with their texts. Nothing of it refers to a handler, to its texts or to
the `switch` of the program; only the input is read by the same functions (`readLine`,
`readChoice`, `readCapacity`), as both are to be driven by the same lines.

What the keys and values are, and how a text gets to be one, is a `Naming`: `numbers` is the one
of the source, with the registry between texts and numbers; `texts` takes the texts themselves.

Main results:

* `Message`, `Message.text`: what the simulator says.
* `Command.ofChoice`: what the choices of the menu mean.
* `referenceMain`: one turn of the reference.
* `Kept.referenceMain`: what printing, reading and entering keep, a turn keeps.

Deliberate scope limits: how the hit ratio is written is left open, as in the model.
-/

namespace LruCache

open Recency Transition

/-! ## Messages -/

/-- What the simulator says. -/
inductive Message where
  | menu (capacity : Nat)
  | keyEmpty
  | valueEmpty
  | stored (key value : String)
  | full (size capacity : Nat)
  | nothingToGet
  | hit (key value : String)
  | miss (key : String)
  | nothingToRemove
  | removed (key : String) (size capacity : Nat)
  | notFound (key : String)
  | noContents
  /-- The stored pairs, from most to least recent. -/
  | contents (capacity : Nat) (pairs : List (String × String))
  | statistics (capacity size requests hits misses evictions : Nat) (ratio : String)
  | nothingToClear
  | cleared (size : Nat)
  | created (capacity : Nat)
  | resetting
  | reset (capacity : Nat)
  | goodbye
  | invalidChoice
deriving DecidableEq, Repr

/-- The lines for the pairs from position `index` on. -/
def pairLines : Nat → List (String × String) → String
  | _, [] => ""
  | index, (key, value) :: pairs =>
      "  " ++ toString index ++ ". " ++ key ++ " = " ++ value ++ "\n" ++ pairLines (index + 1) pairs

/-- A cache as it is displayed, between the lines around it. -/
def contentsText (capacity : Nat) (pairs : List (String × String)) : String :=
  "Cache (" ++ toString pairs.length ++ "/" ++ toString capacity ++ ") [MRU -> LRU]:\n" ++
    pairLines 1 pairs

/-- How it is said. -/
def Message.text : Message → String
  | menu capacity =>
      "\n" ++ "  Current Capacity : " ++ toString capacity ++ "\n" ++ "\n" ++
        "  1.  Put Item\n" ++ "  2.  Get Item\n" ++ "  3.  Remove Item\n" ++
        "  4.  Display Cache\n" ++ "  5.  Cache Statistics\n" ++ "  6.  Clear Cache\n" ++
        "  7.  Reset Cache\n" ++ "  8.  Exit\n" ++ "\n" ++ "  Enter Choice : "
  | keyEmpty => "  [ERROR] Key cannot be empty.\n"
  | valueEmpty => "  [ERROR] Value cannot be empty.\n"
  | stored key value => "\n  [OK] Stored: " ++ key ++ " = " ++ value ++ "\n"
  | full size capacity =>
      "  [INFO] Cache is full (" ++ toString size ++ "/" ++ toString capacity ++ ")\n"
  | nothingToGet => "\n  [INFO] Cache is currently empty. Nothing to get.\n"
  | hit key value =>
      "\n" ++ ("  [HIT] " ++ key ++ " = " ++ value ++ "\n" ++
        "  [INFO] '" ++ key ++ "' promoted to Most Recently Used\n")
  | miss key => "\n" ++ ("  [MISS] Key '" ++ key ++ "' not found in cache.\n")
  | nothingToRemove => "\n  [INFO] Cache is currently empty. Nothing to remove.\n"
  | removed key size capacity =>
      "\n" ++ ("  [OK] Removed '" ++ key ++ "' from cache.\n" ++
        "  [INFO] Cache size: " ++ toString size ++ "/" ++ toString capacity ++ "\n")
  | notFound key => "\n" ++ ("  [ERROR] Key '" ++ key ++ "' not found in cache.\n")
  | noContents => "\n" ++ "  (cache is empty)\n"
  | contents capacity pairs =>
      "\n" ++ ("  ---- Cache Contents ----\n" ++ (contentsText capacity pairs ++
        "  ------------------------\n"))
  | statistics capacity size requests hits misses evictions ratio =>
      "\n" ++ "  ==============================\n" ++ "       Cache Statistics\n" ++
        "  ==============================\n" ++
        "  Capacity         : " ++ toString capacity ++ "\n" ++
        "  Current Size     : " ++ toString size ++ "\n" ++
        "  Total Requests   : " ++ toString requests ++ "\n" ++
        "  Cache Hits       : " ++ toString hits ++ "\n" ++
        "  Cache Misses     : " ++ toString misses ++ "\n" ++
        "  Evictions        : " ++ toString evictions ++ "\n" ++
        "  Hit Ratio        : " ++ ratio ++ "%\n" ++ "  ==============================\n"
  | nothingToClear => "\n  [INFO] Cache is already empty.\n"
  | cleared size => "\n  [OK] Cleared " ++ toString size ++ " items. Cache and statistics reset.\n"
  | created capacity => "\n  [OK] Cache created with capacity " ++ toString capacity ++ ".\n"
  | resetting => "\n  Resetting cache with new capacity.\n"
  | reset capacity => "  [OK] Cache reset with capacity " ++ toString capacity ++ ".\n"
  | goodbye => "\n  [INFO] Exiting Cache Simulator. Goodbye!\n\n"
  | invalidChoice => "\n  [ERROR] Invalid choice. Please enter a number between 1 and 8.\n"

/-- What the choices of the menu mean. -/
inductive Command where
  | put
  | get
  | remove
  | display
  | statistics
  | clear
  | reset
  | exit
  | invalid
deriving DecidableEq, Repr

/-- The command for a number that was chosen. -/
def Command.ofChoice : Int → Command
  | 1 => .put
  | 2 => .get
  | 3 => .remove
  | 4 => .display
  | 5 => .statistics
  | 6 => .clear
  | 7 => .reset
  | 8 => .exit
  | _ => .invalid

/-! ## Namings -/

/-- How texts are turned into keys and values, and back; `ρ` is what is remembered for it. -/
structure Naming (κ ρ : Type) where
  enter : ρ → String → κ × ρ
  text : ρ → κ → String

/-- Numbers for texts, as in the source. -/
def numbers (hash : String → UInt64) : Naming UInt64 Registry where
  enter := toUint64 hash
  text := fromUint64

/-- Texts for texts; what is remembered are the texts that were entered. -/
def texts : Naming String (List String) where
  enter := fun typed str => (str, typed ++ [str])
  text := fun _ str => str

/-! ## The commands -/

section Commands

variable {κ ρ : Type}

/-- The key or value for a text that is entered. -/
def Console.enter (N : Naming κ ρ) (con : Console ρ) (str : String) : κ × Console ρ :=
  let (val, registry) := N.enter con.registry str
  (val, { con with registry := registry })

/-- The text that a key or value is shown as. -/
def Console.text (N : Naming κ ρ) (con : Console ρ) (val : κ) : String := N.text con.registry val

/-- The simulator says something. -/
def Console.say (con : Console ρ) (message : Message) : Console ρ := con.print message.text

/-- The stored pairs as texts, from most to least recent. -/
def shownPairs (N : Naming κ ρ) (con : Console ρ) (st : State κ κ) : List (String × String) :=
  st.store.items.map fun p => (con.text N p.1, con.text N p.2)

/-- A turn at a capacity prompt: `created` is the message to a capacity, `again` where to go on
without one. -/
def promptStep (created : Nat → Message) (again : Point (State κ κ)) (con : Console ρ) :
    Simulator ρ (State κ κ) :=
  match readCapacity con with
  | (none, con) => { console := con, point := again }
  | (some capacity, con) =>
      -- a capacity that is read is positive (`readCapacity_range`)
      if hpos : 0 < capacity then
        { console := con.say (created capacity), point := .menu (State.init capacity hpos) }
      else { console := con, point := again }

/-- A line that is no capacity leaves the prompt as it is. -/
theorem promptStep_none {created : Nat → Message} {again : Point (State κ κ)}
    {con con₁ : Console ρ} (hread : readCapacity con = (none, con₁)) :
    promptStep created again con = { console := con₁, point := again } := by
  unfold promptStep
  rw [hread]

/-- A capacity leads to the menu, over an empty store. -/
theorem promptStep_some {created : Nat → Message} {again : Point (State κ κ)}
    {con con₁ : Console ρ} {capacity : Nat} (hread : readCapacity con = (some capacity, con₁))
    (hpos : 0 < capacity) :
    promptStep created again con = { console := con₁.say (created capacity)
                                     point := .menu (State.init capacity hpos) } := by
  unfold promptStep
  rw [hread]
  exact dif_pos hpos

/-- The common part of the commands about a stored key: on an empty cache there is nothing to do;
otherwise a key is asked for, and `act` is done with it. -/
def keyCommand (N : Naming κ ρ) (nothing : Message) (prompt : String)
    (act : String → κ → Console ρ → Console ρ × State κ κ) (con : Console ρ) (st : State κ κ) :
    Console ρ × State κ κ :=
  if st.store.items.isEmpty then (con.say nothing, st)
  else
    let (keyStr, con) := readLine prompt con
    if keyStr = "" then (con.say .keyEmpty, st)
    else
      let (key, con) := con.enter N keyStr
      act keyStr key con

/-- The stored pairs are shown. -/
def displayCommand (N : Naming κ ρ) (con : Console ρ) (st : State κ κ) :
    Console ρ × State κ κ :=
  (con.say (if st.store.items.isEmpty then .noContents
    else .contents st.store.cap (shownPairs N con st)), st)

/-- The counters of the reference are unbounded, and shown as a `std::size_t`. -/
def statistics (ratio : Nat → Nat → String) (st : State κ κ) : Message :=
  .statistics st.store.cap st.store.items.length (wrap (st.hits + st.misses)) (wrap st.hits)
    (wrap st.misses) (wrap st.evictions) (ratio (wrap st.hits) (wrap (st.hits + st.misses)))

/-- The statistics are shown. -/
def statsCommand (ratio : Nat → Nat → String) (con : Console ρ) (st : State κ κ) :
    Console ρ × State κ κ :=
  (con.say (statistics ratio st), st)

/-- The cache is emptied, with its statistics. -/
def clearCommand (con : Console ρ) (st : State κ κ) : Console ρ × State κ κ :=
  if st.store.items.isEmpty then (con.say .nothingToClear, st)
  else (con.say (.cleared st.store.items.length), st.clear)

variable [DecidableEq κ]

/-- A key and a value are asked for and stored. -/
def putCommand (N : Naming κ ρ) (con : Console ρ) (st : State κ κ) : Console ρ × State κ κ :=
  let (keyStr, con) := readLine "  Enter key   : " con
  if keyStr = "" then (con.say .keyEmpty, st)
  else
    let (valStr, con) := readLine "  Enter value : " con
    if valStr = "" then (con.say .valueEmpty, st)
    else
      let (key, con) := con.enter N keyStr
      let (value, con) := con.enter N valStr
      let st := st.put key value
      let con := con.say (.stored keyStr valStr)
      (if st.store.items.length = st.store.cap then
        con.say (.full st.store.items.length st.store.cap) else con, st)

/-- The text stored under a key is shown, and the key is the most recent one from now on. -/
def getKeyed (N : Naming κ ρ) (st : State κ κ) (keyStr : String) (key : κ) (con : Console ρ) :
    Console ρ × State κ κ :=
  (con.say (match st.store.items.lookup key with
    | some value => .hit keyStr (con.text N value)
    | none => .miss keyStr), (st.get key).2)

/-- `getKeyed` for a key that is asked for. -/
def getCommand (N : Naming κ ρ) (con : Console ρ) (st : State κ κ) : Console ρ × State κ κ :=
  keyCommand N .nothingToGet "  Enter key : " (getKeyed N st) con st

/-- A pair is removed, if the key is stored. -/
def removeKeyed (st : State κ κ) (keyStr : String) (key : κ) (con : Console ρ) :
    Console ρ × State κ κ :=
  (con.say (if key ∈ keys st.store.items then
    .removed keyStr (st.remove key).2.store.items.length st.store.cap
    else .notFound keyStr), (st.remove key).2)

/-- `removeKeyed` for a key that is asked for. -/
def removeCommand (N : Naming κ ρ) (con : Console ρ) (st : State κ κ) : Console ρ × State κ κ :=
  keyCommand N .nothingToRemove "  Enter key to remove : " (removeKeyed st) con st

/-- Back to the menu, after a command. -/
def backToMenu (result : Console ρ × State κ κ) : Simulator ρ (State κ κ) :=
  { console := result.1, point := .menu result.2 }

/-- A command is carried out. -/
def carryOut (N : Naming κ ρ) (ratio : Nat → Nat → String) (con : Console ρ) (st : State κ κ) :
    Command → Simulator ρ (State κ κ)
  | .put => backToMenu (putCommand N con st)
  | .get => backToMenu (getCommand N con st)
  | .remove => backToMenu (removeCommand N con st)
  | .display => backToMenu (displayCommand N con st)
  | .statistics => backToMenu (statsCommand ratio con st)
  | .clear => backToMenu (clearCommand con st)
  | .reset => { console := con.say .resetting, point := .resetting st }
  | .exit => { console := con.say .goodbye, point := .exited }
  | .invalid => { console := con.say .invalidChoice, point := .menu st }

/-- One turn of the simulator. -/
def referenceMain (N : Naming κ ρ) (ratio : Nat → Nat → String) (s : Simulator ρ (State κ κ)) :
    Simulator ρ (State κ κ) :=
  match s.point with
  | .start => promptStep .created .start s.console
  | .menu st =>
      let (choice, con) := readChoice (s.console.say (.menu st.store.cap))
      carryOut N ratio con st (.ofChoice choice)
  | .resetting st => promptStep .reset (.resetting st) s.console
  | .exited => s

/-- The simulator before its first read. -/
def referenceStart (registry : ρ) (lines : List String) : Simulator ρ (State κ κ) :=
  { console := { lines := lines, out := "", registry := registry }, point := .start }

end Commands

/-! ## What all commands keep -/

/-- A property of the console that printing and reading a line keep. -/
structure StreamKept {ρ : Type} (P : Console ρ → Prop) : Prop where
  print : ∀ {con : Console ρ}, P con → ∀ text, P (con.print text)
  getline : ∀ {con : Console ρ}, P con → P con.getline.2

/-- A property of the console that entering a text keeps, too. -/
structure Kept {κ ρ : Type} (N : Naming κ ρ) (P : Console ρ → Prop) : Prop
    extends StreamKept P where
  enter : ∀ {con : Console ρ}, P con → ∀ str, P (con.enter N str).2

section Kept

variable {κ ρ : Type} {N : Naming κ ρ} {P : Console ρ → Prop} {ratio : Nat → Nat → String}
variable {con con' : Console ρ} {st : State κ κ}

theorem StreamKept.say (h : StreamKept P) (hcon : P con) (message : Message) :
    P (con.say message) :=
  h.print hcon _

theorem StreamKept.of_readLine (h : StreamKept P) {prompt input : String} (hcon : P con)
    (hread : readLine prompt con = (input, con')) : P con' := by
  have hcon' : P (readLine prompt con).2 := h.getline (h.print hcon prompt)
  rw [hread] at hcon'
  exact hcon'

theorem StreamKept.of_readChoice (h : StreamKept P) {choice : Int} (hcon : P con)
    (hread : readChoice con = (choice, con')) : P con' := by
  have hcon' := h.getline hcon
  cases hlines : con.lines with
  | nil =>
    rw [readChoice_nil hlines] at hread
    cases hread
    exact hcon
  | cons line lines =>
    rw [readChoice_cons hlines] at hread
    cases hread
    rw [Console.getline, hlines] at hcon'
    exact hcon'

theorem StreamKept.of_readCapacity (h : StreamKept P) {answer : Option Nat} (hcon : P con)
    (hread : readCapacity con = (answer, con')) : P con' := by
  rcases hline : readLine "  Enter cache capacity (1-10000) : " con with ⟨line, con₁⟩
  have h₁ := h.of_readLine hcon hline
  cases hparse : parseCapacity line with
  | error text =>
    rw [readCapacity_error hline hparse] at hread
    cases hread
    exact h.print h₁ text
  | ok capacity =>
    rw [readCapacity_ok hline hparse] at hread
    cases hread
    exact h₁

theorem Kept.clearCommand (h : Kept N P) (hcon : P con) : P (LruCache.clearCommand con st).1 := by
  unfold LruCache.clearCommand
  split <;> exact h.say hcon _

theorem Kept.promptStep (h : Kept N P) (hcon : P con) (created : Nat → Message)
    (again : Point (State κ κ)) : P (promptStep created again con).console := by
  rcases hread : readCapacity con with ⟨_ | capacity, con₁⟩
  · rw [promptStep_none hread]
    exact h.of_readCapacity hcon hread
  · rw [promptStep_some hread (readCapacity_range hread).1]
    exact h.say (h.of_readCapacity hcon hread) _

/-- For gets and removals, it is enough to look at what is done with the key. -/
theorem Kept.keyCommand (h : Kept N P) (hcon : P con) {nothing : Message} {prompt : String}
    {act : String → κ → Console ρ → Console ρ × State κ κ}
    (hact : ∀ keyStr key con, P con → P (act keyStr key con).1) :
    P (LruCache.keyCommand N nothing prompt act con st).1 := by
  unfold LruCache.keyCommand
  split
  · exact h.say hcon _
  · rcases hkey : readLine prompt con with ⟨keyStr, con₁⟩
    have h₁ := h.of_readLine hcon hkey
    by_cases hempty : keyStr = ""
    · simp only [if_pos hempty]
      exact h.say h₁ _
    · simp only [if_neg hempty]
      exact hact keyStr _ _ (h.enter h₁ keyStr)

variable [DecidableEq κ]

theorem Kept.putCommand (h : Kept N P) (hcon : P con) : P (LruCache.putCommand N con st).1 := by
  unfold LruCache.putCommand
  rcases hkey : readLine "  Enter key   : " con with ⟨keyStr, con₁⟩
  have h₁ := h.of_readLine hcon hkey
  by_cases hempty : keyStr = ""
  · simp only [if_pos hempty]
    exact h.say h₁ _
  · simp only [if_neg hempty]
    rcases hval : readLine "  Enter value : " con₁ with ⟨valStr, con₂⟩
    have h₂ := h.of_readLine h₁ hval
    by_cases hempty' : valStr = ""
    · simp only [if_pos hempty']
      exact h.say h₂ _
    · simp only [if_neg hempty']
      have h₃ := h.enter (h.enter h₂ keyStr) valStr
      split
      · exact h.say (h.say h₃ _) _
      · exact h.say h₃ _

theorem Kept.carryOut (h : Kept N P) (hcon : P con) (command : Command) :
    P (LruCache.carryOut N ratio con st command).console := by
  cases command with
  | put => exact h.putCommand hcon
  | get => exact h.keyCommand hcon fun _ _ _ hcon => h.say hcon _
  | remove => exact h.keyCommand hcon fun _ _ _ hcon => h.say hcon _
  | display => exact h.say hcon _
  | statistics => exact h.say hcon _
  | clear => exact h.clearCommand hcon
  | reset => exact h.say hcon _
  | exit => exact h.say hcon _
  | invalid => exact h.say hcon _

/-- What printing, reading and entering keep, a turn keeps. -/
theorem Kept.referenceMain (h : Kept N P) {s : Simulator ρ (State κ κ)} (hs : P s.console) :
    P (LruCache.referenceMain N ratio s).console := by
  rcases s with ⟨con, point⟩
  have hcon : P con := hs
  cases point with
  | start =>
    simp only [LruCache.referenceMain]
    exact h.promptStep hcon _ _
  | menu st =>
    rcases hread : readChoice (con.say (.menu st.store.cap)) with ⟨choice, con₁⟩
    simp only [LruCache.referenceMain, hread]
    exact h.carryOut (h.of_readChoice (h.say hcon _) hread) _
  | resetting st =>
    simp only [LruCache.referenceMain]
    exact h.promptStep hcon _ _
  | exited => exact hcon

end Kept

end LruCache
