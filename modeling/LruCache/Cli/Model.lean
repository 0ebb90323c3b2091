import LruCache.Cache.Model
import LruCache.Text.Registry

/-!
# The simulator as the code has it

A shallow embedding of `src/main.cpp`. A command works on the console (what is left on
`std::cin`, what was printed so far, and the registry) and on the cache. `main` is a state
machine: at the points `start` and `resetting` a step is one turn of the loop of
`read_capacity`, at the point `menu` one turn of the loop of `main`.

`std::cin` is the list of the lines that are still to come, then end of file. How `std::cout`
prints `hit_ratio()` is a parameter `ratio` of the hits and of all requests. Streams and points
do not depend on what the registry and the cache are, and are generic in them.

Deliberate scope limits:

* The input is a list of lines, and its end stays its end: `std::cin` is never cleared by anything
  that arrives later.
* A `std::string` is a text of characters, and what `std::cout` cannot print is not modelled.
* Allocation succeeds; capacities are at most 10000 here.
-/

namespace LruCache

/-! ## The console -/

/-- What a command works on: the lines that are still to be read, what has been printed, and the
registry. -/
structure Console (ρ : Type) where
  /-- The lines that are left on `std::cin`. -/
  lines : List String
  /-- What was written to `std::cout`. -/
  out : String
  registry : ρ

section Streams

variable {ρ : Type}

/-- `std::cout << text`. -/
def Console.print (con : Console ρ) (text : String) : Console ρ :=
  { con with out := con.out ++ text }

/-- `std::getline(std::cin, line)`, or `none` at end of file. -/
def Console.getline (con : Console ρ) : Option String × Console ρ :=
  match con.lines with
  | [] => (none, con)
  | line :: lines => (some line, { con with lines := lines })

/-- `read_line`. It does not look at the stream: at end of file the input is empty. -/
def readLine (prompt : String) (con : Console ρ) : String × Console ρ :=
  let (line, con) := (con.print prompt).getline
  (trimString (line.getD ""), con)

@[simp] theorem print_lines (con : Console ρ) (text : String) :
    (con.print text).lines = con.lines := rfl

@[simp] theorem print_registry (con : Console ρ) (text : String) :
    (con.print text).registry = con.registry := rfl

@[simp] theorem print_out (con : Console ρ) (text : String) :
    (con.print text).out = con.out ++ text := rfl

/-- `print_menu`. -/
def printMenu (currentCapacity : Nat) (con : Console ρ) : Console ρ :=
  con.print ("\n" ++
    "  Current Capacity : " ++ toString currentCapacity ++ "\n" ++
    "\n" ++
    "  1.  Put Item\n" ++
    "  2.  Get Item\n" ++
    "  3.  Remove Item\n" ++
    "  4.  Display Cache\n" ++
    "  5.  Cache Statistics\n" ++
    "  6.  Clear Cache\n" ++
    "  7.  Reset Cache\n" ++
    "  8.  Exit\n" ++
    "\n" ++
    "  Enter Choice : ")

/-- `read_choice`. -/
def readChoice (con : Console ρ) : Int × Console ρ :=
  match con.getline with
  | (none, con) => (8, con)
  | (some line, con) => ((readInt (-1) line.toList).value, con)

/-- What one turn of the loop of `read_capacity` makes of a line: the capacity, or the text of
the error after which the loop goes on. -/
def parseCapacity (line : String) : Except String Nat :=
  let read := readInt 0 line.toList
  if !read.ok || decide (read.value ≤ 0) || decide (read.value > 10000) then
    .error "  [ERROR] Please enter a number between 1 and 10000.\n"
  else if readsWord read.rest then
    .error "  [ERROR] Please enter a single number.\n"
  else
    .ok read.value.toNat

/-- One turn of the loop of `read_capacity`: the capacity, or `none` if the loop goes on. -/
def readCapacity (con : Console ρ) : Option Nat × Console ρ :=
  let (line, con) := readLine "  Enter cache capacity (1-10000) : " con
  match parseCapacity line with
  | .error text => (none, con.print text)
  | .ok capacity => (some capacity, con)

/-! What the readers do, by what is left of the input. -/

variable {con con₁ : Console ρ} {line text : String} {lines : List String}

/-- At the end of the input, the empty text is read. -/
theorem readLine_nil (h : con.lines = []) (prompt : String) :
    readLine prompt con = ("", con.print prompt) := by
  unfold readLine Console.getline
  rw [print_lines, h]
  rfl

/-- Else the next line, without the blanks around it. -/
theorem readLine_cons (h : con.lines = line :: lines) (prompt : String) :
    readLine prompt con = (trimString line, { con.print prompt with lines := lines }) := by
  unfold readLine Console.getline
  rw [print_lines, h]
  rfl

/-- At the end of the input, the menu is left. -/
theorem readChoice_nil (h : con.lines = []) : readChoice con = (8, con) := by
  unfold readChoice Console.getline
  rw [h]

/-- A line that begins with no number is the choice -1. -/
theorem readChoice_cons (h : con.lines = line :: lines) :
    readChoice con = ((readInt (-1) line.toList).value, { con with lines := lines }) := by
  unfold readChoice Console.getline
  rw [h]

/-- A line that is no capacity is answered with what is wrong with it. -/
theorem readCapacity_error
    (hread : readLine "  Enter cache capacity (1-10000) : " con = (line, con₁))
    (hparse : parseCapacity line = .error text) : readCapacity con = (none, con₁.print text) := by
  unfold readCapacity
  simp only [hread, hparse]

/-- Else it is the capacity. -/
theorem readCapacity_ok (hread : readLine "  Enter cache capacity (1-10000) : " con = (line, con₁))
    {capacity : Nat} (hparse : parseCapacity line = .ok capacity) :
    readCapacity con = (some capacity, con₁) := by
  unfold readCapacity
  simp only [hread, hparse]

/-- A capacity that `read_capacity` returns is between 1 and 10000. -/
theorem parseCapacity_range {capacity : Nat} (h : parseCapacity line = .ok capacity) :
    0 < capacity ∧ capacity ≤ 10000 := by
  simp only [parseCapacity] at h
  split at h
  · cases h
  · split at h
    · cases h
    · rename_i hrange _
      simp only [Bool.or_eq_true, Bool.not_eq_true', decide_eq_true_eq, not_or] at hrange
      have hcap := Except.ok.inj h
      omega

/-- A capacity that is read is between 1 and 10000. -/
theorem readCapacity_range {capacity : Nat} (h : readCapacity con = (some capacity, con₁)) :
    0 < capacity ∧ capacity ≤ 10000 := by
  rcases hread : readLine "  Enter cache capacity (1-10000) : " con with ⟨line, con₂⟩
  cases hparse : parseCapacity line with
  | error text =>
    rw [readCapacity_error hread hparse] at h
    cases h
  | ok value =>
    rw [readCapacity_ok hread hparse] at h
    cases h
    exact parseCapacity_range hparse

end Streams

/-- `to_uint64`, with the registry on the console. -/
def Console.toUint64 (hash : String → UInt64) (con : Console Registry) (str : String) :
    UInt64 × Console Registry :=
  let (val, registry) := LruCache.toUint64 hash con.registry str
  (val, { con with registry := registry })

/-- `from_uint64`. -/
def Console.fromUint64 (con : Console Registry) (val : UInt64) : String :=
  LruCache.fromUint64 con.registry val

/-! ## The texts of the commands -/

/-- What `handle_put` prints. -/
def storedText (keyStr valStr : String) : String :=
  "\n  [OK] Stored: " ++ keyStr ++ " = " ++ valStr ++ "\n"

/-- What it prints first if the cache is full. -/
def fullText (size capacity : Nat) : String :=
  "  [INFO] Cache is full (" ++ toString size ++ "/" ++ toString capacity ++ ")\n"

/-- What `handle_get` prints of a key that is found. -/
def hitText (keyStr valStr : String) : String :=
  "  [HIT] " ++ keyStr ++ " = " ++ valStr ++ "\n" ++
    "  [INFO] '" ++ keyStr ++ "' promoted to Most Recently Used\n"

/-- And of one that is not. -/
def missText (keyStr : String) : String :=
  "  [MISS] Key '" ++ keyStr ++ "' not found in cache.\n"

/-- What `handle_remove` prints of a key that was removed. -/
def removedText (keyStr : String) (size capacity : Nat) : String :=
  "  [OK] Removed '" ++ keyStr ++ "' from cache.\n" ++
    "  [INFO] Cache size: " ++ toString size ++ "/" ++ toString capacity ++ "\n"

/-- And of one that was not there. -/
def notFoundText (keyStr : String) : String :=
  "  [ERROR] Key '" ++ keyStr ++ "' not found in cache.\n"

/-- What `handle_stats` prints. -/
def statsText (capacity size totalRequests hits misses evictions : Nat) (hitRatio : String) :
    String :=
  "\n" ++
    "  ==============================\n" ++
    "       Cache Statistics\n" ++
    "  ==============================\n" ++
    "  Capacity         : " ++ toString capacity ++ "\n" ++
    "  Current Size     : " ++ toString size ++ "\n" ++
    "  Total Requests   : " ++ toString totalRequests ++ "\n" ++
    "  Cache Hits       : " ++ toString hits ++ "\n" ++
    "  Cache Misses     : " ++ toString misses ++ "\n" ++
    "  Evictions        : " ++ toString evictions ++ "\n" ++
    "  Hit Ratio        : " ++ hitRatio ++ "%\n" ++
    "  ==============================\n"

/-- What `handle_clear` prints. -/
def clearedText (oldSize : Nat) : String :=
  "\n  [OK] Cleared " ++ toString oldSize ++ " items. Cache and statistics reset.\n"

/-- What `main` prints of a new cache at its start. -/
def createdText (capacity : Nat) : String :=
  "\n  [OK] Cache created with capacity " ++ toString capacity ++ ".\n"

/-- And of one that takes the place of another. -/
def resetText (capacity : Nat) : String :=
  "  [OK] Cache reset with capacity " ++ toString capacity ++ ".\n"

/-! ## The commands -/

/-- `handle_put`. -/
def handlePut (hash : String → UInt64) (con : Console Registry) (cache : Cache) :
    Except Fault (Console Registry × Cache) :=
  let (keyStr, con) := readLine "  Enter key   : " con
  if keyStr = "" then
    .ok (con.print "  [ERROR] Key cannot be empty.\n", cache)
  else
    let (valStr, con) := readLine "  Enter value : " con
    if valStr = "" then
      .ok (con.print "  [ERROR] Value cannot be empty.\n", cache)
    else do
      let (key, con) := con.toUint64 hash keyStr
      let (value, con) := con.toUint64 hash valStr
      let cache ← cache.put (hashKey cache.hashMask) key value
      let con := con.print (storedText keyStr valStr)
      return (if cache.size = cache.capacity then con.print (fullText cache.size cache.capacity)
        else con, cache)

/-- `handle_get`. -/
def handleGet (hash : String → UInt64) (con : Console Registry) (cache : Cache) :
    Except Fault (Console Registry × Cache) :=
  if cache.empty then
    .ok (con.print "\n  [INFO] Cache is currently empty. Nothing to get.\n", cache)
  else
    let (keyStr, con) := readLine "  Enter key : " con
    if keyStr = "" then
      .ok (con.print "  [ERROR] Key cannot be empty.\n", cache)
    else do
      let (key, con) := con.toUint64 hash keyStr
      let (result, cache) ← cache.get (hashKey cache.hashMask) key
      let con := con.print "\n"
      return (if result.found then con.print (hitText keyStr (con.fromUint64 result.value))
        else con.print (missText keyStr), cache)

/-- `handle_remove`. -/
def handleRemove (hash : String → UInt64) (con : Console Registry) (cache : Cache) :
    Except Fault (Console Registry × Cache) :=
  if cache.empty then
    .ok (con.print "\n  [INFO] Cache is currently empty. Nothing to remove.\n", cache)
  else
    let (keyStr, con) := readLine "  Enter key to remove : " con
    if keyStr = "" then
      .ok (con.print "  [ERROR] Key cannot be empty.\n", cache)
    else do
      let (key, con) := con.toUint64 hash keyStr
      let con := con.print "\n"
      let (removed, cache) ← cache.remove (hashKey cache.hashMask) key
      return (if removed then con.print (removedText keyStr cache.size cache.capacity)
        else con.print (notFoundText keyStr), cache)

/-- `handle_display`. -/
def handleDisplay (con : Console Registry) (cache : Cache) :
    Except Fault (Console Registry × Cache) :=
  let con := con.print "\n"
  if cache.empty then
    .ok (con.print "  (cache is empty)\n", cache)
  else do
    let con := con.print "  ---- Cache Contents ----\n"
    let text ← cache.display (some con.fromUint64)
    return ((con.print text).print "  ------------------------\n", cache)

/-- `handle_stats`. -/
def handleStats (ratio : Nat → Nat → String) (con : Console Registry) (cache : Cache) :
    Except Fault (Console Registry × Cache) :=
  .ok (con.print (statsText cache.capacity cache.size cache.totalRequests cache.hits cache.misses
    cache.evictions (ratio cache.hits cache.totalRequests)), cache)

/-- `handle_clear`. -/
def handleClear (con : Console Registry) (cache : Cache) :
    Except Fault (Console Registry × Cache) :=
  if cache.empty then
    .ok (con.print "\n  [INFO] Cache is already empty.\n", cache)
  else do
    let oldSize := cache.size
    let cache ← cache.clear
    return (con.print (clearedText oldSize), cache)

/-! ## The program -/

/-- Where `main` is; `σ` is the type of its cache. -/
inductive Point (σ : Type) where
  /-- In the first `read_capacity`. -/
  | start
  /-- At the head of the loop. -/
  | menu (cache : σ)
  /-- In the `read_capacity` of choice 7. -/
  | resetting (cache : σ)
  /-- After the loop. -/
  | exited

/-- The state of the program: where it is, and its console. -/
structure Simulator (ρ σ : Type) where
  console : Console ρ
  point : Point σ

/-- Back to the head of the loop, after a command. -/
def loopAgain {ρ σ : Type} (result : Console ρ × σ) : Simulator ρ σ :=
  { console := result.1, point := .menu result.2 }

/-- The `switch` of `main`. -/
def switchChoice (hash : String → UInt64) (ratio : Nat → Nat → String) (choice : Int)
    (con : Console Registry) (cache : Cache) : Except Fault (Simulator Registry Cache) :=
  match choice with
  | 1 => loopAgain <$> handlePut hash con cache
  | 2 => loopAgain <$> handleGet hash con cache
  | 3 => loopAgain <$> handleRemove hash con cache
  | 4 => loopAgain <$> handleDisplay con cache
  | 5 => loopAgain <$> handleStats ratio con cache
  | 6 => loopAgain <$> handleClear con cache
  | 7 => .ok { console := con.print "\n  Resetting cache with new capacity.\n"
               point := .resetting cache }
  | 8 => .ok { console := con.print "\n  [INFO] Exiting Cache Simulator. Goodbye!\n\n"
               point := .exited }
  | _ => .ok { console := con.print
                 "\n  [ERROR] Invalid choice. Please enter a number between 1 and 8.\n"
               point := .menu cache }

/-- A turn at a capacity prompt of `main`: with a capacity there is a new cache, and `created`
is printed; without one the loop of `read_capacity` goes on at the point `again`. -/
def capacityTurn (created : Nat → String) (again : Point Cache) (con : Console Registry) :
    Except Fault (Simulator Registry Cache) :=
  match readCapacity con with
  | (none, con) => .ok { console := con, point := again }
  | (some capacity, con) => do
      let cache ← Cache.new capacity
      return { console := con.print (created capacity), point := .menu cache }

/-- The prompt is repeated as long as no capacity is read. -/
theorem capacityTurn_none {created : Nat → String} {again : Point Cache}
    {con con₁ : Console Registry} (hread : readCapacity con = (none, con₁)) :
    capacityTurn created again con = .ok { console := con₁, point := again } := by
  unfold capacityTurn
  rw [hread]

/-- A capacity that is read is that of the new cache. -/
theorem capacityTurn_some {created : Nat → String} {again : Point Cache}
    {con con₁ : Console Registry} {capacity : Nat} {cache : Cache}
    (hread : readCapacity con = (some capacity, con₁)) (hnew : Cache.new capacity = .ok cache) :
    capacityTurn created again con =
      .ok { console := con₁.print (created capacity), point := .menu cache } := by
  unfold capacityTurn
  rw [hread]
  simp only [hnew]
  rfl

/-- One turn of the loop that `main` is in. -/
def mainStep (hash : String → UInt64) (ratio : Nat → Nat → String)
    (s : Simulator Registry Cache) : Except Fault (Simulator Registry Cache) :=
  match s.point with
  | .start => capacityTurn createdText .start s.console
  | .menu cache =>
      let (choice, con) := readChoice (printMenu cache.capacity s.console)
      switchChoice hash ratio choice con cache
  | .resetting cache => capacityTurn resetText (.resetting cache) s.console
  | .exited => .ok s

/-- The first prompt is a turn like the one of a reset. -/
theorem mainStep_start {hash : String → UInt64} {ratio : Nat → Nat → String}
    {s : Simulator Registry Cache} (h : s.point = .start) :
    mainStep hash ratio s = capacityTurn createdText .start s.console := by
  unfold mainStep
  rw [h]

/-- The program before its first read, with the whole input. -/
def mainStart (lines : List String) : Simulator Registry Cache :=
  { console := { lines := lines, out := "", registry := Registry.empty }, point := .start }

end LruCache
