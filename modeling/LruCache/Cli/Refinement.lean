import LruCache.Cli.Reference

/-!
# The simulator refines its reference

Each handler of `src/main.cpp` prints what the message of the reference says and leaves a cache that
serves as the store of the reference does; so do the menu, the prompts and the `switch`
(`mainStep_simulates`), and so does every run (`main_refines`). Here the texts that the program
prints are compared with the texts of the messages, and its choices with the commands.

Main results:

* `Refines`: a handler against a command of the reference.
* `mainStep_simulates`, `main_refines`: a turn, and a run of any length.
* `menu_of_capacity`: a capacity at the first prompt leads to the menu.

Deliberate scope limits:

* Every capacity that the prompt accepts is at most 10000, so the caches are those of
  `LruCache.Cache.Serves`.
-/

namespace LruCache

open Recency Transition

/-! ## Texts -/

/-- What is printed in two calls is printed. -/
theorem print_print {ρ : Type} (con : Console ρ) (text text' : String) :
    (con.print text).print text' = con.print (text ++ text') := by
  simp only [Console.print, String.append_assoc]

/-- The menu of the program is that of the reference. -/
theorem printMenu_eq {ρ : Type} (capacity : Nat) (con : Console ρ) :
    printMenu capacity con = con.say (.menu capacity) := rfl

/-! The messages to a key, as the program prints them. -/

/-- A hit is printed as `handle_get` prints it. -/
theorem text_hit (key value : String) :
    (Message.hit key value).text = "\n" ++ hitText key value := rfl

/-- So is a miss. -/
theorem text_miss (key : String) : (Message.miss key).text = "\n" ++ missText key := rfl

/-- And a removal. -/
theorem text_removed (key : String) (size capacity : Nat) :
    (Message.removed key size capacity).text = "\n" ++ removedText key size capacity := rfl

/-- And a key that is not there. -/
theorem text_notFound (key : String) : (Message.notFound key).text = "\n" ++ notFoundText key := rfl

/-- The lines of the display are those of the pairs, one by one. -/
theorem itemLines_eq (format : UInt64 → String) (index : Nat) (items : List (UInt64 × UInt64)) :
    itemLines (some format) index items =
      pairLines index (items.map fun p => (format p.1, format p.2)) := by
  induction items generalizing index with
  | nil => rfl
  | cons p items ih =>
    rw [itemLines, ih, List.map_cons, pairLines]
    rfl

/-- A cache that serves displays the pairs of the reference. -/
theorem Serves.display {cache : Cache} {st : State UInt64 UInt64} (h : Serves cache st)
    (format : UInt64 → String) (hne : st.store.items.isEmpty = false) :
    cache.display (some format) = .ok (contentsText st.store.cap
      (st.store.items.map fun p => (format p.1, format p.2))) := by
  have hlen : st.store.items.length ≠ 0 := by
    intro hzero
    rw [List.length_eq_zero_iff.mp hzero] at hne
    cases hne
  rw [Holds.display h.holds, if_neg hlen, itemLines_eq, contentsText, List.length_map]

/-! ## The handlers -/

/-- A command of the program prints what the reference says, and leaves a cache that serves. -/
def Refines (run : Except Fault (Console Registry × Cache))
    (result : Console Registry × State UInt64 UInt64) : Prop :=
  ∃ cache, run = .ok (result.1, cache) ∧ Serves cache result.2

section Refines

variable {hash : String → UInt64} {ratio : Nat → Nat → String} {con : Console Registry}
variable {cache : Cache} {st : State UInt64 UInt64}

/-- `handle_put`, whether or not the cache is full and the key stored. -/
theorem handlePut_refines (h : Serves cache st) (hash : String → UInt64)
    (con : Console Registry) :
    Refines (handlePut hash con cache) (putCommand (numbers hash) con st) := by
  unfold handlePut putCommand
  rcases readLine "  Enter key   : " con with ⟨keyStr, con₁⟩
  by_cases hkey : keyStr = ""
  · simp only [if_pos hkey]
    exact ⟨cache, rfl, h⟩
  · simp only [if_neg hkey]
    rcases readLine "  Enter value : " con₁ with ⟨valStr, con₂⟩
    by_cases hval : valStr = ""
    · simp only [if_pos hval]
      exact ⟨cache, rfl, h⟩
    · simp only [if_neg hval]
      -- both texts have been turned into numbers; the cache stores them as the reference does
      have hstep : ∀ key value con₃, Refines (do
          let cache ← cache.put (hashKey cache.hashMask) key value
          let con := Console.print con₃ (storedText keyStr valStr)
          return (if cache.size = cache.capacity then
            con.print (fullText cache.size cache.capacity) else con, cache))
          (if (st.put key value).store.items.length = (st.put key value).store.cap then
            (con₃.say (.stored keyStr valStr)).say
              (.full (st.put key value).store.items.length (st.put key value).store.cap)
            else con₃.say (.stored keyStr valStr), st.put key value) := by
        intro key value con₃
        rcases h.put key value with ⟨cache', hrun, h'⟩
        refine ⟨cache', ?_, h'⟩
        simp only [hrun, h'.size_eq, h'.capacity_eq, bind, Except.bind]
        rfl
      exact hstep _ _ _

/-- Gets and removals begin alike, in the program and in the reference. -/
theorem keyCommand_refines (h : Serves cache st) (hash : String → UInt64) (con : Console Registry)
    (nothing : Message) (prompt : String)
    (rest : String → UInt64 → Console Registry → Except Fault (Console Registry × Cache))
    {act : String → UInt64 → Console Registry → Console Registry × State UInt64 UInt64}
    (hact : ∀ keyStr key con, Refines (rest keyStr key con) (act keyStr key con)) :
    Refines
      (if cache.empty then .ok (con.print nothing.text, cache)
      else
        let (keyStr, con) := readLine prompt con
        if keyStr = "" then .ok (con.print "  [ERROR] Key cannot be empty.\n", cache)
        else
          let (key, con) := con.toUint64 hash keyStr
          rest keyStr key con)
      (keyCommand (numbers hash) nothing prompt act con st) := by
  unfold keyCommand
  rw [h.empty_eq]
  by_cases hempty : st.store.items.isEmpty = true
  · simp only [if_pos hempty]
    exact ⟨cache, rfl, h⟩
  · simp only [if_neg hempty]
    rcases readLine prompt con with ⟨keyStr, con₁⟩
    by_cases hkey : keyStr = ""
    · simp only [if_pos hkey]
      exact ⟨cache, rfl, h⟩
    · simp only [if_neg hkey]
      have henter : con₁.toUint64 hash keyStr = con₁.enter (numbers hash) keyStr := rfl
      rw [henter]
      rcases con₁.enter (numbers hash) keyStr with ⟨key, con₂⟩
      exact hact keyStr key con₂

/-- `handle_get`. -/
theorem handleGet_refines (h : Serves cache st) (hash : String → UInt64)
    (con : Console Registry) :
    Refines (handleGet hash con cache) (getCommand (numbers hash) con st) := by
  refine keyCommand_refines h hash con .nothingToGet "  Enter key : "
    (fun keyStr key con => do
      let got ← cache.get (hashKey cache.hashMask) key
      let con := Console.print con "\n"
      return (if got.1.found then con.print (hitText keyStr (con.fromUint64 got.1.value))
        else con.print (missText keyStr), got.2)) ?_
  intro keyStr key con
  rcases h.get key with ⟨r, cache', hrun, hr, h'⟩
  refine ⟨cache', ?_, h'⟩
  simp only [hrun, bind, Except.bind, getKeyed]
  cases hlookup : st.store.items.lookup key with
  | some value =>
    rw [hlookup] at hr
    cases hr
    simp only [if_true, print_print, Console.say, text_hit]
    rfl
  | none =>
    rw [hlookup] at hr
    cases hr
    simp only [print_print, Console.say, text_miss]
    rfl

/-- `handle_remove`. -/
theorem handleRemove_refines (h : Serves cache st) (hash : String → UInt64)
    (con : Console Registry) :
    Refines (handleRemove hash con cache) (removeCommand (numbers hash) con st) := by
  refine keyCommand_refines h hash con .nothingToRemove "  Enter key to remove : "
    (fun keyStr key con => do
      let con := Console.print con "\n"
      let removed ← cache.remove (hashKey cache.hashMask) key
      return (if removed.1 then con.print (removedText keyStr removed.2.size removed.2.capacity)
        else con.print (notFoundText keyStr), removed.2)) ?_
  intro keyStr key con
  rcases h.remove key with ⟨cache', hrun, h'⟩
  refine ⟨cache', ?_, h'⟩
  simp only [hrun, h'.size_eq, h'.capacity_eq, bind, Except.bind, removeKeyed, State.remove,
    print_print]
  by_cases hmem : key ∈ keys st.store.items
  · simp only [if_pos hmem, decide_eq_true hmem, if_true, Console.say, text_removed]
    rfl
  · simp only [if_neg hmem, decide_eq_false hmem, Console.say, text_notFound]
    rfl

/-- `handle_display`. -/
theorem handleDisplay_refines (h : Serves cache st) :
    Refines (handleDisplay con cache) (displayCommand (numbers hash) con st) := by
  unfold handleDisplay displayCommand
  rw [h.empty_eq]
  refine ⟨cache, ?_, h⟩
  by_cases hempty : st.store.items.isEmpty = true
  · simp only [if_pos hempty, print_print]
    rfl
  · simp only [if_neg hempty, h.display _ (Bool.eq_false_iff.mpr hempty), bind, Except.bind,
      print_print]
    simp only [String.append_assoc]
    rfl

/-- `handle_stats` prints the counters of the cache, and changes nothing. -/
theorem handleStats_run (h : Serves cache st) :
    handleStats ratio con cache = .ok (con.say (statistics ratio st), cache) := by
  rw [handleStats, statistics, h.capacity_eq, h.size_eq, h.totalRequests_eq, Sim.hits h,
    Sim.misses h, Sim.evictions h]
  rfl

/-- So it is a command of the reference. -/
theorem handleStats_refines (h : Serves cache st) :
    Refines (handleStats ratio con cache) (statsCommand ratio con st) :=
  ⟨cache, handleStats_run h, h⟩

/-- `handle_clear`. -/
theorem handleClear_refines (h : Serves cache st) :
    Refines (handleClear con cache) (clearCommand con st) := by
  unfold handleClear clearCommand
  rw [h.empty_eq]
  by_cases hempty : st.store.items.isEmpty = true
  · simp only [if_pos hempty]
    exact ⟨cache, rfl, h⟩
  · simp only [if_neg hempty]
    rcases h.clear with ⟨cache', hrun, h'⟩
    refine ⟨cache', ?_, h'⟩
    rw [hrun, h.size_eq]
    rfl

end Refines

/-! ## The program -/

/-- Two programs are at the same point, with caches that are related. -/
inductive SamePoint {σ τ : Type} (R : σ → τ → Prop) : Point σ → Point τ → Prop
  | start : SamePoint R .start .start
  | menu {cache : σ} {st : τ} (h : R cache st) : SamePoint R (.menu cache) (.menu st)
  | resetting {cache : σ} {st : τ} (h : R cache st) :
      SamePoint R (.resetting cache) (.resetting st)
  | exited : SamePoint R .exited .exited

/-- Where the program is at the menu, its reference is. -/
theorem SamePoint.exists_menu {σ τ : Type} {R : σ → τ → Prop} {cache : σ} {point : Point τ}
    (h : SamePoint R (.menu cache) point) : ∃ st, point = .menu st ∧ R cache st := by
  cases h with
  | menu h => exact ⟨_, rfl, h⟩

/-- The program and its reference are at the same point, with the same console. -/
structure Simulates (s : Simulator Registry Cache)
    (r : Simulator Registry (State UInt64 UInt64)) : Prop where
  console : s.console = r.console
  point : SamePoint Serves s.point r.point

section Main

variable {hash : String → UInt64} {ratio : Nat → Nat → String}

/-- After a handler the program is at the menu again, and so is the reference. -/
theorem Refines.loopAgain {run : Except Fault (Console Registry × Cache)}
    {result : Console Registry × State UInt64 UInt64} (h : Refines run result) :
    ∃ s, loopAgain <$> run = .ok s ∧ Simulates s (backToMenu result) := by
  rcases h with ⟨cache, rfl, h⟩
  exact ⟨_, rfl, rfl, .menu h⟩

/-- The `switch` of the program carries out the command that was chosen. -/
theorem switchChoice_simulates {con : Console Registry} {cache : Cache}
    {st : State UInt64 UInt64} (h : Serves cache st) (choice : Int) :
    ∃ s, switchChoice hash ratio choice con cache = .ok s ∧
      Simulates s (carryOut (numbers hash) ratio con st (.ofChoice choice)) := by
  unfold switchChoice
  split
  · exact (handlePut_refines h hash con).loopAgain
  · exact (handleGet_refines h hash con).loopAgain
  · exact (handleRemove_refines h hash con).loopAgain
  · exact (handleDisplay_refines h).loopAgain
  · exact (handleStats_refines h).loopAgain
  · exact (handleClear_refines h).loopAgain
  · exact ⟨_, rfl, rfl, .resetting h⟩
  · exact ⟨_, rfl, rfl, .exited⟩
  · rw [Command.ofChoice]
    · exact ⟨_, rfl, rfl, .menu h⟩
    all_goals assumption

/-- So does a turn at a capacity prompt; `created` is what the program prints after it. -/
theorem capacityTurn_simulates (con : Console Registry) (created : Nat → String)
    (message : Nat → Message) (hcreated : ∀ capacity, created capacity = (message capacity).text)
    {point : Point Cache} {again : Point (State UInt64 UInt64)}
    (hagain : SamePoint Serves point again) :
    ∃ s, capacityTurn created point con = .ok s ∧ Simulates s (promptStep message again con) := by
  rcases hread : readCapacity con with ⟨_ | capacity, con₁⟩
  · rw [capacityTurn_none hread, promptStep_none hread]
    exact ⟨_, rfl, rfl, hagain⟩
  · have hrange := readCapacity_range hread
    rcases Serves.new hrange.1 (by omega) with ⟨cache, hnew, h⟩
    rw [capacityTurn_some hread hnew, promptStep_some hread hrange.1, hcreated]
    exact ⟨_, rfl, rfl, .menu h⟩

/-- One turn of the program is one turn of the reference. -/
theorem mainStep_simulates {s : Simulator Registry Cache}
    {r : Simulator Registry (State UInt64 UInt64)} (h : Simulates s r) :
    ∃ s', mainStep hash ratio s = .ok s' ∧ Simulates s' (referenceMain (numbers hash) ratio r) := by
  rcases s with ⟨con, point⟩
  rcases r with ⟨con', point'⟩
  rcases h with ⟨hcon, hpoint⟩
  have hcon : con = con' := hcon
  have hpoint : SamePoint Serves point point' := hpoint
  subst hcon
  cases hpoint with
  | start =>
    simp only [mainStep, referenceMain]
    exact capacityTurn_simulates con createdText .created (fun _ => rfl) .start
  | menu hserves =>
    rename_i cache st
    rcases hread : readChoice (con.say (.menu st.store.cap)) with ⟨choice, con₁⟩
    simp only [mainStep, referenceMain, hserves.capacity_eq, printMenu_eq, hread]
    exact switchChoice_simulates hserves choice
  | resetting hserves =>
    simp only [mainStep, referenceMain]
    exact capacityTurn_simulates con resetText .reset (fun _ => rfl) (.resetting hserves)
  | exited => exact ⟨_, rfl, rfl, .exited⟩

/-- After any number of steps the program is where its reference is, without a fault. -/
theorem main_refines (hash : String → UInt64) (ratio : Nat → Nat → String) (lines : List String)
    (k : Nat) : ∃ s, steps (mainStep hash ratio) k (mainStart lines) = .ok s ∧
      Simulates s ((referenceMain (numbers hash) ratio)^[k]
        (referenceStart Registry.empty lines)) :=
  steps_simulation (fun _ _ h => mainStep_simulates h) k ⟨rfl, .start⟩

/-- A capacity at the first prompt leads to the menu, with a new cache. -/
theorem menu_of_capacity {line : String} {capacity : Nat}
    (h : parseCapacity (trimString line) = .ok capacity) (lines : List String) :
    ∃ con cache, steps (mainStep hash ratio) 1 (mainStart (line :: lines)) =
        .ok { console := con, point := .menu cache } ∧
      Serves cache (State.init capacity (parseCapacity_range h).1) := by
  have hrange := parseCapacity_range h
  rcases Serves.new hrange.1 (by omega) with ⟨cache, hnew, hserves⟩
  have hlines : (mainStart (line :: lines)).console.lines = line :: lines := rfl
  have hread : ∃ con, readCapacity (mainStart (line :: lines)).console = (some capacity, con) :=
    ⟨_, readCapacity_ok (readLine_cons hlines _) h⟩
  rcases hread with ⟨con, hread⟩
  refine ⟨con.print (createdText capacity), cache, ?_, hserves⟩
  rw [steps, mainStep_start rfl, capacityTurn_some hread hnew]
  rfl

end Main

end LruCache
