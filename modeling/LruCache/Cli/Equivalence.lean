import LruCache.Cli.Refinement
import LruCache.Text.Names

/-!
# A cache of texts

If the texts that are entered in a run have different numbers, the simulator is a cache of texts:
it prints what its reference over `texts` prints, which stores the texts themselves
(`main_equivalent`). The numbers in the cache are names of the texts, and the registry, which is
never cleaned, has the text of every number that was entered.

Main results:

* `carryOut_alike` — each command of the menu does to the texts what it does to their numbers.
* `textRun_alike` — so does a run.
* `main_equivalent` — the simulator prints what the reference over texts prints, and its cache and
  registry hold the texts.

Deliberate scope limits:

* The texts that are entered in the run have different numbers (`Distinguishes`). When two keys are
  told apart in the code as it is, is the subject of `LruCache.Cli.Separation`.
* The hash values of texts and the text of a ratio are parameters: the one is that of the library,
  and the other a formatted `double`.
-/

namespace LruCache

open Recency Transition

/-! ## Reading enters nothing -/

section Reads

variable {ρ : Type} {con con' : Console ρ}

/-- Reading a line enters nothing into the registry: only `to_uint64` does. -/
theorem getline_registry (con : Console ρ) : con.getline.2.registry = con.registry := by
  unfold Console.getline
  split <;> rfl

/-- So the registry is one of the things that the input functions leave alone. -/
theorem streamKept_registry (registry : ρ) : StreamKept fun con => con.registry = registry where
  print := fun h _ => h
  getline := fun h => (getline_registry _).trans h

/-- Reading a text, blanks cut off, enters nothing either. -/
theorem readLine_registry {prompt input : String} (h : readLine prompt con = (input, con')) :
    con'.registry = con.registry :=
  (streamKept_registry con.registry).of_readLine rfl h

/-- Nor does the prompt for the capacity. -/
theorem readCapacity_registry {answer : Option Nat} (h : readCapacity con = (answer, con')) :
    con'.registry = con.registry :=
  (streamKept_registry con.registry).of_readCapacity rfl h

@[simp] theorem say_registry (con : Console ρ) (message : Message) :
    (con.say message).registry = con.registry := rfl

/-- Nor the menu. -/
theorem readChoice_registry {choice : Int} (h : readChoice con = (choice, con')) :
    con'.registry = con.registry :=
  (streamKept_registry con.registry).of_readChoice rfl h

end Reads

/-! ## Consoles -/

/-- The same input and output; the registry has all texts that were entered. -/
structure SameConsole (hash : String → UInt64) (con : Console (List String))
    (con' : Console Registry) : Prop where
  lines : con'.lines = con.lines
  out : con'.out = con.out
  registered : ∀ str ∈ con.registry, con'.registry (codeOf hash str) = some str

section Consoles

variable {hash : String → UInt64} {con : Console (List String)} {con' : Console Registry}

/-- Both print the same text. -/
theorem SameConsole.print (h : SameConsole hash con con') (text : String) :
    SameConsole hash (con.print text) (con'.print text) where
  lines := h.lines
  out := by rw [print_out, print_out, h.out]
  registered := h.registered

/-- And the same messages. -/
theorem SameConsole.say (h : SameConsole hash con con') (message : Message) :
    SameConsole hash (con.say message) (con'.say message) :=
  h.print message.text

/-- Both read the same line. -/
theorem SameConsole.readLine (h : SameConsole hash con con') (prompt : String) :
    ∃ input con₁ con₁', LruCache.readLine prompt con = (input, con₁) ∧
      LruCache.readLine prompt con' = (input, con₁') ∧ SameConsole hash con₁ con₁' := by
  have hprint := h.print prompt
  cases hlines : con.lines with
  | nil =>
    have hlines' := h.lines.trans hlines
    exact ⟨_, _, _, readLine_nil hlines prompt, readLine_nil hlines' prompt, hprint⟩
  | cons line lines =>
    have hlines' := h.lines.trans hlines
    exact ⟨_, _, _, readLine_cons hlines prompt, readLine_cons hlines' prompt, rfl, hprint.out,
      h.registered⟩

/-- Entering a text overwrites no other one. -/
theorem SameConsole.enter (h : SameConsole hash con con') (str : String) :
    ∃ con₁ con₁', con.enter texts str = (str, con₁) ∧
      con'.enter (numbers hash) str = (codeOf hash str, con₁') ∧
      con₁.registry = con.registry ++ [str] ∧
      (Distinguishes hash con₁.registry → SameConsole hash con₁ con₁') := by
  have henter : con'.enter (numbers hash) str = (codeOf hash str,
      { con' with registry := Function.update con'.registry (codeOf hash str) (some str) }) := by
    simp only [Console.enter, numbers, toUint64_eq]
  refine ⟨_, _, rfl, henter, rfl, fun hdist => ⟨h.lines, h.out, ?_⟩⟩
  intro x hx
  by_cases heq : codeOf hash x = codeOf hash str
  · have hstr : str ∈ con.registry ++ [str] := by simp
    rw [hdist x hx str hstr heq]
    exact Function.update_self ..
  · have hold : x ∈ con.registry := by
      rcases List.mem_append.mp hx with hold | hnew
      · exact hold
      · exact absurd (congrArg (codeOf hash) (List.mem_singleton.mp hnew)) heq
    exact (Function.update_of_ne heq ..).trans (h.registered x hold)

/-- The number of a text that was entered is shown as this text. -/
theorem SameConsole.text (h : SameConsole hash con con') {str : String}
    (hstr : str ∈ con.registry) : con'.text (numbers hash) (codeOf hash str) = str :=
  fromUint64_of_some (h.registered str hstr)

end Consoles

/-! ## The commands -/

/-- The two results of a command print the same, and go on alike. -/
structure AlikeResult (hash : String → UInt64)
    (result : Console (List String) × State String String)
    (result' : Console Registry × State UInt64 UInt64) : Prop where
  console : SameConsole hash result.1 result'.1
  store : Matches hash result.1.registry result.2 result'.2

section Commands

variable {hash : String → UInt64} {ratio : Nat → Nat → String} {con : Console (List String)}
variable {con' : Console Registry} {st : State String String} {st' : State UInt64 UInt64}

/-- A message does not tell the two apart. -/
theorem AlikeResult.say (h : AlikeResult hash (con, st) (con', st')) (message : Message) :
    AlikeResult hash (con.say message, st) (con'.say message, st') :=
  ⟨h.console.say message, h.store⟩

/-- Nor does a line that is read: it is the same one. -/
theorem AlikeResult.readLine (h : AlikeResult hash (con, st) (con', st')) (prompt : String) :
    ∃ input con₁ con₁', LruCache.readLine prompt con = (input, con₁) ∧
      LruCache.readLine prompt con' = (input, con₁') ∧
      AlikeResult hash (con₁, st) (con₁', st') := by
  rcases h.console.readLine prompt with ⟨input, con₁, con₁', hread, hread', h₁⟩
  exact ⟨input, con₁, con₁', hread, hread', h₁, (readLine_registry hread).symm ▸ h.store⟩

/-- The text is entered on both sides, once as itself and once as its number. -/
theorem AlikeResult.enter (h : AlikeResult hash (con, st) (con', st')) (str : String) :
    ∃ con₁ con₁', con.enter texts str = (str, con₁) ∧
      con'.enter (numbers hash) str = (codeOf hash str, con₁') ∧
      con.registry <+: con₁.registry ∧ str ∈ con₁.registry ∧
      (Distinguishes hash con₁.registry → AlikeResult hash (con₁, st) (con₁', st')) := by
  rcases h.console.enter str with ⟨con₁, con₁', henter, henter', hreg, h₁⟩
  have hgrows : con.registry <+: con₁.registry := hreg ▸ List.prefix_append _ [str]
  have hmem : str ∈ con₁.registry := hreg ▸ List.mem_append_right _ (List.mem_singleton_self str)
  exact ⟨con₁, con₁', henter, henter', hgrows, hmem, fun hdist =>
    ⟨h₁ hdist, h.store.mono hgrows⟩⟩

/-- Put stores the two texts on one side, and their numbers on the other. -/
theorem putCommand_alike (h : AlikeResult hash (con, st) (con', st'))
    (hdist : Distinguishes hash (putCommand texts con st).1.registry) :
    AlikeResult hash (putCommand texts con st) (putCommand (numbers hash) con' st') := by
  rcases h.readLine "  Enter key   : " with ⟨keyStr, con₁, con₁', hread, hread', h₁⟩
  simp only [putCommand, hread, hread'] at hdist ⊢
  by_cases hkey : keyStr = ""
  · simp only [if_pos hkey]
    exact h₁.say _
  simp only [if_neg hkey] at hdist ⊢
  rcases h₁.readLine "  Enter value : " with ⟨valStr, con₂, con₂', hread, hread', h₂⟩
  simp only [hread, hread'] at hdist ⊢
  by_cases hval : valStr = ""
  · simp only [if_pos hval]
    exact h₂.say _
  simp only [if_neg hval] at hdist ⊢
  rcases h₂.enter keyStr with ⟨con₃, con₃', henter, henter', _, hmem, h₃⟩
  simp only [henter, henter'] at hdist ⊢
  have hdist : Distinguishes hash (con₃.enter texts valStr).2.registry := by
    rw [apply_ite Console.registry] at hdist
    simpa only [say_registry, ite_self] using hdist
  have hstarts : con₃.registry <+: (con₃.enter texts valStr).2.registry := List.prefix_append ..
  rcases (h₃ (hdist.anti hstarts)).enter valStr with
    ⟨con₄, con₄', henter, henter', hgrows, hmem', h₄⟩
  simp only [henter, henter'] at hdist ⊢
  have h₄ := h₄ hdist
  have hput := h₄.store.put hdist (hgrows.subset hmem) hmem'
  simp only [hput.renamed.length_eq, hput.renamed.cap]
  by_cases hfull : (st.put keyStr valStr).store.items.length = (st.put keyStr valStr).store.cap
  · simp only [if_pos hfull]
    exact ⟨(h₄.console.say _).say _, hput⟩
  · simp only [if_neg hfull]
    exact ⟨h₄.console.say _, hput⟩

/-- Gets and removals read alike; what they do with the key may change no registry. -/
theorem keyCommand_alike (h : AlikeResult hash (con, st) (con', st')) (nothing : Message)
    (prompt : String)
    {act : String → String → Console (List String) → Console (List String) × State String String}
    {act' : String → UInt64 → Console Registry → Console Registry × State UInt64 UInt64}
    (hregistry : ∀ keyStr con, (act keyStr keyStr con).1.registry = con.registry)
    (hact : ∀ keyStr con₁ con₁', keyStr ∈ con₁.registry → Distinguishes hash con₁.registry →
      AlikeResult hash (con₁, st) (con₁', st') →
      AlikeResult hash (act keyStr keyStr con₁) (act' keyStr (codeOf hash keyStr) con₁'))
    (hdist : Distinguishes hash (keyCommand texts nothing prompt act con st).1.registry) :
    AlikeResult hash (keyCommand texts nothing prompt act con st)
      (keyCommand (numbers hash) nothing prompt act' con' st') := by
  unfold keyCommand at hdist ⊢
  rw [h.store.renamed.isEmpty_eq]
  by_cases hempty : st.store.items.isEmpty = true
  · simp only [if_pos hempty]
    exact h.say _
  simp only [if_neg hempty] at hdist ⊢
  rcases h.readLine prompt with ⟨keyStr, con₁, con₁', hread, hread', h₁⟩
  simp only [hread, hread'] at hdist ⊢
  by_cases hkey : keyStr = ""
  · simp only [if_pos hkey]
    exact h₁.say _
  simp only [if_neg hkey] at hdist ⊢
  rcases h₁.enter keyStr with ⟨con₂, con₂', henter, henter', _, hmem, h₂⟩
  simp only [henter, henter'] at hdist ⊢
  rw [hregistry] at hdist
  exact hact keyStr con₂ con₂' hmem hdist (h₂ hdist)

/-- Get finds the value of the text, or of its number, which is shown as the text. -/
theorem getCommand_alike (h : AlikeResult hash (con, st) (con', st'))
    (hdist : Distinguishes hash (getCommand texts con st).1.registry) :
    AlikeResult hash (getCommand texts con st) (getCommand (numbers hash) con' st') := by
  refine keyCommand_alike h _ _ (fun _ _ => rfl) ?_ hdist
  intro keyStr con₁ con₁' hmem hdist h₁
  have hget := h₁.store.get hdist hmem
  unfold getKeyed
  rw [h₁.store.lookup hdist hmem]
  cases hlookup : st.store.items.lookup keyStr with
  | none => exact ⟨h₁.console.say _, hget⟩
  | some value =>
    -- the number of the value is shown as the text that was stored
    have hvalue := (h₁.store.entered (keyStr, value) (mem_of_lookup hlookup)).2
    have htext := h₁.console.text hvalue
    simp only [Option.map_some, htext]
    exact ⟨h₁.console.say _, hget⟩

/-- Remove answers alike. -/
theorem removeCommand_alike (h : AlikeResult hash (con, st) (con', st'))
    (hdist : Distinguishes hash (removeCommand texts con st).1.registry) :
    AlikeResult hash (removeCommand texts con st) (removeCommand (numbers hash) con' st') := by
  refine keyCommand_alike h _ _ (fun _ _ => rfl) ?_ hdist
  intro keyStr con₁ con₁' hmem hdist h₁
  have hremove := h₁.store.remove hdist hmem
  have hremoved := h₁.store.removed hdist hmem
  unfold removeKeyed
  rw [hremove.renamed.length_eq, h₁.store.renamed.cap]
  by_cases hstored : keyStr ∈ keys st.store.items
  · have hstored' : codeOf hash keyStr ∈ keys st'.store.items :=
      of_decide_eq_true (hremoved.trans (decide_eq_true hstored))
    rw [if_pos hstored, if_pos hstored']
    exact ⟨h₁.console.say _, hremove⟩
  · have hstored' : codeOf hash keyStr ∉ keys st'.store.items :=
      of_decide_eq_false (hremoved.trans (decide_eq_false hstored))
    rw [if_neg hstored, if_neg hstored']
    exact ⟨h₁.console.say _, hremove⟩

/-- The display of the numbers shows the texts, in the order of use. -/
theorem shownPairs_eq (hcon : SameConsole hash con con') (hst : Matches hash con.registry st st') :
    shownPairs (numbers hash) con' st' = st.store.items := by
  rw [shownPairs, hst.renamed.items, rename, List.map_map]
  refine (List.map_congr_left ?_).trans (List.map_id _)
  intro p hp
  have hentered := hst.entered p hp
  exact Prod.ext (hcon.text hentered.1) (hcon.text hentered.2)

/-- The display of the texts shows what is stored. -/
theorem shownPairs_texts : shownPairs texts con st = st.store.items := List.map_id _

/-- So the display prints the same lines. -/
theorem displayCommand_alike (h : AlikeResult hash (con, st) (con', st')) :
    AlikeResult hash (displayCommand texts con st) (displayCommand (numbers hash) con' st') := by
  unfold displayCommand
  rw [h.store.renamed.isEmpty_eq, h.store.renamed.cap, shownPairs_texts,
    shownPairs_eq h.console h.store]
  exact h.say _

/-- The counters are the same. -/
theorem statsCommand_alike (h : AlikeResult hash (con, st) (con', st')) :
    AlikeResult hash (statsCommand ratio con st) (statsCommand ratio con' st') := by
  have hstatistics : statistics ratio st' = statistics ratio st := by
    rw [statistics, statistics, h.store.renamed.cap, h.store.renamed.length_eq,
      h.store.renamed.hits, h.store.renamed.misses, h.store.renamed.evictions]
  rw [statsCommand, statsCommand, hstatistics]
  exact h.say _

/-- Clearing leaves the registry on both sides. -/
theorem clearCommand_alike (h : AlikeResult hash (con, st) (con', st')) :
    AlikeResult hash (clearCommand con st) (clearCommand con' st') := by
  unfold clearCommand
  rw [h.store.renamed.isEmpty_eq, h.store.renamed.length_eq]
  split
  · exact h.say _
  · exact ⟨h.console.say _, h.store.clear⟩

/-- Nothing that was entered is forgotten. -/
theorem kept_grows (typed : List String) : Kept texts fun con => typed <+: con.registry where
  print := fun h _ => h
  getline := fun h => by
    rw [getline_registry]
    exact h
  enter := fun h str => h.trans (List.prefix_append _ [str])

end Commands

/-! ## The program -/

/-- Two programs that are at the point of a third one are at the same point. -/
theorem SamePoint.join {σ τ υ : Type} {R : σ → υ → Prop} {R' : τ → υ → Prop} {Q : σ → τ → Prop}
    {point : Point σ} {point' : Point τ} {middle : Point υ} (h : SamePoint R point middle)
    (h' : SamePoint R' point' middle) (hjoin : ∀ a b c, R a c → R' b c → Q a b) :
    SamePoint Q point point' := by
  cases h with
  | start =>
    cases h'
    exact .start
  | menu h =>
    cases h' with
    | menu h' => exact .menu (hjoin _ _ _ h h')
  | resetting h =>
    cases h' with
    | resetting h' => exact .resetting (hjoin _ _ _ h h')
  | exited =>
    cases h'
    exact .exited

/-- The two simulators are at the same point, alike in all that they print. -/
structure Alike (hash : String → UInt64) (r : Simulator (List String) (State String String))
    (r' : Simulator Registry (State UInt64 UInt64)) : Prop where
  console : SameConsole hash r.console r'.console
  point : SamePoint (Matches hash r.console.registry) r.point r'.point

section Main

variable {hash : String → UInt64} {ratio : Nat → Nat → String} {con : Console (List String)}
variable {con' : Console Registry} {st : State String String} {st' : State UInt64 UInt64}

/-- After a command, both are back at the menu. -/
theorem backToMenu_alike {result : Console (List String) × State String String}
    {result' : Console Registry × State UInt64 UInt64}
    (h : AlikeResult hash result result') : Alike hash (backToMenu result) (backToMenu result') :=
  ⟨h.console, .menu h.store⟩

/-- Each command does to the texts what it does to their numbers. -/
theorem carryOut_alike (h : AlikeResult hash (con, st) (con', st')) (command : Command)
    (hdist : Distinguishes hash (carryOut texts ratio con st command).console.registry) :
    Alike hash (carryOut texts ratio con st command)
      (carryOut (numbers hash) ratio con' st' command) := by
  cases command with
  | put => exact backToMenu_alike (putCommand_alike h hdist)
  | get => exact backToMenu_alike (getCommand_alike h hdist)
  | remove => exact backToMenu_alike (removeCommand_alike h hdist)
  | display => exact backToMenu_alike (displayCommand_alike h)
  | statistics => exact backToMenu_alike (statsCommand_alike h)
  | clear => exact backToMenu_alike (clearCommand_alike h)
  | reset => exact ⟨h.console.say _, .resetting h.store⟩
  | exit => exact ⟨h.console.say _, .exited⟩
  | invalid => exact ⟨h.console.say _, .menu h.store⟩

/-- The capacity is read from the same line. -/
theorem SameConsole.readCapacity (h : SameConsole hash con con') :
    ∃ answer con₁ con₁', LruCache.readCapacity con = (answer, con₁) ∧
      LruCache.readCapacity con' = (answer, con₁') ∧ SameConsole hash con₁ con₁' := by
  rcases h.readLine "  Enter cache capacity (1-10000) : " with
    ⟨line, con₁, con₁', hread, hread', h₁⟩
  cases hparse : parseCapacity line with
  | error text =>
    exact ⟨_, _, _, readCapacity_error hread hparse, readCapacity_error hread' hparse,
      h₁.print text⟩
  | ok capacity =>
    exact ⟨_, _, _, readCapacity_ok hread hparse, readCapacity_ok hread' hparse, h₁⟩

/-- The choice as well. -/
theorem SameConsole.readChoice (h : SameConsole hash con con') :
    ∃ choice con₁ con₁', LruCache.readChoice con = (choice, con₁) ∧
      LruCache.readChoice con' = (choice, con₁') ∧ SameConsole hash con₁ con₁' := by
  cases hlines : con.lines with
  | nil =>
    have hlines' := h.lines.trans hlines
    exact ⟨_, _, _, readChoice_nil hlines, readChoice_nil hlines', h⟩
  | cons line lines =>
    have hlines' := h.lines.trans hlines
    exact ⟨_, _, _, readChoice_cons hlines, readChoice_cons hlines', rfl, h.out, h.registered⟩

/-- The prompt for the capacity: both build an empty reference of that capacity, or stay. -/
theorem promptStep_alike (created : Nat → Message) {again : Point (State String String)}
    {again' : Point (State UInt64 UInt64)} (hcon : SameConsole hash con con')
    (hagain : SamePoint (Matches hash con.registry) again again') :
    Alike hash (promptStep created again con) (promptStep created again' con') := by
  rcases hcon.readCapacity with ⟨answer, con₁, con₁', hread, hread', h₁⟩
  have hreg := readCapacity_registry hread
  cases answer with
  | none =>
    rw [promptStep_none hread, promptStep_none hread']
    exact ⟨h₁, hreg ▸ hagain⟩
  | some capacity =>
    have hpos := (readCapacity_range hread).1
    rw [promptStep_some hread hpos, promptStep_some hread' hpos]
    exact ⟨h₁.say _, .menu (.init capacity hpos)⟩

/-- One turn of the program, if the texts entered in it are told apart. -/
theorem referenceMain_alike {r : Simulator (List String) (State String String)}
    {r' : Simulator Registry (State UInt64 UInt64)} (h : Alike hash r r')
    (hdist : Distinguishes hash (referenceMain texts ratio r).console.registry) :
    Alike hash (referenceMain texts ratio r) (referenceMain (numbers hash) ratio r') := by
  rcases r with ⟨con, point⟩
  rcases r' with ⟨con', point'⟩
  rcases h with ⟨hcon, hpoint⟩
  have hcon : SameConsole hash con con' := hcon
  have hpoint : SamePoint (Matches hash con.registry) point point' := hpoint
  cases hpoint with
  | start =>
    simp only [referenceMain]
    exact promptStep_alike .created hcon .start
  | menu hst =>
    rename_i st st'
    rcases (hcon.say (.menu st.store.cap)).readChoice with
      ⟨choice, con₁, con₁', hread, hread', h₁⟩
    have hreg := (readChoice_registry hread).trans (say_registry con (.menu st.store.cap))
    simp only [referenceMain, hst.renamed.cap, hread, hread'] at hdist ⊢
    exact carryOut_alike ⟨h₁, hreg ▸ hst⟩ _ hdist
  | resetting hst =>
    simp only [referenceMain]
    exact promptStep_alike .reset hcon (.resetting hst)
  | exited =>
    simp only [referenceMain]
    exact ⟨hcon, .exited⟩

/-- What was entered remains entered. -/
theorem referenceMain_grows (ratio : Nat → Nat → String)
    (r : Simulator (List String) (State String String)) :
    r.console.registry <+: (referenceMain texts ratio r).console.registry :=
  (kept_grows r.console.registry).referenceMain (List.prefix_refl _)

/-- The run of the simulator over texts. -/
def textRun (ratio : Nat → Nat → String) (lines : List String) (k : Nat) :
    Simulator (List String) (State String String) :=
  (referenceMain texts ratio)^[k] (referenceStart [] lines)

/-- A run of `k + 1` turns is one of `k` turns and another turn. -/
theorem textRun_succ (ratio : Nat → Nat → String) (lines : List String) (k : Nat) :
    textRun ratio lines (k + 1) = referenceMain texts ratio (textRun ratio lines k) :=
  Function.iterate_succ_apply' ..

/-- The induction over the turns. The texts are told apart after each of them, since they are at
the end. -/
theorem textRun_alike (lines : List String) (k : Nat)
    (hdist : Distinguishes hash (textRun ratio lines k).console.registry) :
    Alike hash (textRun ratio lines k)
      ((referenceMain (numbers hash) ratio)^[k] (referenceStart Registry.empty lines)) := by
  induction k with
  | zero =>
    refine ⟨⟨rfl, rfl, ?_⟩, .start⟩
    intro str hstr
    cases hstr
  | succ k ih =>
    rw [textRun_succ] at hdist ⊢
    rw [Function.iterate_succ_apply']
    exact referenceMain_alike (ih (hdist.anti (referenceMain_grows ratio _))) hdist

/-- What a display of the cache shows are the pairs of texts that are stored. -/
structure Shows (con : Console Registry) (cache : Cache) (st : State String String) : Prop where
  capacity : cache.capacity = st.store.cap
  size : cache.size = st.store.items.length
  display : st.store.items ≠ [] →
    cache.display (some con.fromUint64) = .ok (contentsText st.store.cap st.store.items)

/-- A cache of numbers shows what the reference over texts shows. -/
theorem shows_of_serves {con' : Console Registry} {cache : Cache} (h : Serves cache st')
    (hcon : SameConsole hash con con') (hst : Matches hash con.registry st st') :
    Shows con' cache st where
  capacity := by rw [h.capacity_eq, hst.renamed.cap]
  size := by rw [h.size_eq, hst.renamed.length_eq]
  display := by
    intro hne
    have hitems : st'.store.items.isEmpty = false := by
      rw [hst.renamed.isEmpty_eq, List.isEmpty_eq_false_iff]
      exact hne
    have hshown : (st'.store.items.map fun p => (con'.fromUint64 p.1, con'.fromUint64 p.2)) =
        st.store.items := shownPairs_eq hcon hst
    rw [h.display con'.fromUint64 hitems, hshown, hst.renamed.cap]

/-- After any number of steps of a run that enters no two texts of one number, the program has
read what the simulator over texts has read, and printed what it has printed; and what is stored
shows as the texts that are stored. -/
theorem main_equivalent (hash : String → UInt64) (ratio : Nat → Nat → String)
    (lines : List String) (k : Nat)
    (hdist : Distinguishes hash (textRun ratio lines k).console.registry) :
    ∃ s, steps (mainStep hash ratio) k (mainStart lines) = .ok s ∧
      s.console.lines = (textRun ratio lines k).console.lines ∧
      s.console.out = (textRun ratio lines k).console.out ∧
      SamePoint (Shows s.console) s.point (textRun ratio lines k).point := by
  rcases textRun_alike lines k hdist with ⟨halike, halikePoint⟩
  rcases main_refines hash ratio lines k with ⟨s, hrun, hcon, hpoint⟩
  rw [← hcon] at halike
  refine ⟨s, hrun, halike.lines, halike.out, hpoint.join halikePoint ?_⟩
  intro cache st st' hserves hmatches
  exact shows_of_serves hserves halike hmatches

/-- The menu with a capacity of 2. -/
def menuOfTwo : String :=
  "\n  Current Capacity : 2\n\n  1.  Put Item\n  2.  Get Item\n  3.  Remove Item\n" ++
    "  4.  Display Cache\n  5.  Cache Statistics\n  6.  Clear Cache\n  7.  Reset Cache\n" ++
    "  8.  Exit\n\n  Enter Choice : "

/-- A whole session: a put, a get that hits, a get and a removal that miss, a display. -/
theorem main_equivalent_apple : ∃ s,
    steps (mainStep (fun str => if str = "apple" then 1 else if str = "red" then 2 else 3)
        (fun _ _ => "50")) 7
        (mainStart ["2", "1", "apple", "red", "2", "apple", "2", "pear", "3", "pear", "4", "8"]) =
      .ok s ∧
      s.console.lines = [] ∧
      s.console.out =
        "  Enter cache capacity (1-10000) : \n  [OK] Cache created with capacity 2.\n" ++
        menuOfTwo ++ "  Enter key   :   Enter value : \n  [OK] Stored: apple = red\n" ++
        menuOfTwo ++ "  Enter key : \n  [HIT] apple = red\n" ++
          "  [INFO] 'apple' promoted to Most Recently Used\n" ++
        menuOfTwo ++ "  Enter key : \n  [MISS] Key 'pear' not found in cache.\n" ++
        menuOfTwo ++ "  Enter key to remove : \n  [ERROR] Key 'pear' not found in cache.\n" ++
        menuOfTwo ++ "\n  ---- Cache Contents ----\nCache (1/2) [MRU -> LRU]:\n" ++
          "  1. apple = red\n  ------------------------\n" ++
        menuOfTwo ++ "\n  [INFO] Exiting Cache Simulator. Goodbye!\n\n" := by
  have hentered : (textRun (fun _ _ => "50")
      ["2", "1", "apple", "red", "2", "apple", "2", "pear", "3", "pear", "4", "8"]
      7).console.registry = ["apple", "red", "apple", "pear", "pear"] := by decide +kernel
  rcases main_equivalent (fun str => if str = "apple" then 1 else if str = "red" then 2 else 3)
    (fun _ _ => "50")
    ["2", "1", "apple", "red", "2", "apple", "2", "pear", "3", "pear", "4", "8"] 7
    (by rw [hentered]; decide) with ⟨s, hrun, hlines, hout, _⟩
  refine ⟨s, hrun, hlines.trans ?_, hout.trans ?_⟩
  · decide +kernel
  · decide +kernel

end Main

end LruCache
