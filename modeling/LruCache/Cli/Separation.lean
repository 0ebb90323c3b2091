import LruCache.Cli.Refinement

/-!
# Keys that are told apart

`to_uint64` takes the number that a text begins with for the text: "3 apples" and "3 pears" are
one key. Two texts are told apart by the commands if and only if they do not begin with the same
number (`separated_iff`); hash values are assumed not to get in the way.

Main results:

* `separated_of_codeOf_ne`, `not_separated_of_codeOf_eq` — texts are told apart exactly if their
  numbers differ.
* `separated_iff` — in every state of the menu, two keys are told apart exactly if they do not
  begin with the same number.
* `separated_fails` — the third apple is a pear.

Deliberate scope limits:

* The hash values of the two texts differ, and neither is the number that the other begins with;
  collisions of `std::hash` are not the subject.
-/

namespace LruCache

open Recency Transition

/-- The console when these are the lines typed next. -/
def Console.typing {ρ : Type} (con : Console ρ) (lines : List String) : Console ρ :=
  { con with lines := lines }

/-- The value stored under a key text. -/
def storedUnder (hash : String → UInt64) (cache : Cache) (str : String) : Option UInt64 :=
  match cache.get (hashKey cache.hashMask) (codeOf hash str) with
  | .ok (result, _) => if result.found then some result.value else none
  | .error _ => none

/-- The command runs through and prints this text, after its prompt. -/
def Prints (run : Except Fault (Console Registry × Cache)) (con : Console Registry)
    (text : String) : Prop :=
  ∃ result, run = .ok result ∧ result.1.out = con.out ++ text

/-- What is done to the key `s` does not show at the key `t`. -/
structure Separated (hash : String → UInt64) (con : Console Registry) (cache : Cache)
    (s t : String) : Prop where
  /-- A `t` that is not stored is missed after a put of `s`. -/
  put : storedUnder hash cache t = none → ∀ value, trimString value ≠ "" →
    ∃ con' cache', handlePut hash (con.typing [s, value]) cache = .ok (con', cache') ∧
      Prints (handleGet hash (con'.typing [t]) cache') con'
        ("  Enter key : " ++ "\n" ++ missText t) ∧
      Prints (handleRemove hash (con'.typing [t]) cache') con'
        ("  Enter key to remove : " ++ "\n" ++ notFoundText t)
  /-- A stored `t` stays, with its value, after a removal of `s`. -/
  remove : ∀ value, storedUnder hash cache t = some value →
    ∃ con' cache', handleRemove hash (con.typing [s]) cache = .ok (con', cache') ∧
      storedUnder hash cache' t = some value

/-! ## The commands on a typed key -/

/-- What a get of the key prints, with the value that is found. -/
def gotText (hash : String → UInt64) (registry : Registry) (str : String) :
    Option UInt64 → String
  | some value => hitText str (fromUint64 (toUint64 hash registry str).2 value)
  | none => missText str

/-- What is typed is read. -/
theorem readLine_typing {ρ : Type} (prompt line : String) (lines : List String)
    (con : Console ρ) : readLine prompt (con.typing (line :: lines)) =
      (trimString line, (con.print prompt).typing lines) := rfl

section Typed

variable {hash : String → UInt64} {con : Console Registry} {st : State UInt64 UInt64}
variable {str value : String}

/-- A put of a typed key and value, in the reference. -/
theorem putCommand_typing (htrim : trimString str = str) (hne : str ≠ "")
    (hvalue : trimString value ≠ "") :
    (putCommand (numbers hash) (con.typing [str, value]) st).2 =
      st.put (codeOf hash str) (codeOf hash (trimString value)) := by
  simp only [putCommand, readLine_typing, htrim, if_neg hne, if_neg hvalue, Console.enter,
    numbers, toUint64_eq]

/-- A get of a typed key prints what the store has under its number. -/
theorem getCommand_typing (hitems : st.store.items.isEmpty = false)
    (htrim : trimString str = str) (hne : str ≠ "") :
    (getCommand (numbers hash) (con.typing [str]) st).1.out =
      con.out ++ ("  Enter key : " ++ "\n" ++
        gotText hash con.registry str (st.store.items.lookup (codeOf hash str))) := by
  simp only [getCommand, keyCommand, hitems, Bool.false_eq_true, if_false, readLine_typing, htrim,
    if_neg hne, Console.enter, numbers, toUint64_eq, getKeyed]
  cases st.store.items.lookup (codeOf hash str) <;>
    simp only [gotText, toUint64_eq, print_out, Console.say, Console.typing, Console.text,
      print_registry, String.append_assoc, text_hit, text_miss]

/-- A removal of a typed key. -/
theorem removeCommand_typing (hitems : st.store.items.isEmpty = false)
    (htrim : trimString str = str) (hne : str ≠ "") :
    (removeCommand (numbers hash) (con.typing [str]) st).2 =
        (st.remove (codeOf hash str)).2 ∧
      ((st.remove (codeOf hash str)).1 = false →
        (removeCommand (numbers hash) (con.typing [str]) st).1.out =
          con.out ++ ("  Enter key to remove : " ++ "\n" ++ notFoundText str)) := by
  simp only [removeCommand, keyCommand, hitems, Bool.false_eq_true, if_false, readLine_typing,
    htrim, if_neg hne, Console.enter, numbers, toUint64_eq, removeKeyed]
  refine ⟨trivial, fun hremoved => ?_⟩
  rw [if_neg (of_decide_eq_false hremoved)]
  simp only [print_out, Console.say, Console.typing, String.append_assoc, text_notFound]

end Typed

/-! ## Separation and numbers -/

section Numbers

variable {hash : String → UInt64} {con : Console Registry} {cache : Cache}
variable {st : State UInt64 UInt64} {s t : String}

/-- The commands look under the number of the text. -/
theorem storedUnder_eq (h : Serves cache st) (str : String) :
    storedUnder hash cache str = st.store.items.lookup (codeOf hash str) := by
  rcases h.get (codeOf hash str) with ⟨r, cache', hrun, hr, _⟩
  rw [storedUnder, hrun]
  cases hlookup : st.store.items.lookup (codeOf hash str) with
  | some value =>
    rw [hlookup] at hr
    cases hr
    rfl
  | none =>
    rw [hlookup] at hr
    cases hr
    rfl

/-- A store in which something is found is not empty. -/
theorem isEmpty_of_lookup {value k : UInt64} (h : st.store.items.lookup k = some value) :
    st.store.items.isEmpty = false := by
  cases hitems : st.store.items with
  | nil =>
    rw [hitems] at h
    cases h
  | cons p items => rfl

/-- Nor is one in which something has been put. -/
theorem isEmpty_put (st : State UInt64 UInt64) (k value : UInt64) :
    (st.put k value).store.items.isEmpty = false :=
  isEmpty_of_lookup (Store.lookup_put_self st.store k value)

/-- A removal of a typed key. -/
theorem handleRemove_typing (hash : String → UInt64) (con : Console Registry)
    (h : Serves cache st) (hitems : st.store.items.isEmpty = false)
    (htrim : trimString s = s) (hne : s ≠ "") :
    ∃ con' cache', handleRemove hash (con.typing [s]) cache = .ok (con', cache') ∧
      Serves cache' (st.remove (codeOf hash s)).2 := by
  rcases handleRemove_refines h hash (con.typing [s]) with ⟨cache', hrun, h'⟩
  rw [(removeCommand_typing hitems htrim hne).1] at h'
  exact ⟨_, cache', hrun, h'⟩

/-- A put of a typed key and a typed value. -/
theorem handlePut_typing (hash : String → UInt64) (con : Console Registry) (h : Serves cache st)
    (htrim : trimString s = s) (hne : s ≠ "") {value : String} (hvalue : trimString value ≠ "") :
    ∃ con' cache', handlePut hash (con.typing [s, value]) cache = .ok (con', cache') ∧
      Serves cache' (st.put (codeOf hash s) (codeOf hash (trimString value))) := by
  rcases handlePut_refines h hash (con.typing [s, value]) with ⟨cache', hrun, h'⟩
  rw [putCommand_typing htrim hne hvalue] at h'
  exact ⟨_, cache', hrun, h'⟩

/-- A get of a typed key, in the program. -/
theorem handleGet_prints (hash : String → UInt64) (con : Console Registry) (h : Serves cache st)
    (hitems : st.store.items.isEmpty = false) (htrim : trimString t = t) (hne : t ≠ "") :
    Prints (handleGet hash (con.typing [t]) cache) con ("  Enter key : " ++ "\n" ++
      gotText hash con.registry t (st.store.items.lookup (codeOf hash t))) := by
  rcases handleGet_refines h hash (con.typing [t]) with ⟨cache', hrun, _⟩
  exact ⟨_, hrun, getCommand_typing hitems htrim hne⟩

/-- Texts with different numbers are told apart by all three commands. -/
theorem separated_of_codeOf_ne (h : Serves cache st) (htrim : trimString s = s) (hne : s ≠ "")
    (htrim' : trimString t = t) (hne' : t ≠ "") (hcode : codeOf hash t ≠ codeOf hash s) :
    Separated hash con cache s t where
  put := by
    intro hstored value hvalue
    rw [storedUnder_eq h] at hstored
    rcases handlePut_typing hash con h htrim hne hvalue with ⟨con', cache', hrun, h'⟩
    have hitems := isEmpty_put st (codeOf hash s) (codeOf hash (trimString value))
    have hlookup : (st.put (codeOf hash s)
        (codeOf hash (trimString value))).store.items.lookup (codeOf hash t) = none :=
      Store.lookup_put_none hcode hstored
    refine ⟨con', cache', hrun, ?_, ?_⟩
    · have hprints := handleGet_prints hash con' h' hitems htrim' hne'
      rw [hlookup] at hprints
      exact hprints
    · rcases handleRemove_refines h' hash (con'.typing [t]) with
        ⟨cache'', hrun'', _⟩
      refine ⟨_, hrun'', (removeCommand_typing hitems htrim' hne').2 ?_⟩
      exact decide_eq_false (lookup_eq_none.mp hlookup)
  remove := by
    intro value hstored
    rw [storedUnder_eq h] at hstored
    rcases handleRemove_typing hash con h (isEmpty_of_lookup hstored) htrim hne
      with ⟨con', cache', hrun, h'⟩
    refine ⟨con', cache', hrun, ?_⟩
    rw [storedUnder_eq h', ← hstored]
    exact lookup_erase_of_ne hcode

/-- A hit cannot be taken for a miss: the lines begin differently. -/
theorem hitText_ne_missText (keyStr valStr : String) : hitText keyStr valStr ≠ missText keyStr := by
  unfold hitText missText
  intro h
  have hlist := congrArg String.toList h
  simp only [String.append_assoc, String.toList_append] at hlist
  have hfourth : some 'H' = some 'M' := congrArg (fun text => text[3]?) hlist
  exact absurd hfourth (by decide)

/-- With the same number, a `t` that is stored is removed, and one that is not is hit. -/
theorem not_separated_of_codeOf_eq (h : Serves cache st) (htrim : trimString s = s)
    (hne : s ≠ "") (htrim' : trimString t = t) (hne' : t ≠ "")
    (hcode : codeOf hash t = codeOf hash s) : ¬ Separated hash con cache s t := by
  intro hsep
  cases hlookup : st.store.items.lookup (codeOf hash t) with
  | some value =>
    have hstored : storedUnder hash cache t = some value := by rw [storedUnder_eq h, hlookup]
    rcases hsep.remove value hstored with ⟨con', cache', hrun, hstored'⟩
    rcases handleRemove_typing hash con h (isEmpty_of_lookup hlookup) htrim hne
      with ⟨con'', cache'', hrun', h'⟩
    cases hrun.symm.trans hrun'
    rw [storedUnder_eq h'] at hstored'
    have hmem : codeOf hash t ∈ keys (erase (codeOf hash s) st.store.items) :=
      lookup_isSome.mp (Option.isSome_of_eq_some hstored')
    exact (mem_keys_erase.mp hmem).2 hcode
  | none =>
    have hvalue : trimString "1" ≠ "" := by decide
    have hstored : storedUnder hash cache t = none := by rw [storedUnder_eq h, hlookup]
    rcases hsep.put hstored "1" hvalue with ⟨con', cache', hrun, ⟨result, hget, hout⟩, _⟩
    rcases handlePut_typing hash con h htrim hne hvalue with ⟨con'', cache'', hrun', h'⟩
    cases hrun.symm.trans hrun'
    rcases handleGet_prints hash con' h' (isEmpty_put st _ _) htrim' hne' with
      ⟨result', hget', hout'⟩
    cases hget.symm.trans hget'
    rw [hcode, State.put, Store.lookup_put_self, hout] at hout'
    have hsame := (String.append_right_inj _).mp ((String.append_right_inj _).mp hout')
    exact hitText_ne_missText _ _ hsame.symm

/-- In every state of the menu, two trimmed keys that are not empty are told apart if and only if
they do not begin with the same number. Assumed is that their hash values differ, and that none
is the number that the other begins with. -/
theorem separated_iff (hash : String → UInt64) (ratio : Nat → Nat → String)
    (lines : List String) (k : Nat) (con : Console Registry) (cache : Cache) (s t : String)
    (hreach : steps (mainStep hash ratio) k (mainStart lines) =
      .ok { console := con, point := .menu cache })
    (htrim : trimString s = s) (hne : s ≠ "") (htrim' : trimString t = t) (hne' : t ≠ "")
    (hhash : hash s ≠ hash t) (hparse : stoull s ≠ some (hash t))
    (hparse' : stoull t ≠ some (hash s)) :
    Separated hash con cache s t ↔ ¬ ∃ n, stoull s = some n ∧ stoull t = some n := by
  rcases main_refines hash ratio lines k with ⟨state, hrun, _, hpoint⟩
  cases hreach.symm.trans hrun
  rcases hpoint.exists_menu with ⟨st, _, h⟩
  constructor
  · rintro hsep ⟨n, hs, ht⟩
    refine not_separated_of_codeOf_eq h htrim hne htrim' hne' ?_ hsep
    rw [codeOf_of_stoull hash hs, codeOf_of_stoull hash ht]
  · intro hno
    refine separated_of_codeOf_ne h htrim hne htrim' hne' ?_
    intro hcode
    cases hs : stoull s with
    | none =>
      rw [codeOf_of_none hash hs] at hcode
      cases ht : stoull t with
      | none => exact hhash (codeOf_of_none hash ht ▸ hcode).symm
      | some m => exact hparse' (by rw [ht, ← codeOf_of_stoull hash ht, hcode])
    | some n =>
      rw [codeOf_of_stoull hash hs] at hcode
      cases ht : stoull t with
      | none => exact hparse (by rw [hs, ← codeOf_of_none hash ht, hcode])
      | some m => exact hno ⟨n, hs, by rw [ht, ← codeOf_of_stoull hash ht, hcode]⟩

/-- Two words at the first menu. -/
theorem separated_iff_apple : ∃ con cache,
    steps (mainStep (fun str => if str = "apple" then 10 else 20) (fun _ _ => "0")) 1
        (mainStart ["2"]) = .ok { console := con, point := .menu cache } ∧
      Separated (fun str => if str = "apple" then 10 else 20) con cache "apple" "pear" := by
  have hparse : parseCapacity (trimString "2") = .ok 2 := by decide
  rcases menu_of_capacity hparse [] with ⟨con, cache, hreach, _⟩
  refine ⟨con, cache, hreach, (separated_iff _ _ _ _ con cache "apple" "pear" hreach
    (by decide) (by decide) (by decide) (by decide) (by decide) (by decide) (by decide)).mpr ?_⟩
  rintro ⟨n, happle, _⟩
  have hnone : stoull "apple" = none := by decide
  rw [hnone] at happle
  cases happle

/-- "3 apples" and "3 pears" are the key 3. -/
theorem separated_fails : ∃ con cache,
    steps (mainStep (fun str => if str = "3 apples" then 10 else 20) (fun _ _ => "0")) 1
        (mainStart ["2"]) = .ok { console := con, point := .menu cache } ∧
      trimString "3 apples" = "3 apples" ∧ trimString "3 pears" = "3 pears" ∧
      stoull "3 apples" ≠ some 20 ∧ stoull "3 pears" ≠ some 10 ∧
      ¬ Separated (fun str => if str = "3 apples" then 10 else 20) con cache
        "3 apples" "3 pears" := by
  have hparse : parseCapacity (trimString "2") = .ok 2 := by decide
  rcases menu_of_capacity hparse [] with ⟨con, cache, hreach, h⟩
  refine ⟨con, cache, hreach, by decide, by decide, by decide, by decide,
    not_separated_of_codeOf_eq h (by decide) (by decide) (by decide) (by decide) ?_⟩
  have hpears : stoull "3 pears" = some 3 := by decide
  have happles : stoull "3 apples" = some 3 := by decide
  rw [codeOf_of_stoull _ hpears, codeOf_of_stoull _ happles]

end Numbers

end LruCache
