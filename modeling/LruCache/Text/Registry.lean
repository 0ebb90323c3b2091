import LruCache.Text.Standard
import Mathlib.Logic.Function.Basic

/-!
# The registry of texts

`g_string_registry`, `to_uint64` and `from_uint64`, which `src/main.cpp` and `src/web_server.cpp`
both define, in the same way: the core of the program knows numbers only, and the registry
remembers for each number the text that was last turned into it. `std::hash<std::string>` is a
parameter.

Many texts share a number, so the text of a number changes; but every text that the registry has
for a number is turned into that number again (`Registry.Faithful`).

Main results:

* `Registry.Faithful.registerAll` — every text that is registered for a number is turned into it.
* `toUint64_fromUint64` — in any registry that calls of `to_uint64` lead to, the text that is shown
  for a number is turned into it again, without a change to the registry.

Deliberate scope limits:

* Nothing is said about the way from a text to a number and back: it may lead to another text with
  the same number (`LruCache.Cli.Separation`).
-/

namespace LruCache

/-- `g_string_registry`. -/
abbrev Registry := UInt64 → Option String

/-- The registry at the start of the program. -/
def Registry.empty : Registry := fun _ => none

/-- The number that `to_uint64` returns for a text. -/
def codeOf (hash : String → UInt64) (str : String) : UInt64 :=
  match stoull str with
  | some val => val
  | none => hash str

/-- `to_uint64`. -/
def toUint64 (hash : String → UInt64) (registry : Registry) (str : String) : UInt64 × Registry :=
  match stoull str with
  | some val => (val, Function.update registry val (some str))
  | none =>
      let hashVal := hash str
      (hashVal, Function.update registry hashVal (some str))

/-- `from_uint64`. -/
def fromUint64 (registry : Registry) (val : UInt64) : String :=
  match registry val with
  | some str => str
  | none => toString val

/-- The registry after `to_uint64` of each of the texts. -/
def registerAll (hash : String → UInt64) (registry : Registry) (strs : List String) : Registry :=
  strs.foldl (fun registry str => (toUint64 hash registry str).2) registry

section Registry

variable {hash : String → UInt64} {registry : Registry} {str : String} {val : UInt64}

/-- A text is turned into its number, and registered for it. -/
theorem toUint64_eq (hash : String → UInt64) (registry : Registry) (str : String) :
    toUint64 hash registry str =
      (codeOf hash str, Function.update registry (codeOf hash str) (some str)) := by
  unfold toUint64 codeOf
  cases stoull str <;> rfl

/-- A text that begins with a number stands for this number, -/
theorem codeOf_of_stoull (hash : String → UInt64) (h : stoull str = some val) :
    codeOf hash str = val := by
  rw [codeOf, h]

/-- any other one for its hash value. -/
theorem codeOf_of_none (hash : String → UInt64) (h : stoull str = none) :
    codeOf hash str = hash str := by
  rw [codeOf, h]

/-- A number is shown as its text, if there is one, -/
theorem fromUint64_of_some (h : registry val = some str) : fromUint64 registry val = str := by
  rw [fromUint64, h]

/-- and else in decimal. -/
theorem fromUint64_of_none (h : registry val = none) : fromUint64 registry val = toString val := by
  rw [fromUint64, h]

/-! ## The round trip -/

/-- Every registered text is turned into the number that it is registered for. -/
def Registry.Faithful (hash : String → UInt64) (registry : Registry) : Prop :=
  ∀ val str, registry val = some str → codeOf hash str = val

/-- Nothing is registered at first. -/
theorem Registry.faithful_empty : Registry.empty.Faithful hash := by
  intro val str h
  cases h

/-- `to_uint64` writes one number, and what it writes there is faithful. -/
theorem Registry.Faithful.toUint64 (h : registry.Faithful hash) (str : String) :
    (toUint64 hash registry str).2.Faithful hash := by
  rw [toUint64_eq]
  intro val str' hval
  dsimp only at hval
  by_cases heq : val = codeOf hash str
  · rw [heq, Function.update_self] at hval
    rw [← Option.some.inj hval, heq]
  · rw [Function.update_of_ne heq] at hval
    exact h val str' hval

/-- Registering texts keeps the registry faithful. -/
theorem Registry.Faithful.registerAll (h : registry.Faithful hash) (strs : List String) :
    (registerAll hash registry strs).Faithful hash := by
  induction strs generalizing registry with
  | nil => exact h
  | cons str strs ih => exact ih (h.toUint64 str)

/-- The text of a number is turned into the number, registered or not. -/
theorem Registry.Faithful.codeOf_fromUint64 (h : registry.Faithful hash) (val : UInt64) :
    codeOf hash (fromUint64 registry val) = val := by
  cases hval : registry val with
  | some str =>
    rw [fromUint64_of_some hval]
    exact h val str hval
  | none =>
    rw [fromUint64_of_none hval]
    exact codeOf_of_stoull hash (stoull_toString val)

/-- A property of all registered texts and of all numbers is one of all texts shown. -/
theorem fromUint64_property {P : String → Prop} (hprint : ∀ v : UInt64, P (toString v))
    (strs : List String) (h : ∀ str ∈ strs, P str) (v : UInt64) :
    P (fromUint64 (registerAll hash Registry.empty strs) v) := by
  have hall : ∀ val str, registerAll hash Registry.empty strs val = some str → P str := by
    -- on the calls, last one first: it has registered its own text, or the text is an older one
    induction strs using List.reverseRecOn with
    | nil =>
      intro val str hval
      cases hval
    | append_singleton strs last ih =>
      intro val str hval
      rw [registerAll, List.foldl_append, List.foldl_cons, List.foldl_nil, toUint64_eq] at hval
      by_cases heq : val = codeOf hash last
      · simp only [heq, Function.update_self] at hval
        exact h str (by rw [← Option.some.inj hval]; simp)
      · simp only [Function.update_of_ne heq] at hval
        exact ih (fun str hmem => h str (List.mem_append_left _ hmem)) val str hval
  cases hval : registerAll hash Registry.empty strs v with
  | some str =>
    rw [fromUint64_of_some hval]
    exact hall v str hval
  | none =>
    rw [fromUint64_of_none hval]
    exact hprint v

/-- Registering the text that a number has already changes no text. -/
theorem fromUint64_update (registry : Registry) (val w : UInt64) :
    fromUint64 (Function.update registry val (some (fromUint64 registry val))) w =
      fromUint64 registry w := by
  by_cases heq : w = val
  · rw [heq]
    exact fromUint64_of_some (Function.update_self ..)
  · rw [fromUint64, Function.update_of_ne heq, fromUint64]

/-- **Round trip.** After any calls of `to_uint64`, the text of any number leads back to the
number, and typing it changes no text. If the texts of the calls were trimmed and not empty, as
those of the simulator are, then so is the text of the number: it gets past `read_line`. -/
theorem toUint64_fromUint64 (hash : String → UInt64) (strs : List String) (v : UInt64) :
    (toUint64 hash (registerAll hash Registry.empty strs)
        (fromUint64 (registerAll hash Registry.empty strs) v)).1 = v ∧
      (∀ w, fromUint64 (toUint64 hash (registerAll hash Registry.empty strs)
          (fromUint64 (registerAll hash Registry.empty strs) v)).2 w =
        fromUint64 (registerAll hash Registry.empty strs) w) ∧
      ((∀ str ∈ strs, trimString str = str ∧ str ≠ "") →
        trimString (fromUint64 (registerAll hash Registry.empty strs) v) =
            fromUint64 (registerAll hash Registry.empty strs) v ∧
          fromUint64 (registerAll hash Registry.empty strs) v ≠ "") := by
  have hfaithful : (registerAll hash Registry.empty strs).Faithful hash :=
    Registry.faithful_empty.registerAll strs
  have hcode := hfaithful.codeOf_fromUint64 v
  rw [toUint64_eq, hcode]
  refine ⟨rfl, fromUint64_update _ v, fun htrimmed => ?_⟩
  exact fromUint64_property (P := fun str => trimString str = str ∧ str ≠ "")
    (fun w => ⟨trimString_toString w, toString_ne_empty w⟩) strs htrimmed v

end Registry

end LruCache
