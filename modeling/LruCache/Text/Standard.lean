import Mathlib.Algebra.Group.Int.Defs
import Mathlib.Algebra.Group.Nat.Defs
import Mathlib.Data.List.DropRight

/-!
# The standard library on texts

The functions of the C++ standard library through which the simulator and the web server read
and write numbers: `std::isspace` in the C locale, `std::stoull`, the formatted input of an `int`
and of a word, and `std::to_string`, which is `toString`. A `std::string` is a `String`, each
byte being a character.

Main results:

* `stoull_toString` — a number that was written is read again.

Deliberate scope limits:

* The C locale, and base 10. What the functions do with the errno and the flags of a stream is not
  modelled, but for the failure of an input.
-/

namespace LruCache

/-- `std::isspace`. -/
def isSpace (ch : Char) : Bool :=
  ch == ' ' || ch == '\t' || ch == '\n' || ch == '\x0b' || ch == '\x0c' || ch == '\r'

/-- The sign in front of a number: is it a minus, and what follows? -/
def takeSign : List Char → Bool × List Char
  | '-' :: rest => (true, rest)
  | '+' :: rest => (false, rest)
  | rest => (false, rest)

/-- `std::stoull(str)`, or `none` where it throws: if there is no number, or if it is too large.
Leading blanks and what follows the number are skipped; a negative number wraps around. -/
def stoull (str : String) : Option UInt64 :=
  let (negative, rest) := takeSign (str.toList.dropWhile isSpace)
  let digits := rest.takeWhile Char.isDigit
  let n := Nat.ofDigitChars 10 digits 0
  if digits = [] then none
  else if 2 ^ 64 ≤ n then none
  else some (if negative then 0 - UInt64.ofNat n else UInt64.ofNat n)

/-- The result of `stream >> value` for an `int`: the new value, whether the stream is still
good, and what is left of the stream. -/
structure IntRead where
  value : Int
  ok : Bool
  rest : List Char
deriving DecidableEq, Repr

/-- `stream >> value` for an `int`. Without any text the old value stays; without a number it
becomes 0, and a number out of range becomes the nearest `int`. -/
def readInt (old : Int) (stream : List Char) : IntRead :=
  match stream.dropWhile isSpace with
  | [] => { value := old, ok := false, rest := [] }
  | ch :: chars =>
      let (negative, rest) := takeSign (ch :: chars)
      let digits := rest.takeWhile Char.isDigit
      let rest := rest.dropWhile Char.isDigit
      let n : Int := Nat.ofDigitChars 10 digits 0
      let n := if negative then -n else n
      if digits = [] then { value := 0, ok := false, rest := rest }
      else if n < -(2 ^ 31) then { value := -(2 ^ 31), ok := false, rest := rest }
      else if 2 ^ 31 - 1 < n then { value := 2 ^ 31 - 1, ok := false, rest := rest }
      else { value := n, ok := true, rest := rest }

/-- Does `stream >> word` succeed for a `std::string`? -/
def readsWord (stream : List Char) : Bool := stream.any fun ch => !isSpace ch

/-- `trim_string` of `src/main.cpp`. -/
def trimString (s : String) : String :=
  .ofList ((s.toList.dropWhile isSpace).rdropWhile isSpace)

/-! ## Printing and parsing -/

section RoundTrip

/-- A digit is no space, -/
theorem isSpace_of_isDigit {ch : Char} (h : ch.isDigit = true) : isSpace ch = false := by
  by_contra hspace
  rw [Bool.not_eq_false] at hspace
  simp only [isSpace, Bool.or_eq_true, beq_iff_eq] at hspace
  rcases hspace with ((((rfl | rfl) | rfl) | rfl) | rfl) | rfl <;> revert h <;> decide

/-- and no sign. -/
theorem takeSign_of_isDigit {ch : Char} (h : ch.isDigit = true) (rest : List Char) :
    takeSign (ch :: rest) = (false, ch :: rest) := by
  unfold takeSign
  split
  · rename_i heq
    cases heq
    exact absurd h (by decide)
  · rename_i heq
    cases heq
    exact absurd h (by decide)
  · rfl

/-- A number is written in decimal digits, -/
theorem toList_toString (v : UInt64) : (toString v).toList = Nat.toDigits 10 v.toNat :=
  Nat.toList_repr

/-- which are all there is in its text, -/
theorem isDigit_of_mem_toString (v : UInt64) {ch : Char} (h : ch ∈ (toString v).toList) :
    ch.isDigit = true := by
  rw [toList_toString] at h
  exact Nat.isDigit_of_mem_toDigits (by decide) (by decide) h

/-- and there is at least one. -/
theorem toString_ne_empty (v : UInt64) : toString v ≠ "" := by
  intro h
  have hlist := toList_toString v
  rw [h] at hlist
  exact Nat.toDigits_ne_nil hlist.symm

/-- There is nothing to trim from a number. -/
theorem trimString_toString (v : UInt64) : trimString (toString v) = toString v := by
  have hspace : ∀ ch ∈ (toString v).toList, ¬ isSpace ch = true := by
    intro ch hch
    rw [isSpace_of_isDigit (isDigit_of_mem_toString v hch)]
    decide
  have hleft : (toString v).toList.dropWhile isSpace = (toString v).toList :=
    List.dropWhile_eq_self_iff.mpr fun h => hspace _ (List.getElem_mem h)
  have hright : (toString v).toList.rdropWhile isSpace = (toString v).toList :=
    List.rdropWhile_eq_self_iff.mpr fun h => hspace _ (List.getLast_mem h)
  rw [trimString, hleft, hright, String.ofList_toList]

/-- What `std::to_string` prints, `std::stoull` reads back. -/
theorem stoull_toString (v : UInt64) : stoull (toString v) = some v := by
  have hdigit : ∀ ch ∈ Nat.toDigits 10 v.toNat, ch.isDigit = true := by
    rw [← toList_toString]
    exact fun ch hch => isDigit_of_mem_toString v hch
  have hvalue : Nat.ofDigitChars 10 (Nat.toDigits 10 v.toNat) 0 = v.toNat :=
    Nat.ofDigitChars_ten_toDigits
  have hlt := v.toNat_lt
  rw [stoull, toList_toString]
  cases hchars : Nat.toDigits 10 v.toNat with
  | nil => exact absurd hchars Nat.toDigits_ne_nil
  | cons ch rest =>
    rw [hchars] at hdigit hvalue
    -- the first character is a digit, so there is no blank and no sign to skip
    have hfirst : ch.isDigit = true := hdigit ch List.mem_cons_self
    have hskip : (ch :: rest).dropWhile isSpace = ch :: rest := by
      rw [List.dropWhile_cons_of_neg]
      rw [isSpace_of_isDigit hfirst]
      decide
    have hall : (ch :: rest).takeWhile Char.isDigit = ch :: rest :=
      List.takeWhile_eq_self_iff.mpr hdigit
    rw [hskip, takeSign_of_isDigit hfirst]
    simp only [hall, hvalue]
    rw [if_neg (List.cons_ne_nil ch rest), if_neg (by omega)]
    simp

end RoundTrip

end LruCache
