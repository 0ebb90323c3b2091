import LruCache.Lib.Search
import LruCache.Text.Standard

/-!
# Searching in texts

The members of `std::string` with which the web server takes requests apart, and `std::getline`
with a delimiter. `npos` is `none`.

Main results:

* `find_zero`, `find_append` — `find` in terms of `LruCache.Lib.Search`.
* `substr_append`, `getlines_append` — parts of a text that was put together.

Deliberate scope limits:

* Only the arguments that the server uses: `find` with a position, `substr` with or without a
  length. Positions beyond the end, at which the library throws, do not occur in it.
-/

namespace LruCache

/-- `text.find(pattern, pos)`. -/
def find (text pattern : String) (pos : Nat) : Option Nat :=
  if pos ≤ text.length then
    (Search.firstIndex pattern.toList (text.toList.drop pos)).map (pos + ·)
  else none

/-- `text.find(pattern) == 0`. -/
def beginsWith (text pattern : String) : Bool := find text pattern 0 == some 0

/-- `text.substr(pos, count)`, where `pos` is not past the end. -/
def substr (text : String) (pos : Nat) : Option Nat → String
  | some count => .ofList ((text.toList.drop pos).take count)
  | none => .ofList (text.toList.drop pos)

/-- The lines that `std::getline(ss, line, delim)` reads from a stream of the text. -/
def getlines (text : String) (delim : Char) : List String :=
  (Search.lines delim text.toList).map String.ofList

/-- `std::stoi(str)`, or `none` where it throws. -/
def stoi (str : String) : Option Int :=
  let (negative, rest) := takeSign (str.toList.dropWhile isSpace)
  let digits := rest.takeWhile Char.isDigit
  let n : Int := Nat.ofDigitChars 10 digits 0
  let n := if negative then -n else n
  if digits = [] then none
  else if n < -(2 ^ 31) ∨ 2 ^ 31 - 1 < n then none
  else some n

section Find

variable {text pattern a b : String} {ch : Char}

/-- A search from the start is one for the first index. -/
theorem find_zero (text pattern : String) :
    find text pattern 0 = Search.firstIndex pattern.toList text.toList := by
  simp [find]

/-- A search behind a first part is one in the second part. -/
theorem find_append (a b pattern : String) : find (a ++ b) pattern a.length =
    (Search.firstIndex pattern.toList b.toList).map (a.length + ·) := by
  have hdrop : (a ++ b).toList.drop a.length = b.toList := by
    rw [String.toList_append, ← String.length_toList, List.drop_left]
  rw [find, if_pos (by simp), hdrop]

/-- The part in the middle. -/
theorem substr_append (a b c : String) : substr (a ++ b ++ c) a.length (some b.length) = b := by
  rw [substr, String.append_assoc, String.toList_append, ← String.length_toList (s := a),
    List.drop_left, String.toList_append, ← String.length_toList, List.take_left,
    String.ofList_toList]

/-- The rest. -/
theorem substr_append_none (a b : String) : substr (a ++ b) a.length none = b := by
  rw [substr, String.toList_append, ← String.length_toList, List.drop_left, String.ofList_toList]

/-- A text that is found at 0 begins the other one. -/
theorem beginsWith_iff : beginsWith text pattern = true ↔ pattern.toList <+: text.toList := by
  rw [beginsWith, find_zero, beq_iff_eq]
  cases htext : text.toList with
  | nil =>
    cases pattern.toList with
    | nil => simp [Search.firstIndex]
    | cons x xs => simp [Search.firstIndex_nil]
  | cons x xs =>
    rw [Search.firstIndex_cons]
    split
    · simp [*]
    · simp [*]

/-- A text is told from its first characters, if there are enough of them. -/
theorem beginsWith_append (h : pattern.length ≤ a.length) :
    beginsWith (a ++ b) pattern = pattern.toList.isPrefixOf a.toList := by
  rw [Bool.eq_iff_iff, beginsWith_iff, List.isPrefixOf_iff_prefix, String.toList_append]
  constructor
  · intro hstarts
    exact List.prefix_of_prefix_length_le hstarts (List.prefix_append ..) h
  · intro hstarts
    exact hstarts.trans (List.prefix_append ..)

/-- Up to a character, or to the end. -/
theorem substr_find (text : String) (pos : Nat) (ch : Char) :
    substr text pos (some ((find text (String.singleton ch) pos).getD text.length - pos)) =
      .ofList ((text.toList.drop pos).takeWhile (· ≠ ch)) := by
  rw [substr, ← Search.take_firstIndex_singleton]
  congr 2
  unfold find
  by_cases hpos : pos ≤ text.length
  · rw [if_pos hpos, String.toList_singleton]
    cases Search.firstIndex [ch] (text.toList.drop pos) with
    | none => simp [String.length_toList]
    | some i => simp
  · have hend : text.toList.drop pos = [] :=
      List.drop_eq_nil_of_le (Nat.le_of_not_le hpos)
    rw [if_neg hpos, hend, Search.firstIndex_nil (List.cons_ne_nil ch [])]
    simp
    omega

/-- The first line ends at the first delimiter. -/
theorem getlines_append (h : ch ∉ a.toList) (b : String) :
    getlines (a ++ String.singleton ch ++ b) ch = a :: getlines b ch := by
  simp only [getlines, String.toList_append, String.toList_singleton, List.append_assoc,
    List.singleton_append]
  rw [Search.lines_append h, List.map_cons, String.ofList_toList]

end Find

end LruCache
