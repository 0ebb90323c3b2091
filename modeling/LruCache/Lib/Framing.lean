import Mathlib.Data.List.Basic

/-!
# Messages that say how long they are

A message is a head of lines, an empty line, and a body; one line of the head has the length of
the body. Reading what was written gives it back (`readBody_write`), and a message that was cut
off somewhere is never taken for a whole one (`readBody_cut`).

Main results:

* `readBody_write` — reading gives back what was written.
* `readBody_cut` — a message that was cut off is not read at all.

Deliberate scope limits:

* Lines have no line break in them, and the length is the only field that is read.
-/

namespace Framing

/-- The end of a line. -/
def crlf : List Char := ['\r', '\n']

/-- The message. -/
def write (lines : List (List Char)) (body : List Char) : List Char :=
  lines.flatMap (· ++ crlf) ++ crlf ++ body

/-- A line without its end, its last character first. -/
def endLine : List Char → Option (List Char)
  | '\r' :: line => some line.reverse
  | _ => none

/-- The lines up to the empty one, and what is behind it. The characters of the present line so
far are in `line`, the last one first. -/
def readHead (line : List Char) : List Char → Option (List (List Char) × List Char)
  | [] => none
  | ch :: text =>
      if ch = '\n' then
        (endLine line).bind fun line =>
          if line = [] then some ([], text)
          else (readHead [] text).map fun p => (line :: p.1, p.2)
      else readHead (ch :: line) text

/-- What is behind `name` in the first line that begins with it. -/
def field (name : List Char) (lines : List (List Char)) : Option (List Char) :=
  lines.findSome? fun line => if name.isPrefixOf line then some (line.drop name.length) else none

/-- A text that is a number and nothing else. -/
def number (text : List Char) : Option Nat :=
  if text ≠ [] ∧ text.all Char.isDigit then some (Nat.ofDigitChars 10 text 0) else none

/-- The body of a message, of which all must be there that the field `name` says. -/
def readBody (name : List Char) (text : List Char) : Option (List Char) := do
  let (lines, body) ← readHead [] text
  let digits ← field name lines
  let n ← number digits
  if body.length < n then none else some (body.take n)

/-! ## The head -/

section Head

variable {line text rest body : List Char} {lines : List (List Char)}

/-- An empty line ends the head. -/
theorem readHead_crlf_nil (text : List Char) : readHead [] (crlf ++ text) = some ([], text) :=
  rfl

/-- The end of a line of which `line` has been read. -/
theorem readHead_crlf (hne : line ≠ []) (text : List Char) :
    readHead line.reverse (crlf ++ text) = (readHead [] text).map fun p => (line :: p.1, p.2) := by
  have hend : endLine ('\r' :: line.reverse) = some line := by
    rw [endLine, List.reverse_reverse]
  rw [crlf, List.cons_append, List.cons_append, readHead, if_neg (by decide), readHead, if_pos rfl,
    hend, Option.bind_some, if_neg hne, List.nil_append]

/-- A line that is not empty. -/
theorem readHead_line (hne : line ≠ []) (hend : '\n' ∉ line) (text : List Char) :
    readHead [] (line ++ (crlf ++ text)) =
      (readHead [] text).map fun p => (line :: p.1, p.2) := by
  -- on the characters that are still to be read, with those read so far
  have hread : ∀ (todo done : List Char), '\n' ∉ todo → done ++ todo ≠ [] →
      readHead done.reverse (todo ++ (crlf ++ text)) =
        (readHead [] text).map fun p => ((done ++ todo) :: p.1, p.2) := by
    intro todo
    induction todo with
    | nil =>
      intro done _ hdone
      rw [List.append_nil] at hdone ⊢
      exact readHead_crlf hdone text
    | cons ch todo ih =>
      intro done hend _
      rw [List.mem_cons, not_or] at hend
      have hnext := ih (done ++ [ch]) hend.2 (by simp)
      rw [List.reverse_append, List.append_assoc] at hnext
      rw [List.cons_append, readHead, if_neg (Ne.symm hend.1)]
      exact hnext
  exact hread line [] hend hne

/-- The lines of a head, none of them empty. -/
theorem readHead_write (hlines : ∀ line ∈ lines, line ≠ [] ∧ '\n' ∉ line) (body : List Char) :
    readHead [] (write lines body) = some (lines, body) := by
  unfold write
  induction lines with
  | nil => exact readHead_crlf_nil body
  | cons line lines ih =>
    have hline := hlines line List.mem_cons_self
    have ih := ih fun l hl => hlines l (List.mem_cons_of_mem line hl)
    rw [List.flatMap_cons, List.append_assoc, List.append_assoc, List.append_assoc,
      readHead_line hline.1 hline.2, ← List.append_assoc, ih]
    rfl

/-- What comes later belongs to the body. -/
theorem readHead_append (h : readHead line text = some (lines, body)) (rest : List Char) :
    readHead line (text ++ rest) = some (lines, body ++ rest) := by
  induction text generalizing line lines with
  | nil => cases h
  | cons ch text ih =>
    rw [readHead] at h
    rw [List.cons_append, readHead]
    by_cases hch : ch = '\n'
    · rw [if_pos hch] at h ⊢
      rcases Option.bind_eq_some_iff.mp h with ⟨l, hl, h⟩
      rw [hl, Option.bind_some]
      by_cases hempty : l = []
      · rw [if_pos hempty] at h ⊢
        cases h
        rfl
      · rw [if_neg hempty] at h ⊢
        rcases Option.map_eq_some_iff.mp h with ⟨p, hp, hbody⟩
        cases hbody
        rw [ih hp]
        rfl
    · rw [if_neg hch] at h ⊢
      exact ih h

end Head

/-! ## The body -/

section Body

variable {name body cut : List Char} {lines : List (List Char)}

/-- A length that was written is read. -/
theorem number_toDigits (n : Nat) : number (Nat.toDigits 10 n) = some n := by
  have hdigits : (Nat.toDigits 10 n).all Char.isDigit = true := by
    rw [List.all_eq_true]
    intro ch hch
    exact Nat.isDigit_of_mem_toDigits (by decide) (by decide) hch
  rw [number, if_pos ⟨Nat.toDigits_ne_nil, hdigits⟩, Nat.ofDigitChars_ten_toDigits]

/-- The head of a message with a body of this length. -/
structure Announces (name : List Char) (lines : List (List Char)) (n : Nat) : Prop where
  proper : ∀ line ∈ lines, line ≠ [] ∧ '\n' ∉ line
  length : (field name lines).bind number = some n

/-- Once the head has been read, the body is cut off at its length, if there is enough of it. -/
theorem Announces.readBody (h : Announces name lines body.length) {text text' : List Char}
    (hhead : readHead [] text = some (lines, text')) :
    readBody name text = if text'.length < body.length then none
      else some (text'.take body.length) := by
  rcases Option.bind_eq_some_iff.mp h.length with ⟨digits, hfield, hnumber⟩
  simp only [Framing.readBody, hhead, hfield, hnumber, Option.bind_eq_bind, Option.bind_some]

/-- A message that was written is read. -/
theorem readBody_write (h : Announces name lines body.length) :
    readBody name (write lines body) = some body := by
  rw [h.readBody (readHead_write h.proper body), if_neg (Nat.lt_irrefl _), List.take_length]

/-- A message that was cut off is not read: the head is not all there, or the body is too
short. -/
theorem readBody_cut (h : Announces name lines body.length)
    (hcut : cut <+: write lines body) (hne : cut ≠ write lines body) :
    readBody name cut = none := by
  rcases hcut with ⟨rest, hrest⟩
  have hrest_ne : rest ≠ [] := by
    rintro rfl
    rw [List.append_nil] at hrest
    exact hne hrest
  cases hhead : readHead [] cut with
  | none => simp [Framing.readBody, hhead]
  | some p =>
    rcases p with ⟨lines', body'⟩
    have hall := readHead_append hhead rest
    rw [hrest, readHead_write h.proper body] at hall
    rcases Prod.mk.inj (Option.some.inj hall) with ⟨hlines, hbody⟩
    rw [← hlines] at hhead
    have hlength := congrArg List.length hbody
    have hpos := List.length_pos_iff.mpr hrest_ne
    rw [List.length_append] at hlength
    rw [h.readBody hhead, if_pos (by omega)]

end Body

end Framing
