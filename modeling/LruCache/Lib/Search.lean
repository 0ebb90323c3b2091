import Mathlib.Data.List.Basic
import Mathlib.Data.List.Infix
import Mathlib.Data.List.TakeWhile

/-!
# Searching and splitting

The first position of a pattern in a list, and the lines that a separator cuts a list into. A
pattern with a marker, an element that it has once, at its end or at its start, can only be found
at a marker of the list; so the search can go from marker to marker.

Main results:

* `firstIndex_marker_cons`, `firstIndex_concat_marker` — the search for a pattern with a marker
  goes from marker to marker.
* `lines_append` — lines can be cut off one by one.
-/

namespace Search

variable {α : Type*} [DecidableEq α]

/-- The first position at which the pattern begins. -/
def firstIndex (pattern text : List α) : Option ℕ :=
  text.tails.findIdx? fun rest => pattern.isPrefixOf rest

/-- What separators cut the list into; after the last separator there is a line only if something
is left. -/
def lines (sep : α) (text : List α) : List (List α) :=
  let parts := text.splitOn sep
  if parts.getLast? = some [] then parts.dropLast else parts

section FirstIndex

variable {pattern text p a b : List α} {m : α}

/-- What is in front of the first marker. -/
theorem takeWhile_marker (ha : m ∉ a) (b : List α) : (a ++ m :: b).takeWhile (· ≠ m) = a := by
  have hall : ∀ x ∈ a, decide (x ≠ m) = true :=
    fun x hx => decide_eq_true fun heq => ha (heq ▸ hx)
  rw [List.takeWhile_append_of_pos hall, List.takeWhile_cons]
  simp

/-- A pattern is found at the first position, or behind it. -/
theorem firstIndex_cons (pattern : List α) (x : α) (text : List α) :
    firstIndex pattern (x :: text) =
      if pattern <+: x :: text then some 0 else (firstIndex pattern text).map (· + 1) := by
  rw [firstIndex, List.tails_cons, List.findIdx?_cons]
  by_cases hstarts : pattern <+: x :: text
  · rw [if_pos (List.isPrefixOf_iff_prefix.mpr hstarts), if_pos hstarts]
  · rw [if_neg (mt List.isPrefixOf_iff_prefix.mp hstarts), if_neg hstarts]
    rfl

/-- Only the empty pattern is found in the empty text. -/
theorem firstIndex_nil (hne : pattern ≠ []) : firstIndex pattern [] = none := by
  cases pattern with
  | nil => exact absurd rfl hne
  | cons x pattern => rfl

/-- A pattern that begins with the marker is not found before the first marker. -/
theorem firstIndex_marker_cons (ha : m ∉ a) :
    firstIndex (m :: p) (a ++ m :: b) =
      if p <+: b then some a.length else (firstIndex (m :: p) b).map (· + (a.length + 1)) := by
  induction a with
  | nil =>
    rw [List.nil_append, firstIndex_cons]
    simp only [List.cons_prefix_cons, true_and]
    rfl
  | cons x a ih =>
    rw [List.mem_cons, not_or] at ha
    have hno : ¬ m :: p <+: x :: (a ++ m :: b) := fun h => ha.1 (List.cons_prefix_cons.mp h).1
    rw [List.cons_append, firstIndex_cons, if_neg hno, ih ha.2]
    split
    · rfl
    · rw [Option.map_map]
      rfl

/-- A pattern that ends with the marker is found at the first marker if what comes before the
marker ends with the rest of the pattern, and else not up to that marker. -/
theorem firstIndex_concat_marker (hp : m ∉ p) (ha : m ∉ a) :
    firstIndex (p ++ [m]) (a ++ m :: b) =
      if p <:+ a then some (a.length - p.length)
      else (firstIndex (p ++ [m]) b).map (· + (a.length + 1)) := by
  -- where the pattern begins, everything up to the marker is `p`
  have hstarts : ∀ {a : List α}, m ∉ a → (p ++ [m] <+: a ++ m :: b ↔ p = a) := by
    intro a ha
    constructor
    · rintro ⟨rest, hrest⟩
      rw [List.append_assoc, List.singleton_append] at hrest
      rw [← takeWhile_marker hp rest, hrest, takeWhile_marker ha]
    · rintro rfl
      exact ⟨b, by simp⟩
  induction a with
  | nil =>
    rw [List.nil_append, firstIndex_cons]
    have hiff := hstarts ha
    rw [List.nil_append] at hiff
    simp only [hiff, List.suffix_nil, List.length_nil, Nat.zero_sub, Nat.zero_add]
  | cons x a ih =>
    have hiff := hstarts ha
    rw [List.mem_cons, not_or] at ha
    rw [List.cons_append] at hiff ⊢
    rw [firstIndex_cons, ih ha.2]
    by_cases heq : p = x :: a
    · rw [if_pos (hiff.mpr heq), if_pos (heq ▸ List.suffix_refl _), heq, Nat.sub_self]
    · rw [if_neg (mt hiff.mp heq)]
      by_cases hsuffix : p <:+ a
      · have hle := hsuffix.length_le
        rw [if_pos hsuffix, if_pos (hsuffix.trans (List.suffix_cons x a)), Option.map_some,
          List.length_cons]
        congr 1
        omega
      · have hno : ¬ p <:+ x :: a := fun h => (List.suffix_cons_iff.mp h).elim heq hsuffix
        rw [if_neg hsuffix, if_neg hno, Option.map_map]
        rfl

/-- A single marker is found at its first occurrence. -/
theorem firstIndex_singleton (ha : m ∉ a) : firstIndex [m] (a ++ m :: b) = some a.length := by
  rw [firstIndex_marker_cons ha, if_pos List.nil_prefix]

/-- It is not found where it does not occur. -/
theorem firstIndex_singleton_none (h : m ∉ text) : firstIndex [m] text = none := by
  induction text with
  | nil => rfl
  | cons x text ih =>
    rw [List.mem_cons, not_or] at h
    have hno : ¬ [m] <+: x :: text := fun hstarts => h.1 (List.cons_prefix_cons.mp hstarts).1
    rw [firstIndex_cons, if_neg hno, ih h.2]
    rfl

/-- Up to the first marker, or to the end of the list. -/
theorem take_firstIndex_singleton (m : α) (text : List α) :
    text.take ((firstIndex [m] text).getD text.length) = text.takeWhile (· ≠ m) := by
  by_cases hmem : m ∈ text
  · rcases List.eq_append_cons_of_mem hmem with ⟨a, b, rfl, ha⟩
    rw [firstIndex_singleton ha, Option.getD_some, List.take_left, takeWhile_marker ha]
  · have hall : ∀ x ∈ text, decide (x ≠ m) = true :=
      fun x hx => decide_eq_true fun heq => hmem (heq ▸ hx)
    rw [firstIndex_singleton_none hmem, Option.getD_none, List.take_length,
      List.takeWhile_eq_self_iff.mpr hall]

end FirstIndex

section Lines

variable {sep : α} {a : List α}

/-- The first line is cut off at the first separator. -/
theorem lines_append (h : sep ∉ a) (b : List α) : lines sep (a ++ sep :: b) = a :: lines sep b := by
  have hne := List.splitOn_ne_nil sep b
  simp only [lines, List.splitOn_append_cons_self_of_not_mem h b]
  rw [List.getLast?_cons_of_ne_nil hne, List.dropLast_cons_of_ne_nil hne]
  split <;> rfl

end Lines

end Search
