import Mathlib.Data.Finset.Max
import Mathlib.Logic.Function.Basic

/-!
# Open addressing with linear probing

A table of `n` slots is a function `t : ℕ → Option ε`, read on `0, …, n - 1` and walked
cyclically. Every entry `e` has a key `keyOf e`, every key a home slot `home k`. `Valid` is what
makes linear probing correct: keys are distinct, and the slots from an entry's home up to the
entry are all occupied. The rules below are those of the operations on such a table: a probe
stops where it should (`Valid.path_to`, `exists_first_empty`), an entry put into the first empty
slot keeps the table valid (`Valid.insert`), and a hole closed by backward shift leaves a valid
table (`Hole` and its step rules).

Main results:

* `Valid.path_to`, `exists_first_empty` — a probe ends at the key, or at the first empty slot.
* `Valid.insert` — an entry put there leaves a valid table.
* `Hole` and its rules — so does the backward shift, whichever entries it moves.

Deliberate scope limits:

* The homes are any function of the keys; how often they collide is not the subject.
-/

namespace LinearProbing

/-! ## Hops around the table -/

/-- The number of hops from slot `a` to slot `b` around a table of `n` slots. -/
def hops (n a b : ℕ) : ℕ := if a ≤ b then b - a else b + n - a

/-- The slot after `a`. -/
def next (n a : ℕ) : ℕ := if a + 1 = n then 0 else a + 1

section Hops

variable {n a b c : ℕ}

/-- No hop leads to where one is. -/
@[simp] theorem hops_self (n a : ℕ) : hops n a a = 0 := by
  simp [hops]

/-- The next slot is in the table. -/
theorem next_lt (ha : a < n) : next n a < n := by
  unfold next
  split <;> omega

/-- It is the next index, or the first one. -/
theorem next_eq_mod (ha : a < n) : next n a = (a + 1) % n := by
  unfold next
  split
  · rename_i h
    simp [h]
  · exact (Nat.mod_eq_of_lt (by omega)).symm

/-- With more than one slot, it is another one. -/
theorem next_ne_self (hn : 1 < n) : next n a ≠ a := by
  unfold next
  split <;> omega

/-- No way around the table is as long as the table. -/
theorem hops_lt (ha : a < n) (hb : b < n) : hops n a b < n := by
  unfold hops
  split <;> omega

/-- A way to another slot has a hop. -/
theorem hops_pos (ha : a < n) (h : a ≠ b) : 0 < hops n a b := by
  unfold hops
  split <;> omega

/-- A slot is determined by its distance from another one. -/
theorem hops_inj (ha : a < n) (hb : b < n) (hc : c < n) (h : hops n a b = hops n a c) :
    b = c := by
  unfold hops at h
  split at h <;> split at h <;> omega

/-- Starting one slot later shortens the way by one. -/
theorem hops_next_left (ha : a < n) (hb : b < n) (h : a ≠ b) :
    hops n a b = hops n (next n a) b + 1 := by
  unfold next hops
  split_ifs <;> omega

/-- Going on to the next slot lengthens the way by one, unless it closes the circle. -/
theorem hops_next_right (ha : a < n) (h : next n b ≠ a) :
    hops n a (next n b) = hops n a b + 1 := by
  unfold next at h ⊢
  unfold hops
  split_ifs at h ⊢ <;> omega

/-- The way to a slot passes through every slot that is nearer. -/
theorem hops_add (ha : a < n) (hb : b < n) (hc : c < n) (h : hops n a b ≤ hops n a c) :
    hops n a c = hops n a b + hops n b c := by
  unfold hops at h ⊢
  split_ifs at h ⊢ <;> omega

/-- So many hops lead there. -/
theorem add_hops_mod (ha : a < n) (hb : b < n) : (a + hops n a b) % n = b := by
  unfold hops
  split
  · rw [Nat.add_sub_cancel' ‹a ≤ b›, Nat.mod_eq_of_lt hb]
  · have h : a + (b + n - a) = b + n := by omega
    rw [h, Nat.add_mod_right, Nat.mod_eq_of_lt hb]

/-- And this is how many there are. -/
theorem hops_add_mod {s : ℕ} (ha : a < n) (hs : s < n) : hops n a ((a + s) % n) = s := by
  by_cases hwrap : a + s < n
  · rw [Nat.mod_eq_of_lt hwrap]
    unfold hops
    split <;> omega
  · have h : (a + s) % n = a + s - n := by
      rw [Nat.mod_eq_sub_mod (by omega), Nat.mod_eq_of_lt (by omega)]
    rw [h]
    unfold hops
    split <;> omega

/-- The slots nearer to `a` than `b` is are those that a walk from `a` meets before `b`. -/
theorem forall_nearer_iff {P : ℕ → Prop} (ha : a < n) (hb : b < n) :
    (∀ i < n, hops n a i < hops n a b → P i) ↔
      ∀ s, (∀ s' ≤ s, (a + s') % n ≠ b) → P ((a + s) % n) := by
  constructor
  · intro h s hs
    have hlt : s < hops n a b := by
      by_contra hge
      exact hs (hops n a b) (by omega) (add_hops_mod ha hb)
    have hsn : s < n := Nat.lt_trans hlt (hops_lt ha hb)
    refine h _ (Nat.mod_lt _ (by omega)) ?_
    rw [hops_add_mod ha hsn]
    exact hlt
  · intro h i hi hlt
    have hwalk := h (hops n a i)
    rw [add_hops_mod ha hi] at hwalk
    refine hwalk ?_
    rintro s' hs' rfl
    rw [hops_add_mod ha (Nat.lt_of_le_of_lt hs' (hops_lt ha hi))] at hlt
    omega

end Hops

/-! ## Valid tables -/

variable {ε κ : Type*}

/-- A table that linear probing can search: at most one entry for a key, and no empty slot on
the way from an entry's home to the entry. -/
structure Valid (n : ℕ) (keyOf : ε → κ) (home : κ → ℕ) (t : ℕ → Option ε) : Prop where
  inj : ∀ i j a b, i < n → j < n → t i = some a → t j = some b → keyOf a = keyOf b → i = j
  chain : ∀ j a, j < n → t j = some a → ∀ i < n,
    hops n (home (keyOf a)) i < hops n (home (keyOf a)) j → t i ≠ none

section Probe

variable {n : ℕ} {keyOf : ε → κ} {home : κ → ℕ} {t : ℕ → Option ε}

/-- From every slot the walk reaches a first empty slot, if there is one at all. -/
theorem exists_first_empty (start : ℕ) {e₀ : ℕ} (he₀ : e₀ < n) (h : t e₀ = none) :
    ∃ j < n, t j = none ∧ hops n start j ≤ hops n start e₀ ∧
      ∀ i < n, hops n start i < hops n start j → t i ≠ none := by
  -- of all empty slots take the one the walk reaches first
  classical
  let empties := (Finset.range n).filter fun i => t i = none
  have hne : empties.Nonempty := ⟨e₀, by simp [empties, he₀, h]⟩
  rcases Finset.exists_min_image empties (hops n start) hne with ⟨j, hj, hmin⟩
  simp only [empties, Finset.mem_filter, Finset.mem_range] at hj hmin
  refine ⟨j, hj.1, hj.2, hmin e₀ ⟨he₀, h⟩, ?_⟩
  intro i hi hlt hnone
  have hle := hmin i ⟨hi, hnone⟩
  omega

/-- On the way from its home to an entry every slot holds an entry with another key. -/
theorem Valid.path_to (hv : Valid n keyOf home t) {j : ℕ} {a : ε} (hj : j < n)
    (ha : t j = some a) {i : ℕ} (hi : i < n)
    (hlt : hops n (home (keyOf a)) i < hops n (home (keyOf a)) j) :
    ∃ b, t i = some b ∧ keyOf b ≠ keyOf a := by
  cases hb : t i with
  | none => exact absurd hb (hv.chain j a hj ha i hi hlt)
  | some b =>
    refine ⟨b, rfl, ?_⟩
    intro hkey
    have hij : i = j := hv.inj i j b a hi hj hb ha hkey
    rw [hij] at hlt
    exact lt_irrefl _ hlt

/-- Validity only depends on the keys of the entries in the table. -/
theorem Valid.congr (hv : Valid n keyOf home t) {keyOf' : ε → κ}
    (h : ∀ j a, j < n → t j = some a → keyOf' a = keyOf a) : Valid n keyOf' home t := by
  constructor
  · intro i j a b hi hj ha hb hkey
    rw [h i a hi ha, h j b hj hb] at hkey
    exact hv.inj i j a b hi hj ha hb hkey
  · intro j a hj ha i hi hlt
    rw [h j a hj ha] at hlt
    exact hv.chain j a hj ha i hi hlt

/-- Nothing is out of place in an empty table. -/
theorem valid_empty : Valid n keyOf home fun _ => (none : Option ε) := by
  constructor
  · intro i j a b _ _ ha
    simp at ha
  · intro j a _ ha
    simp at ha

/-- A new key may be put into the first empty slot from its home. -/
theorem Valid.insert (hv : Valid n keyOf home t) {e : ε} {j : ℕ}
    (hfirst : ∀ i < n, hops n (home (keyOf e)) i < hops n (home (keyOf e)) j → t i ≠ none)
    (hnew : ∀ i a, i < n → t i = some a → keyOf a ≠ keyOf e) :
    Valid n keyOf home (Function.update t j (some e)) := by
  constructor
  · intro i i' a b hi hi' ha hb hkey
    by_cases hij : i = j <;> by_cases hij' : i' = j
    · rw [hij, hij']
    · -- `a` is the new entry and `b` an old one
      rw [hij, Function.update_self] at ha
      rw [Function.update_of_ne hij'] at hb
      cases ha
      exact absurd hkey.symm (hnew i' b hi' hb)
    · rw [Function.update_of_ne hij] at ha
      rw [hij', Function.update_self] at hb
      cases hb
      exact absurd hkey (hnew i a hi ha)
    · rw [Function.update_of_ne hij] at ha
      rw [Function.update_of_ne hij'] at hb
      exact hv.inj i i' a b hi hi' ha hb hkey
  -- the new entry fills a slot, so old ways stay unbroken; its own way is unbroken by `hfirst`
  · intro i a hi ha i' hi' hlt
    by_cases hij' : i' = j
    · simp [hij']
    · rw [Function.update_of_ne hij']
      by_cases hij : i = j
      · rw [hij, Function.update_self] at ha
        cases ha
        rw [hij] at hlt
        exact hfirst i' hi' hlt
      · rw [Function.update_of_ne hij] at ha
        exact hv.chain i a hi ha i' hi' hlt

/-- The entries after an insertion. -/
theorem exists_insert_iff {e a : ε} {j : ℕ} (hj : j < n) (h : t j = none) :
    (∃ i < n, Function.update t j (some e) i = some a) ↔ a = e ∨ ∃ i < n, t i = some a := by
  constructor
  · rintro ⟨i, hi, ha⟩
    by_cases hij : i = j
    · rw [hij, Function.update_self] at ha
      exact Or.inl (Option.some.inj ha).symm
    · rw [Function.update_of_ne hij] at ha
      exact Or.inr ⟨i, hi, ha⟩
  · rintro (rfl | ⟨i, hi, ha⟩)
    · exact ⟨j, hj, Function.update_self ..⟩
    · refine ⟨i, hi, ?_⟩
      rw [Function.update_of_ne]
      · exact ha
      · rintro rfl
        rw [h] at ha
        cases ha

end Probe

/-! ## Backward shift

After an entry is erased, its slot is a hole that may cut the way to entries behind it. The
shift walks on from the hole; an entry whose way passes the hole is moved into it, and the slot
it leaves is the new hole. `Hole` is the loop invariant: the table is valid but for the hole, and
no entry between the hole and the scan position misses it. -/

/-- The state of a backward shift that erases slot `h₀` of `t₀`: the hole is at `hole`, the scan
at `scan`, and `spare` is an empty slot the scan has not reached. -/
structure Hole (n : ℕ) (keyOf : ε → κ) (home : κ → ℕ) (t₀ : ℕ → Option ε) (h₀ : ℕ)
    (spare : ℕ) (t : ℕ → Option ε) (hole scan : ℕ) : Prop where
  hole_lt : hole < n
  scan_lt : scan < n
  spare_lt : spare < n
  scan_ne : scan ≠ hole
  empty : t hole = none
  spare_empty : t spare = none
  ahead : hops n hole scan ≤ hops n hole spare
  inj : ∀ i j a b, i < n → j < n → t i = some a → t j = some b → keyOf a = keyOf b → i = j
  chain : ∀ j a, j < n → t j = some a → ∀ i < n, i ≠ hole →
    hops n (home (keyOf a)) i < hops n (home (keyOf a)) j → t i ≠ none
  passed : ∀ j a, j < n → t j = some a → hops n hole j < hops n hole scan →
    hops n (home (keyOf a)) j ≤ hops n (home (keyOf a)) hole
  entries : ∀ a, (∃ j < n, t j = some a) ↔ ∃ j < n, t₀ j = some a ∧ j ≠ h₀

section Shift

variable {n : ℕ} {keyOf : ε → κ} {home : κ → ℕ} {t₀ t : ℕ → Option ε}
variable {h₀ spare hole scan : ℕ}

/-- Emptying an occupied slot of a valid table starts a backward shift. -/
theorem Hole.start (hv : Valid n keyOf home t₀) {a₀ : ε} (hh₀ : h₀ < n)
    (ha₀ : t₀ h₀ = some a₀) (hspare_lt : spare < n) (hspare : t₀ spare = none) :
    Hole n keyOf home t₀ h₀ spare (Function.update t₀ h₀ none) h₀ (next n h₀) := by
  have hne : spare ≠ h₀ := by
    intro h
    rw [h, ha₀] at hspare
    cases hspare
  have hold : ∀ i a, Function.update t₀ h₀ none i = some a → i ≠ h₀ ∧ t₀ i = some a := by
    intro i a ha
    by_cases hi : i = h₀
    · rw [hi, Function.update_self] at ha
      cases ha
    · rw [Function.update_of_ne hi] at ha
      exact ⟨hi, ha⟩
  have hnext : next n h₀ ≠ h₀ := next_ne_self (by omega)
  refine
    { hole_lt := hh₀
      scan_lt := next_lt hh₀
      spare_lt := hspare_lt
      scan_ne := hnext
      empty := Function.update_self ..
      spare_empty := by rw [Function.update_of_ne hne]; exact hspare
      ahead := ?_
      inj := ?_
      chain := ?_
      passed := ?_
      entries := ?_ }
  · have h1 := hops_next_right hh₀ hnext
    have h2 := hops_pos hh₀ (Ne.symm hne)
    simp only [hops_self] at h1
    omega
  · intro i j a b hi hj ha hb hkey
    exact hv.inj i j a b hi hj (hold i a ha).2 (hold j b hb).2 hkey
  · intro j a hj ha i hi hih hlt
    rw [Function.update_of_ne hih]
    exact hv.chain j a hj (hold j a ha).2 i hi hlt
  · -- only the hole itself lies before the scan position, and it is empty
    intro j a hj ha hlt
    have h1 := hops_next_right hh₀ hnext
    have h2 := hops_pos hh₀ (Ne.symm (hold j a ha).1)
    simp only [hops_self] at h1
    omega
  · intro a
    constructor
    · rintro ⟨j, hj, ha⟩
      exact ⟨j, hj, (hold j a ha).2, (hold j a ha).1⟩
    · rintro ⟨j, hj, ha, hne'⟩
      exact ⟨j, hj, by rw [Function.update_of_ne hne']; exact ha⟩

/-- The scan does not run past the spare slot while it looks at occupied ones. -/
theorem Hole.scan_before (hs : Hole n keyOf home t₀ h₀ spare t hole scan) {a : ε}
    (ha : t scan = some a) : hops n hole scan < hops n hole spare := by
  rcases Nat.lt_or_ge (hops n hole scan) (hops n hole spare) with hlt | hge
  · exact hlt
  · have heq : scan = spare :=
      hops_inj hs.hole_lt hs.scan_lt hs.spare_lt (le_antisymm hs.ahead hge)
    have hnone := hs.spare_empty
    rw [← heq, ha] at hnone
    cases hnone

/-- The scan does not come round to the hole before it meets an empty slot. -/
theorem Hole.next_ne (hs : Hole n keyOf home t₀ h₀ spare t hole scan) {a : ε}
    (ha : t scan = some a) : next n scan ≠ hole := by
  -- the scan would have to come round to the hole, but the spare slot is in between
  intro heq
  have h1 := hs.scan_before ha
  have h2 := hops_lt hs.hole_lt hs.spare_lt
  have h3 := hs.scan_lt
  have h4 := hs.hole_lt
  unfold next at heq
  unfold hops at h1 h2
  split_ifs at heq h1 h2 <;> omega

/-- An entry whose way does not pass the hole stays where it is. -/
theorem Hole.skip (hs : Hole n keyOf home t₀ h₀ spare t hole scan) {a : ε}
    (ha : t scan = some a)
    (hstay : hops n (home (keyOf a)) scan ≤ hops n (home (keyOf a)) hole) :
    Hole n keyOf home t₀ h₀ spare t hole (next n scan) := by
  have hnext := hs.next_ne ha
  have hdist := hops_next_right hs.hole_lt hnext
  refine { hs with scan_lt := next_lt hs.scan_lt, scan_ne := hnext, ahead := ?_, passed := ?_ }
  · have := hs.scan_before ha
    omega
  -- only the slot just scanned is new between the hole and the scan position
  · intro j b hj hb hlt
    rcases Nat.lt_or_ge (hops n hole j) (hops n hole scan) with hlt' | hge
    · exact hs.passed j b hj hb hlt'
    · have heq : j = scan := hops_inj hs.hole_lt hj hs.scan_lt (by omega)
      subst heq
      rw [ha] at hb
      cases hb
      exact hstay

/-- An entry whose way passes the hole is moved into it; its slot is the new hole. -/
theorem Hole.move (hs : Hole n keyOf home t₀ h₀ spare t hole scan) {a : ε}
    (ha : t scan = some a)
    (hmove : hops n (home (keyOf a)) hole < hops n (home (keyOf a)) scan) :
    Hole n keyOf home t₀ h₀ spare
      (Function.update (Function.update t hole (some a)) scan none) scan (next n scan) := by
  have hne := hs.scan_ne
  -- what the new table holds: the moved entry at the old hole, else what was there
  have hold : ∀ i b, Function.update (Function.update t hole (some a)) scan none i = some b →
      i ≠ scan ∧ ((i = hole ∧ b = a) ∨ (i ≠ hole ∧ t i = some b)) := by
    intro i b hb
    by_cases hi : i = scan
    · rw [hi, Function.update_self] at hb
      cases hb
    · rw [Function.update_of_ne hi] at hb
      by_cases hih : i = hole
      · rw [hih, Function.update_self] at hb
        cases hb
        exact ⟨hi, Or.inl ⟨hih, rfl⟩⟩
      · rw [Function.update_of_ne hih] at hb
        exact ⟨hi, Or.inr ⟨hih, hb⟩⟩
  have hnext_self : next n scan ≠ scan := by
    have hhole := hs.hole_lt
    have hscan := hs.scan_lt
    exact next_ne_self (by omega)
  have hspare_ne : spare ≠ scan := by
    intro heq
    have := hs.spare_empty
    rw [heq, ha] at this
    cases this
  have hspare_hole : spare ≠ hole := by
    intro heq
    have h1 := hs.scan_before ha
    rw [heq, hops_self] at h1
    omega
  have hone := hops_next_right hs.scan_lt hnext_self
  simp only [hops_self] at hone
  refine
    { hole_lt := hs.scan_lt
      scan_lt := next_lt hs.scan_lt
      spare_lt := hs.spare_lt
      scan_ne := hnext_self
      empty := Function.update_self ..
      spare_empty := by
        rw [Function.update_of_ne hspare_ne, Function.update_of_ne hspare_hole]
        exact hs.spare_empty
      ahead := ?_
      inj := ?_
      chain := ?_
      passed := ?_
      entries := ?_ }
  · have := hops_pos hs.scan_lt (Ne.symm hspare_ne)
    omega
  -- the moved entry has left its slot, so no other entry has its key
  · intro i j b c hi hj hb hc hkey
    rcases hold i b hb with ⟨hi', ⟨hih, hba⟩ | ⟨hih, hbt⟩⟩ <;>
      rcases hold j c hc with ⟨hj', ⟨hjh, hca⟩ | ⟨hjh, hct⟩⟩
    · rw [hih, hjh]
    · rw [hba] at hkey
      exact absurd (hs.inj scan j a c hs.scan_lt hj ha hct hkey).symm hj'
    · rw [hca] at hkey
      exact absurd (hs.inj i scan b a hi hs.scan_lt hbt ha hkey) hi'
    · exact hs.inj i j b c hi hj hbt hct hkey
  · intro j b hj hb i hi hi' hlt
    rw [Function.update_of_ne hi']
    by_cases hih : i = hole
    · simp [hih]
    · rw [Function.update_of_ne hih]
      rcases hold j b hb with ⟨_, ⟨hjh, hba⟩ | ⟨_, hbt⟩⟩
      · -- the moved entry: its way only got shorter
        rw [hba, hjh] at hlt
        exact hs.chain scan a hs.scan_lt ha i hi hih (by omega)
      · exact hs.chain j b hj hbt i hi hih hlt
  -- the new hole is right behind the scan position: nothing lies in between
  · intro j b hj hb hlt
    have := hops_pos hs.scan_lt (Ne.symm (hold j b hb).1)
    omega
  · intro b
    rw [← hs.entries b]
    constructor
    · rintro ⟨j, hj, hb⟩
      rcases hold j b hb with ⟨_, ⟨_, hba⟩ | ⟨_, hbt⟩⟩
      · exact ⟨scan, hs.scan_lt, hba ▸ ha⟩
      · exact ⟨j, hj, hbt⟩
    · rintro ⟨j, hj, hb⟩
      by_cases hjs : j = scan
      · rw [hjs, ha] at hb
        refine ⟨hole, hs.hole_lt, ?_⟩
        rw [Function.update_of_ne (Ne.symm hne), Function.update_self]
        exact hb
      · refine ⟨j, hj, ?_⟩
        rw [Function.update_of_ne hjs]
        by_cases hjh : j = hole
        · rw [hjh, hs.empty] at hb
          cases hb
        · rw [Function.update_of_ne hjh]
          exact hb

/-- When the scan meets an empty slot, no entry's way passes the hole any more. -/
theorem Hole.done (hs : Hole n keyOf home t₀ h₀ spare t hole scan) (hhome : ∀ k, home k < n)
    (hstop : t scan = none) : Valid n keyOf home t := by
  refine ⟨hs.inj, ?_⟩
  intro j a hj ha i hi hlt
  -- only the hole can cut a way, and then the entry behind it would have been moved
  by_cases hih : i = hole
  · exfalso
    rw [hih] at hlt
    rcases Nat.lt_or_ge (hops n hole j) (hops n hole scan) with hlt' | hge
    · have := hs.passed j a hj ha hlt'
      omega
    · -- the way to `j` goes from the hole on through the scan position, which is empty
      have hjs : j ≠ scan := by
        intro heq
        rw [heq, hstop] at ha
        cases ha
      have hgt : hops n hole scan < hops n hole j := by
        rcases Nat.lt_or_ge (hops n hole scan) (hops n hole j) with h | h
        · exact h
        · exact absurd (hops_inj hs.hole_lt hj hs.scan_lt (le_antisymm h hge)) hjs
      have h1 := hops_add (hhome (keyOf a)) hs.hole_lt hj (le_of_lt hlt)
      have h2 : hops n (home (keyOf a)) scan < hops n (home (keyOf a)) j := by
        have hk := hhome (keyOf a)
        have := hs.hole_lt
        have := hs.scan_lt
        unfold hops at h1 hgt hlt ⊢
        split_ifs at h1 hgt hlt ⊢ <;> omega
      exact hs.chain j a hj ha scan hs.scan_lt hs.scan_ne h2 hstop
  · exact hs.chain j a hj ha i hi hih hlt

end Shift

end LinearProbing
