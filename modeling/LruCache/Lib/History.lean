import LruCache.Lib.Recency
import LruCache.Lib.Transition
import Mathlib.Data.Finset.Card
import Mathlib.Data.List.TakeWhile

/-!
# What a recency list remembers

The content of a recency list, read off the history of its calls. An event is a call together
with whether it hit. `lastWrite k` is the latest event that decides what is stored under `k`;
`touchedSince k` collects the keys touched after the last touch of `k`. A stored pair is always
the latest write (`Remembers.stored`); a key is stored as long as fewer than `cap` other keys
were touched since (`Remembers.fresh`, `Remembers.evicted`); and without removals it is gone once
that many were (`Remembers.above`).

Main results:

* `Remembers.run` — the store remembers the whole history of its calls; there is one lemma for each
  call.
* `Remembers.stored`, `Remembers.fresh`, `Remembers.evicted`, `Remembers.above` — what can be told
  from it.

Deliberate scope limits:

* That a key is gone after `cap` other keys were touched is claimed without removals only: a
  removal makes room, and the key stays longer.
-/

namespace Recency

variable {κ ν : Type*}

/-- A call, and whether it was a `get` that hit. -/
abbrev Event (κ ν : Type*) := Op κ ν × Bool

/-- The key an event touches: that of a `put`, or of a `get` that hit. -/
def touched? : Event κ ν → Option κ
  | (.put k _, _) => some k
  | (.get k, true) => some k
  | _ => none

/-- A history with neither `remove` nor `clear`. -/
def NoErase (h : List (Event κ ν)) : Prop :=
  ∀ e ∈ h, e.1 ≠ .clear ∧ ∀ k, e.1 ≠ .remove k

/-- A history without removals began without them. -/
theorem NoErase.of_snoc {e : Event κ ν} {h : List (Event κ ν)} (hn : NoErase (h ++ [e])) :
    NoErase h := by
  intro e' he'
  exact hn e' (List.mem_append_left _ he')

variable [DecidableEq κ]

/-- Does the call decide what is stored under `k`? -/
def writes (k : κ) : Op κ ν → Bool
  | .put k' _ => k' = k
  | .remove k' => k' = k
  | .clear => true
  | .get _ => false

/-- The latest `put` of `k`, `remove` of `k` or `clear` in the history. -/
def lastWrite (k : κ) (h : List (Event κ ν)) : Option (Op κ ν) :=
  (h.reverse.map Prod.fst).find? (writes k)

/-- The keys touched since the last touch of `k` (in the whole history if there is none). -/
def touchedSince (k : κ) (h : List (Event κ ν)) : Finset κ :=
  ((h.reverse.takeWhile fun e => touched? e ≠ some k).filterMap touched?).toFinset

/-! ## Appending an event -/

section Snoc

variable {k k' : κ} {e : Event κ ν} {h : List (Event κ ν)}

/-- The last event decides, if it writes the key. -/
theorem lastWrite_snoc :
    lastWrite k (h ++ [e]) = if writes k e.1 then some e.1 else lastWrite k h := by
  simp only [lastWrite, List.reverse_append, List.reverse_singleton, List.singleton_append,
    List.map_cons, List.find?_cons]
  cases writes k e.1 <;> rfl

/-- A touch of the key begins anew. -/
theorem touchedSince_snoc_self (he : touched? e = some k) : touchedSince k (h ++ [e]) = ∅ := by
  simp [touchedSince, he]

/-- A touch of another key adds this key. -/
theorem touchedSince_snoc_ne (he : touched? e = some k') (hne : k' ≠ k) :
    touchedSince k (h ++ [e]) = insert k' (touchedSince k h) := by
  simp [touchedSince, he, hne]

/-- What touches no key adds none. -/
theorem touchedSince_snoc_none (he : touched? e = none) :
    touchedSince k (h ++ [e]) = touchedSince k h := by
  simp [touchedSince, he]

end Snoc

/-! ## Histories that are given turn by turn -/

section Range

variable {e : ℕ → Event κ ν} {k : κ} {a n : ℕ}

omit [DecidableEq κ] in
/-- One turn more. -/
theorem map_range_succ (e : ℕ → Event κ ν) (n : ℕ) :
    (List.range (n + 1)).map e = (List.range n).map e ++ [e n] := by
  rw [List.range_succ, List.map_append, List.map_singleton]

/-- A key that no turn writes has no last write. -/
theorem lastWrite_range_none (hno : ∀ i < n, writes k (e i).1 = false) :
    lastWrite k ((List.range n).map e) = none := by
  induction n with
  | zero => rfl
  | succ n ih =>
    rw [map_range_succ, lastWrite_snoc, hno n (Nat.lt_succ_self n), if_neg Bool.false_ne_true]
    exact ih fun i hi => hno i (Nat.lt_succ_of_lt hi)

/-- The latest write is that of turn `a`. -/
theorem lastWrite_range (ha : a < n) (hwrites : writes k (e a).1 = true)
    (hno : ∀ i, a < i → i < n → writes k (e i).1 = false) :
    lastWrite k ((List.range n).map e) = some (e a).1 := by
  induction n with
  | zero => omega
  | succ n ih =>
    rw [map_range_succ, lastWrite_snoc]
    by_cases han : a = n
    · rw [← han, if_pos hwrites]
    · rw [hno n (by omega) (Nat.lt_succ_self n), if_neg Bool.false_ne_true]
      exact ih (by omega) fun i hai hi => hno i hai (Nat.lt_succ_of_lt hi)

/-- The latest touch of `k` is that of turn `a`. -/
theorem mem_touchedSince_range (ha : a < n) (htouch : touched? (e a) = some k)
    (hno : ∀ i, a < i → i < n → touched? (e i) ≠ some k) {x : κ} :
    x ∈ touchedSince k ((List.range n).map e) ↔ ∃ i, a < i ∧ i < n ∧ touched? (e i) = some x := by
  induction n with
  | zero => omega
  | succ n ih =>
    rw [map_range_succ]
    by_cases han : a = n
    · rw [touchedSince_snoc_self (han ▸ htouch)]
      constructor
      · intro hx
        exact absurd hx (Finset.notMem_empty x)
      · rintro ⟨i, hai, hi, _⟩
        omega
    · have ih := ih (by omega) fun i hai hi => hno i hai (Nat.lt_succ_of_lt hi)
      cases hlast : touched? (e n) with
      | none =>
        rw [touchedSince_snoc_none hlast, ih]
        constructor
        · rintro ⟨i, hai, hi, hx⟩
          exact ⟨i, hai, Nat.lt_succ_of_lt hi, hx⟩
        · rintro ⟨i, hai, hi, hx⟩
          rcases Nat.lt_succ_iff_lt_or_eq.mp hi with hi | rfl
          · exact ⟨i, hai, hi, hx⟩
          · rw [hlast] at hx
            cases hx
      | some k' =>
        have hne : k' ≠ k := by
          rintro rfl
          exact hno n (by omega) (Nat.lt_succ_self n) hlast
        rw [touchedSince_snoc_ne hlast hne, Finset.mem_insert, ih]
        constructor
        · rintro (rfl | ⟨i, hai, hi, hx⟩)
          · exact ⟨n, by omega, Nat.lt_succ_self n, hlast⟩
          · exact ⟨i, hai, Nat.lt_succ_of_lt hi, hx⟩
        · rintro ⟨i, hai, hi, hx⟩
          rcases Nat.lt_succ_iff_lt_or_eq.mp hi with hi | rfl
          · exact Or.inr ⟨i, hai, hi, hx⟩
          · rw [hlast] at hx
            exact Or.inl (Option.some.inj hx).symm

end Range

/-! ## The keys in front of a key -/

/-- The keys more recent than `k`. -/
def above (k : κ) (l : List (κ × ν)) : List κ := keys (l.takeWhile fun p => p.1 ≠ k)

section Above

variable {k k' k₀ : κ} {v : ν} {l : List (κ × ν)}

/-- There is nothing in front of the first key. -/
theorem above_cons_self : above k ((k, v) :: l) = [] := by
  simp [above, keys]

/-- A pair in front of a key stands in front of it. -/
theorem above_cons_ne (h : k' ≠ k) : above k ((k', v) :: l) = k' :: above k l := by
  simp [above, keys, h]

/-- Pairs behind a key do not matter, -/
theorem above_append (a b : List (κ × ν)) (h : k ∈ keys a) : above k (a ++ b) = above k a := by
  induction a with
  | nil => simp [keys] at h
  | cons p a ih =>
    by_cases hp : p.1 = k
    · rw [← hp]
      simp [above, keys]
    · have ha : k ∈ keys a := by
        rw [keys, List.map_cons, List.mem_cons] at h
        exact h.resolve_left (Ne.symm hp)
      rw [List.cons_append, above_cons_ne hp, above_cons_ne hp, ih ha]

/-- nor does it when they are taken away. -/
theorem above_room {cap : ℕ} (h : k ∈ keys (room cap l)) :
    above k (room cap l) = above k l := by
  unfold room at h ⊢
  split at h
  · rename_i hcap
    rw [if_pos hcap]
    rcases List.eq_nil_or_concat l with rfl | ⟨a, p, rfl⟩
    · rfl
    · rw [List.concat_eq_append, List.dropLast_concat] at h ⊢
      exact (above_append a [p] h).symm
  · rename_i hcap
    rw [if_neg hcap]

/-- An erased key is in front of no other one. -/
theorem mem_above_erase (hne : k₀ ≠ k) :
    k' ∈ above k (erase k₀ l) ↔ k' ∈ above k l ∧ k' ≠ k₀ := by
  induction l with
  | nil => simp [above, erase, keys]
  | cons p l ih =>
    by_cases hp₀ : p.1 = k₀
    · -- the erased pair
      have herase : erase k₀ (p :: l) = erase k₀ l := by simp [erase, hp₀]
      have hpk : p.1 ≠ k := by rw [hp₀]; exact hne
      rw [herase, ih, above_cons_ne hpk, List.mem_cons]
      constructor
      · rintro ⟨h1, h2⟩
        exact ⟨Or.inr h1, h2⟩
      · rintro ⟨h1 | h1, h2⟩
        · exact absurd (h1.trans hp₀) h2
        · exact ⟨h1, h2⟩
    · have herase : erase k₀ (p :: l) = p :: erase k₀ l := by simp [erase, hp₀]
      rw [herase]
      by_cases hpk : p.1 = k
      · rw [← hpk]
        simp [above, keys]
      · rw [above_cons_ne hpk, above_cons_ne hpk, List.mem_cons, List.mem_cons, ih]
        constructor
        · rintro (rfl | ⟨h1, h2⟩)
          · exact ⟨Or.inl rfl, hp₀⟩
          · exact ⟨Or.inr h1, h2⟩
        · rintro ⟨h1 | h1, h2⟩
          · exact Or.inl h1
          · exact Or.inr ⟨h1, h2⟩

/-- Only stored keys stand in front. -/
theorem above_subset : above k l ⊆ keys l :=
  ((List.takeWhile_prefix _).sublist.map Prod.fst).subset

/-- No key stands in front of itself. -/
theorem self_notMem_above : k ∉ above k l := by
  intro h
  rcases List.mem_map.mp h with ⟨p, hp, hpk⟩
  have := List.mem_takeWhile_imp hp
  simp [hpk] at this

/-- At most `cap - 1` keys are in front of a stored one. -/
theorem above_card_lt (s : Store κ ν) (h : k ∈ keys s.items) :
    (above k s.items).toFinset.card < s.cap := by
  have hsub : insert k (above k s.items).toFinset ⊆ (keys s.items).toFinset := by
    intro x hx
    rw [Finset.mem_insert, List.mem_toFinset] at hx
    rw [List.mem_toFinset]
    rcases hx with rfl | hx
    · exact h
    · exact above_subset hx
  have hcard := Finset.card_le_card hsub
  have hins : (insert k (above k s.items).toFinset).card = (above k s.items).toFinset.card + 1 := by
    apply Finset.card_insert_of_notMem
    rw [List.mem_toFinset]
    exact self_notMem_above
  have hkeys : (keys s.items).toFinset.card ≤ (keys s.items).length := List.toFinset_card_le _
  have hlen : (keys s.items).length = s.items.length := List.length_map _
  have hle := s.length_le
  omega

end Above

/-! ## The invariant -/

/-- What the history `h` says about the list that it led to. -/
structure Remembers (h : List (Event κ ν)) (s : Store κ ν) : Prop where
  stored : ∀ k v, (k, v) ∈ s.items → lastWrite k h = some (.put k v)
  fresh : ∀ k ∈ keys s.items, ∀ k' ∈ above k s.items, k' ∈ touchedSince k h
  evicted : ∀ k v, lastWrite k h = some (.put k v) → k ∉ keys s.items →
    s.cap ≤ (touchedSince k h).card
  above : NoErase h → ∀ k ∈ keys s.items, ∀ k' ∈ touchedSince k h, k' ∈ above k s.items

section Step

variable {h : List (Event κ ν)} {s s' : Store κ ν} {k₀ : κ} {v₀ : ν} {e : Event κ ν}

/-- Nothing has happened, and nothing is stored. -/
theorem Remembers.init (cap : ℕ) (hpos : 0 < cap) :
    Remembers [] (Store.empty cap hpos : Store κ ν) := by
  refine ⟨?_, ?_, ?_, ?_⟩
  · intro k v hmem
    simp at hmem
  · intro k hk
    simp [keys] at hk
  · intro k v hlast
    simp [lastWrite] at hlast
  · intro _ k hk
    simp [keys] at hk

/-- An event that touches `k₀` and brings the pair `(k₀, v₀)` to the front of what is kept of
the list. `hgone` is about a key that the event evicts. -/
theorem Remembers.front (hR : Remembers h s) (hcap : s'.cap = s.cap) {rest : List (κ × ν)}
    (hitems : s'.items = (k₀, v₀) :: rest) (hsub : rest.Sublist s.items)
    (hk₀ : k₀ ∉ keys rest)
    (habove : ∀ k ∈ keys rest, ∀ k', k' ∈ Recency.above k rest ↔
      k' ∈ Recency.above k s.items ∧ k' ≠ k₀)
    (hgone : ∀ k ∈ keys s.items, k ≠ k₀ → k ∉ keys rest →
      s.cap ≤ (insert k₀ (touchedSince k h)).card)
    (he : touched? e = some k₀) (hlast : lastWrite k₀ (h ++ [e]) = some (.put k₀ v₀))
    (hother : ∀ k, k ≠ k₀ → lastWrite k (h ++ [e]) = lastWrite k h) :
    Remembers (h ++ [e]) s' := by
  have hmem_ne : ∀ k ∈ keys rest, k₀ ≠ k := fun k hk heq => hk₀ (heq ▸ hk)
  have hkeys : ∀ k, k ∈ keys s'.items ↔ k = k₀ ∨ k ∈ keys rest := by
    intro k
    rw [hitems, keys, List.map_cons, List.mem_cons]
    rfl
  -- `k₀` is touched last and stands first; for every other key `k₀` is one more key touched since
  refine ⟨?_, ?_, ?_, ?_⟩
  · intro k v hmem
    rw [hitems, List.mem_cons] at hmem
    rcases hmem with heq | hmem
    · cases heq
      exact hlast
    · have hne := hmem_ne k (List.mem_map_of_mem (f := Prod.fst) hmem)
      rw [hother k hne.symm]
      exact hR.stored k v (hsub.subset hmem)
  · intro k hk k' hk'
    rw [hitems] at hk'
    rcases (hkeys k).mp hk with rfl | hk
    · rw [above_cons_self] at hk'
      simp at hk'
    · have hne := hmem_ne k hk
      rw [touchedSince_snoc_ne he hne, Finset.mem_insert]
      rw [above_cons_ne hne, List.mem_cons] at hk'
      rcases hk' with heq | hk'
      · exact Or.inl heq
      · right
        exact hR.fresh k ((hsub.map Prod.fst).subset hk) k' ((habove k hk k').mp hk').1
  · intro k v hput hk
    rw [hkeys, not_or] at hk
    rw [hother k hk.1] at hput
    rw [hcap, touchedSince_snoc_ne he (Ne.symm hk.1)]
    by_cases hold : k ∈ keys s.items
    · exact hgone k hold hk.1 hk.2
    · exact (hR.evicted k v hput hold).trans (Finset.card_le_card (Finset.subset_insert _ _))
  · intro hno k hk k' hk'
    rw [hitems]
    rcases (hkeys k).mp hk with rfl | hk
    · rw [touchedSince_snoc_self he] at hk'
      simp at hk'
    · have hne := hmem_ne k hk
      rw [touchedSince_snoc_ne he hne, Finset.mem_insert] at hk'
      rw [above_cons_ne hne, List.mem_cons]
      by_cases hk₀' : k' = k₀
      · exact Or.inl hk₀'
      · right
        have hold := hk'.resolve_left hk₀'
        exact (habove k hk k').mpr
          ⟨hR.above hno.of_snoc k ((hsub.map Prod.fst).subset hk) k' hold, hk₀'⟩

/-- An event that moves a present key to the front. -/
theorem Remembers.refresh (hR : Remembers h s) (hcap : s'.cap = s.cap)
    (hitems : s'.items = (k₀, v₀) :: erase k₀ s.items) (he : touched? e = some k₀)
    (hlast : lastWrite k₀ (h ++ [e]) = some (.put k₀ v₀))
    (hother : ∀ k, k ≠ k₀ → lastWrite k (h ++ [e]) = lastWrite k h) :
    Remembers (h ++ [e]) s' := by
  refine hR.front hcap hitems (erase_sublist k₀ s.items) ?_ ?_ ?_ he hlast hother
  · intro hmem
    exact (mem_keys_erase.mp hmem).2 rfl
  · intro k hk k'
    exact mem_above_erase (Ne.symm (mem_keys_erase.mp hk).2)
  · -- no other key leaves the list
    intro k hk hne hgone
    exact absurd (mem_keys_erase.mpr ⟨hk, hne⟩) hgone

/-- The key that making room drops had every other stored key touched since its last touch. -/
theorem Remembers.dropped (hR : Remembers h s) (hk₀ : k₀ ∉ keys s.items) {k : κ}
    (hk : k ∈ keys s.items) (hgone : k ∉ keys (room s.cap s.items)) :
    s.cap ≤ (insert k₀ (touchedSince k h)).card := by
  by_cases hfull : s.items.length = s.cap
  · have hroom : room s.cap s.items = s.items.dropLast := if_pos hfull
    rw [hroom] at hgone
    rcases List.eq_nil_or_concat s.items with hnil | ⟨a, p, hconcat⟩
    · rw [hnil] at hk
      simp [keys] at hk
    rw [List.concat_eq_append] at hconcat
    have hnd := s.nodup
    rw [hconcat] at hk hgone hk₀ hnd
    rw [List.dropLast_concat] at hgone
    -- `k` is the last key, so all others are above it
    have hpk : k = p.1 := by
      simp only [keys, List.map_append, List.mem_append] at hk
      simpa using hk.resolve_left hgone
    have habove : ∀ k' ∈ keys a, k' ∈ touchedSince k h := by
      intro k' hk'
      apply hR.fresh k (by rw [hconcat]; exact hk)
      have hstop : Recency.above k (a ++ [p]) = keys a := by
        have hall : ∀ q ∈ a, decide (q.1 ≠ k) = true := by
          intro q hq
          have hne : q.1 ≠ k := fun heq => hgone (heq ▸ List.mem_map_of_mem hq)
          simpa using hne
        rw [Recency.above, List.takeWhile_append_of_pos hall]
        simp [hpk]
      rw [hconcat, hstop]
      exact hk'
    have hsub : insert k₀ (keys a).toFinset ⊆ insert k₀ (touchedSince k h) := by
      apply Finset.insert_subset_insert
      intro x hx
      exact habove x (List.mem_toFinset.mp hx)
    have hk₀a : k₀ ∉ (keys a).toFinset := by
      rw [List.mem_toFinset]
      intro hmem
      exact hk₀ (by simp only [keys, List.map_append, List.mem_append]; exact Or.inl hmem)
    have ha_nd : (keys a).Nodup := keys_nodup_sublist (List.sublist_append_left a [p]) hnd
    have hcard := Finset.card_le_card hsub
    rw [Finset.card_insert_of_notMem hk₀a, List.toFinset_card_of_nodup ha_nd] at hcard
    have hlen : (keys a).length = a.length := List.length_map _
    rw [hconcat, List.length_append, List.length_singleton] at hfull
    omega
  · have hroom : room s.cap s.items = s.items := if_neg hfull
    rw [hroom] at hgone
    exact absurd hk hgone

/-- An event that puts a new key in front. -/
theorem Remembers.insert (hR : Remembers h s) (hcap : s'.cap = s.cap)
    (hitems : s'.items = (k₀, v₀) :: room s.cap s.items) (hk₀ : k₀ ∉ keys s.items)
    (he : touched? e = some k₀) (hlast : lastWrite k₀ (h ++ [e]) = some (.put k₀ v₀))
    (hother : ∀ k, k ≠ k₀ → lastWrite k (h ++ [e]) = lastWrite k h) :
    Remembers (h ++ [e]) s' := by
  have hsub := room_sublist s.cap s.items
  have hrest : ∀ k ∈ keys (room s.cap s.items), k ∈ keys s.items :=
    fun k hk => (hsub.map Prod.fst).subset hk
  refine hR.front hcap hitems hsub (fun hmem => hk₀ (hrest k₀ hmem)) ?_ ?_ he hlast hother
  · intro k hk k'
    rw [above_room hk]
    constructor
    · intro hk'
      exact ⟨hk', fun heq => hk₀ (heq ▸ above_subset hk')⟩
    · exact And.left
  · intro k hk _ hgone
    exact hR.dropped hk₀ hk hgone

/-- A lookup that misses changes nothing. -/
theorem Remembers.miss (hR : Remembers h s) (k₀ : κ) : Remembers (h ++ [(.get k₀, false)]) s := by
  have hlast : ∀ k, lastWrite k (h ++ [(Op.get k₀, false)]) = lastWrite k h := by
    intro k
    rw [lastWrite_snoc]
    rfl
  have htouch : ∀ k, touchedSince k (h ++ [(Op.get k₀, false)]) = touchedSince k h :=
    fun k => touchedSince_snoc_none rfl
  refine ⟨?_, ?_, ?_, ?_⟩
  · intro k v hmem
    rw [hlast]
    exact hR.stored k v hmem
  · intro k hk k' hk'
    rw [htouch]
    exact hR.fresh k hk k' hk'
  · intro k v hput hk
    rw [htouch]
    rw [hlast] at hput
    exact hR.evicted k v hput hk
  · intro hno k hk k' hk'
    rw [htouch] at hk'
    exact hR.above hno.of_snoc k hk k' hk'

/-- A removal is the last write of its key. -/
theorem Remembers.remove (hR : Remembers h s) (k₀ : κ) (b : Bool) :
    Remembers (h ++ [(.remove k₀, b)]) (s.remove k₀) := by
  have hlast : ∀ k, k ≠ k₀ → lastWrite k (h ++ [(Op.remove k₀, b)]) = lastWrite k h := by
    intro k hk
    rw [lastWrite_snoc]
    simp [writes, Ne.symm hk]
  have hlast₀ : lastWrite k₀ (h ++ [(Op.remove k₀, b)]) = some (.remove k₀) := by
    rw [lastWrite_snoc]
    simp [writes]
  have htouch : ∀ k, touchedSince k (h ++ [(Op.remove k₀, b)]) = touchedSince k h :=
    fun k => touchedSince_snoc_none rfl
  refine ⟨?_, ?_, ?_, ?_⟩
  · intro k v hmem
    have hk : k ≠ k₀ := (mem_keys_erase.mp (List.mem_map_of_mem (f := Prod.fst) hmem)).2
    rw [hlast k hk]
    exact hR.stored k v ((erase_sublist k₀ s.items).subset hmem)
  · intro k hk k' hk'
    rw [Store.items_remove] at hk hk'
    have hk := mem_keys_erase.mp hk
    rw [htouch]
    exact hR.fresh k hk.1 k' ((mem_above_erase (Ne.symm hk.2)).mp hk').1
  · intro k v hput hk
    by_cases hkk : k = k₀
    · rw [hkk, hlast₀] at hput
      cases hput
    · rw [hlast k hkk] at hput
      rw [htouch]
      exact hR.evicted k v hput fun hmem => hk (mem_keys_erase.mpr ⟨hmem, hkk⟩)
  -- a history without removals does not end with one
  · intro hno
    exact absurd rfl ((hno (Op.remove k₀, b) (by simp)).2 k₀)

/-- Clearing is the last write of every key. -/
theorem Remembers.clear (s : Store κ ν) (h : List (Event κ ν)) (b : Bool) :
    Remembers (h ++ [(.clear, b)]) s.clear := by
  refine ⟨?_, ?_, ?_, ?_⟩
  · intro k v hmem
    simp at hmem
  · intro k hk
    simp [keys] at hk
  · intro k v hput
    rw [lastWrite_snoc] at hput
    simp [writes] at hput
  · intro _ k hk
    simp [keys] at hk

end Step

/-- Every call extends the history consistently. -/
theorem Remembers.step {h : List (Event κ ν)} {s : State κ ν} (hR : Remembers h s.store)
    (op : Op κ ν) :
    Remembers (h ++ [(op, (State.step op s).1.hit)]) (State.step op s).2.store := by
  cases op with
  | put k v =>
    have hlast : lastWrite k (h ++ [(Op.put k v, false)]) = some (.put k v) := by
      rw [lastWrite_snoc]
      simp [writes]
    have hother : ∀ k', k' ≠ k → lastWrite k' (h ++ [(Op.put k v, false)]) = lastWrite k' h := by
      intro k' hne
      rw [lastWrite_snoc]
      simp [writes, Ne.symm hne]
    by_cases hk : k ∈ keys s.store.items
    · exact hR.refresh Store.cap_put (Store.items_put_of_mem hk) rfl hlast hother
    · exact hR.insert Store.cap_put (Store.items_put_of_notMem hk) hk rfl hlast hother
  | get k =>
    cases hv : s.store.items.lookup k with
    | some v =>
      simp only [State.step, State.get_of_some hv]
      -- a `get` writes nothing, so the value brought to the front is that of the latest `put`
      have hlast : lastWrite k (h ++ [(Op.get k, true)]) = some (.put k v) := by
        rw [lastWrite_snoc]
        exact hR.stored k v (mem_of_lookup hv)
      have hother : ∀ k', k' ≠ k →
          lastWrite k' (h ++ [(Op.get k, true)]) = lastWrite k' h := by
        intro k' _
        rw [lastWrite_snoc]
        rfl
      exact hR.refresh Store.cap_touch (Store.items_touch_of_some hv) rfl hlast hother
    | none =>
      simp only [State.step, State.get_of_none hv]
      exact hR.miss k
  | remove k => exact hR.remove k _
  | clear => exact Remembers.clear s.store h _

/-! ## Runs -/

/-- The history of a run of the reference machine. -/
def history (ops : List (Op κ ν)) (s : State κ ν) : List (Event κ ν) :=
  (ops.zip (Transition.runTotal State.step ops s).1).map fun e => (e.1, e.2.hit)

/-- By induction over the calls: the store remembers the whole history. -/
theorem Remembers.run {cap : ℕ} (hpos : 0 < cap) (ops : List (Op κ ν)) :
    Remembers (history ops (State.init cap hpos))
      (Transition.runTotal State.step ops (State.init cap hpos)).2.store := by
  have hstep : ∀ (h : List (Op κ ν × Answer ν)) (op : Op κ ν) (s : State κ ν),
      Remembers (h.map fun e => (e.1, e.2.hit)) s.store →
      Remembers ((h ++ [(op, (State.step op s).1)]).map fun e => (e.1, e.2.hit))
        (State.step op s).2.store := by
    intro h op s hR
    rw [List.map_append]
    exact hR.step op
  have hrun := Transition.runTotal_history hstep ops (h := []) (t := State.init cap hpos)
    (Remembers.init cap hpos)
  simpa [history] using hrun

/-- A lookup that hits returns the value of the latest write, which is a `put`. -/
theorem Remembers.lookup_some {h : List (Event κ ν)} {s : Store κ ν} (hR : Remembers h s)
    {k : κ} {v : ν} (hv : s.items.lookup k = some v) : lastWrite k h = some (.put k v) :=
  hR.stored k v (mem_of_lookup hv)

/-- A written key is found while fewer than `cap` other keys were touched since. -/
theorem Remembers.lookup_fresh {h : List (Event κ ν)} {s : Store κ ν} (hR : Remembers h s)
    {k : κ} {v : ν} (hput : lastWrite k h = some (.put k v))
    (hfew : (touchedSince k h).card < s.cap) : s.items.lookup k = some v := by
  have hk : k ∈ keys s.items := by
    by_contra hgone
    have hmany := hR.evicted k v hput hgone
    omega
  rcases List.mem_map.mp hk with ⟨⟨k', v'⟩, hmem, rfl⟩
  have hput' := hR.stored k' v' hmem
  rw [hput] at hput'
  cases hput'
  exact lookup_of_mem s.nodup hmem

/-- Without removals a key is gone once `cap` other keys were touched since. -/
theorem Remembers.lookup_evicted {h : List (Event κ ν)} {s : Store κ ν} (hR : Remembers h s)
    {k : κ} (hno : NoErase h) (hmany : s.cap ≤ (touchedSince k h).card) :
    s.items.lookup k = none := by
  rw [lookup_eq_none]
  -- otherwise all the keys touched since would be in front of it, more than there is room for
  intro hk
  have hsub : touchedSince k h ⊆ (Recency.above k s.items).toFinset := by
    intro k' hk'
    rw [List.mem_toFinset]
    exact hR.above hno k hk k' hk'
  have hcard := Finset.card_le_card hsub
  have hlt := above_card_lt s hk
  omega

end Recency
