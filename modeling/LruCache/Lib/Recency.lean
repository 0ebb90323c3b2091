import Mathlib.Data.List.Basic
import Mathlib.Data.List.Nodup

/-!
# Recency lists

What a cache with least-recently-used eviction is for, with no table and no links: a list of
pairs with distinct keys, most recent first and no longer than the capacity. `Store` carries
these three facts as fields, so each operation shows once that it keeps them; `State` adds the
hit, miss and eviction counts.

Main results:

* `Store.refresh`, `Store.insert` — the two ways to put a pair keep the keys distinct and the
  capacity.
* `Store.items_put`, `Store.lookup_put_self` — what has been put is in front, and found.
* `State.step` — the reference machine, which answers calls and counts hits, misses and evictions.

Deliberate scope limits:

* The counters are natural numbers and never wrap around; the cache counts modulo 2^64, and the
  simulation says so (`LruCache.Cache.Refinement`).
* A capacity is positive. A cache of capacity 0 could keep nothing that is put.
-/

namespace Recency

variable {κ ν : Type*}

/-! ## Pair lists -/

/-- The keys of the list, most recent first. -/
def keys (l : List (κ × ν)) : List κ := l.map Prod.fst

/-- The list with its last pair dropped if it is full. -/
def room (cap : ℕ) (l : List (κ × ν)) : List (κ × ν) := if l.length = cap then l.dropLast else l

/-- Distinct keys stay distinct if pairs are left out. -/
theorem keys_nodup_sublist {l l' : List (κ × ν)} (h : l'.Sublist l) (hnd : (keys l).Nodup) :
    (keys l').Nodup :=
  hnd.sublist (h.map Prod.fst)

/-- Making room leaves pairs out, and adds none. -/
theorem room_sublist (cap : ℕ) (l : List (κ × ν)) : (room cap l).Sublist l := by
  unfold room
  split
  · exact List.dropLast_sublist l
  · exact List.Sublist.refl l

/-- The list without the pair of `k`. -/
def erase [DecidableEq κ] (k : κ) (l : List (κ × ν)) : List (κ × ν) :=
  l.filter fun p => p.1 ≠ k

section Lists

variable [DecidableEq κ] {k k' : κ} {v : ν} {l : List (κ × ν)}

/-- So does erasing. -/
theorem erase_sublist (k : κ) (l : List (κ × ν)) : (erase k l).Sublist l :=
  List.filter_sublist

/-- The keys that remain, in their order. -/
theorem keys_erase (k : κ) (l : List (κ × ν)) : keys (erase k l) = (keys l).filter (· ≠ k) := by
  rw [keys, keys, erase, List.filter_map]
  rfl

/-- Only the erased key is gone. -/
theorem mem_keys_erase : k' ∈ keys (erase k l) ↔ k' ∈ keys l ∧ k' ≠ k := by
  simp only [keys, erase, List.mem_map, List.mem_filter, decide_eq_true_eq]
  constructor
  · rintro ⟨p, ⟨hp, hne⟩, rfl⟩
    exact ⟨⟨p, hp, rfl⟩, hne⟩
  · rintro ⟨⟨p, hp, rfl⟩, hne⟩
    exact ⟨p, ⟨hp, hne⟩, rfl⟩

/-- There is nothing to erase. -/
theorem erase_of_notMem (h : k ∉ keys l) : erase k l = l := by
  apply List.filter_eq_self.mpr
  intro p hp
  have hne : p.1 ≠ k := fun heq => h (heq ▸ List.mem_map_of_mem hp)
  simpa using hne

/-- Erasing a key takes out the one pair that has it. -/
theorem erase_split {a b : List (κ × ν)} (hnd : (keys (a ++ (k, v) :: b)).Nodup) :
    erase k (a ++ (k, v) :: b) = a ++ b := by
  have hperm : (keys (a ++ (k, v) :: b)).Perm (k :: keys (a ++ b)) := by
    simp [keys, List.perm_middle]
  have hk := (List.nodup_cons.mp (hperm.nodup_iff.mp hnd)).1
  have herase : erase k (a ++ (k, v) :: b) = erase k (a ++ b) := by
    simp [erase]
  rw [herase, erase_of_notMem hk]

/-- One pair is gone, since the keys are distinct. -/
theorem length_erase (h : k ∈ keys l) (hnd : (keys l).Nodup) :
    (erase k l).length + 1 = l.length := by
  rcases List.mem_map.mp h with ⟨p, hp, rfl⟩
  rcases List.append_of_mem hp with ⟨a, b, rfl⟩
  rw [erase_split hnd]
  simp
  omega

/-- Something is found under the keys that are stored. -/
theorem lookup_isSome : (l.lookup k).isSome ↔ k ∈ keys l := by
  induction l with
  | nil => simp [keys]
  | cons p l ih =>
    rw [List.lookup_cons]
    by_cases hk : k = p.1
    · simp [hk, keys]
    · rw [beq_eq_false_iff_ne.mpr hk]
      simp only [ih]
      simp [keys, hk]

/-- And nothing under the others. -/
theorem lookup_eq_none : l.lookup k = none ↔ k ∉ keys l := by
  rw [← lookup_isSome]
  cases l.lookup k <;> simp

/-- What is found is stored. -/
theorem mem_of_lookup (h : l.lookup k = some v) : (k, v) ∈ l := by
  induction l with
  | nil => simp at h
  | cons p l ih =>
    rw [List.lookup_cons] at h
    by_cases hk : k = p.1
    · rw [beq_iff_eq.mpr hk] at h
      have hp : p = (k, v) := by
        simp only [Option.some.injEq] at h
        exact Prod.ext hk.symm h
      rw [hp]
      exact List.mem_cons_self
    · rw [beq_eq_false_iff_ne.mpr hk] at h
      exact List.mem_cons_of_mem p (ih h)

/-- What is stored is found, since the keys are distinct. -/
theorem lookup_of_mem (hnd : (keys l).Nodup) (h : (k, v) ∈ l) : l.lookup k = some v := by
  induction l with
  | nil => simp at h
  | cons p l ih =>
    rw [keys, List.map_cons, List.nodup_cons] at hnd
    rw [List.lookup_cons]
    rcases List.mem_cons.mp h with rfl | hmem
    · simp
    · have hne : k ≠ p.1 := by
        intro heq
        exact hnd.1 (heq ▸ List.mem_map_of_mem (f := Prod.fst) hmem)
      rw [beq_eq_false_iff_ne.mpr hne]
      exact ih hnd.2 hmem

/-- Erasing a key hides no other one. -/
theorem lookup_erase_of_ne (hne : k' ≠ k) : (erase k l).lookup k' = l.lookup k' := by
  induction l with
  | nil => rfl
  | cons p l ih =>
    by_cases hp : p.1 = k
    · -- the pair goes, and it was not one of `k'`
      have hskip : erase k (p :: l) = erase k l := by simp [erase, hp]
      rw [hskip, ih, List.lookup_cons, beq_eq_false_iff_ne.mpr (hp ▸ hne)]
    · have hkeep : erase k (p :: l) = p :: erase k l := by simp [erase, hp]
      rw [hkeep, List.lookup_cons, List.lookup_cons, ih]

end Lists

/-! ## Stores -/

/-- The pairs of a cache of capacity `cap`, most recent first. -/
@[ext] structure Store (κ ν : Type*) where
  cap : ℕ
  cap_pos : 0 < cap
  items : List (κ × ν)
  nodup : (keys items).Nodup
  length_le : items.length ≤ cap

namespace Store

section Items

variable {s : Store κ ν} {k : κ} {v : ν}

/-- The empty store. -/
def empty (cap : ℕ) (h : 0 < cap) : Store κ ν where
  cap := cap
  cap_pos := h
  items := []
  nodup := by simp [keys]
  length_le := by simp

/-- Everything is forgotten but the capacity. -/
def clear (s : Store κ ν) : Store κ ν := empty s.cap s.cap_pos

@[simp] theorem items_empty (cap : ℕ) (h : 0 < cap) : (empty cap h : Store κ ν).items = [] := rfl

@[simp] theorem items_clear : s.clear.items = [] := rfl

@[simp] theorem cap_clear : s.clear.cap = s.cap := rfl

variable [DecidableEq κ]

/-- The pair of a present key moved to the front, with the value `v`. -/
def refresh (s : Store κ ν) (k : κ) (v : ν) (hk : k ∈ keys s.items) : Store κ ν where
  cap := s.cap
  cap_pos := s.cap_pos
  items := (k, v) :: erase k s.items
  nodup := by
    rw [keys, List.map_cons, List.nodup_cons]
    refine ⟨fun hmem => ?_, keys_nodup_sublist (erase_sublist k s.items) s.nodup⟩
    exact (mem_keys_erase.mp hmem).2 rfl
  length_le := by
    rw [List.length_cons, length_erase hk s.nodup]
    exact s.length_le

/-- A new pair in front; the last pair is dropped iff the store is full. -/
def insert (s : Store κ ν) (k : κ) (v : ν) (hk : k ∉ keys s.items) : Store κ ν where
  cap := s.cap
  cap_pos := s.cap_pos
  items := (k, v) :: room s.cap s.items
  nodup := by
    rw [keys, List.map_cons, List.nodup_cons]
    refine ⟨fun hmem => hk ?_, keys_nodup_sublist (room_sublist s.cap s.items) s.nodup⟩
    exact ((room_sublist s.cap s.items).map Prod.fst).subset hmem
  length_le := by
    have hpos := s.cap_pos
    have hle := s.length_le
    -- full: one pair out and one in; else there was room for one more
    unfold room
    split
    · simp only [List.length_cons, List.length_dropLast]
      omega
    · simp only [List.length_cons]
      omega

/-- An update if the key is stored, and else an insertion, for which there may have to be made
room. -/
def put (s : Store κ ν) (k : κ) (v : ν) : Store κ ν :=
  if hk : k ∈ keys s.items then s.refresh k v hk else s.insert k v hk

/-- Nothing happens if the key is not stored. -/
def remove (s : Store κ ν) (k : κ) : Store κ ν where
  cap := s.cap
  cap_pos := s.cap_pos
  items := erase k s.items
  nodup := keys_nodup_sublist (erase_sublist k s.items) s.nodup
  length_le := Nat.le_trans (erase_sublist k s.items).length_le s.length_le

/-- The store after a lookup of `k`: a present key moves to the front. -/
def touch (s : Store κ ν) (k : κ) : Store κ ν :=
  match h : s.items.lookup k with
  | some v => s.refresh k v (lookup_isSome.mp (by rw [h]; rfl))
  | none => s

/-- An update moves the pair to the front. -/
theorem items_put_of_mem (hk : k ∈ keys s.items) :
    (s.put k v).items = (k, v) :: erase k s.items := by
  rw [put, dif_pos hk]
  rfl

/-- An insertion makes room at the end first. -/
theorem items_put_of_notMem (hk : k ∉ keys s.items) :
    (s.put k v).items = (k, v) :: room s.cap s.items := by
  rw [put, dif_neg hk]
  rfl

/-- A `put` has its pair in front; the other pairs are old ones. -/
theorem items_put (s : Store κ ν) (k : κ) (v : ν) :
    ∃ l, (s.put k v).items = (k, v) :: l ∧ l.Sublist s.items := by
  by_cases hk : k ∈ keys s.items
  · exact ⟨_, items_put_of_mem hk, erase_sublist k s.items⟩
  · exact ⟨_, items_put_of_notMem hk, room_sublist s.cap s.items⟩

/-- What has been put is found. -/
theorem lookup_put_self (s : Store κ ν) (k : κ) (v : ν) :
    (s.put k v).items.lookup k = some v := by
  rcases items_put s k v with ⟨l, hitems, _⟩
  rw [hitems, List.lookup_cons_self]

/-- A put makes no other key appear. -/
theorem lookup_put_none {k' : κ} (hne : k' ≠ k) (h : s.items.lookup k' = none) :
    (s.put k v).items.lookup k' = none := by
  rcases items_put s k v with ⟨l, hitems, hsub⟩
  rw [lookup_eq_none] at h ⊢
  rw [hitems, keys, List.map_cons, List.mem_cons, not_or]
  exact ⟨hne, fun hmem => h ((hsub.map Prod.fst).subset hmem)⟩

@[simp] theorem cap_put : (s.put k v).cap = s.cap := by
  unfold put
  split <;> rfl

@[simp] theorem items_remove : (s.remove k).items = erase k s.items := rfl

@[simp] theorem cap_remove : (s.remove k).cap = s.cap := rfl

/-- Using a key moves its pair to the front, its value unchanged. -/
theorem items_touch_of_some (h : s.items.lookup k = some v) :
    (s.touch k).items = (k, v) :: erase k s.items := by
  unfold touch
  split
  · rename_i v' h'
    rw [h] at h'
    cases h'
    rfl
  · rename_i h'
    rw [h] at h'
    cases h'

@[simp] theorem cap_touch : (s.touch k).cap = s.cap := by
  unfold touch
  split <;> rfl

end Items

end Store

/-! ## The reference machine -/

/-- A call of the cache. -/
inductive Op (κ ν : Type*) where
  | put (k : κ) (v : ν)
  | get (k : κ)
  | remove (k : κ)
  | clear
deriving DecidableEq, Repr

/-- What a call returns. -/
inductive Answer (ν : Type*) where
  | done
  | got (v : Option ν)
  | removed (found : Bool)
deriving DecidableEq, Repr

/-- Did a `get` find its key? -/
def Answer.hit {ν : Type*} : Answer ν → Bool
  | .got (some _) => true
  | _ => false

/-- A store with its statistics. -/
structure State (κ ν : Type*) where
  store : Store κ ν
  hits : ℕ
  misses : ℕ
  evictions : ℕ

namespace State

/-- The state of a new cache. -/
def init (cap : ℕ) (h : 0 < cap) : State κ ν :=
  { store := Store.empty cap h, hits := 0, misses := 0, evictions := 0 }

/-- `clear` empties the store and resets the statistics. -/
def clear (s : State κ ν) : State κ ν :=
  { store := s.store.clear, hits := 0, misses := 0, evictions := 0 }

variable [DecidableEq κ]

/-- Does a `put` of `k` drop the last pair? -/
def evicts (s : State κ ν) (k : κ) : Prop :=
  k ∉ keys s.store.items ∧ s.store.items.length = s.store.cap

instance (s : State κ ν) (k : κ) : Decidable (s.evicts k) :=
  inferInstanceAs (Decidable (_ ∧ _))

/-- The pair is stored, and an eviction counts. -/
def put (s : State κ ν) (k : κ) (v : ν) : State κ ν :=
  { s with store := s.store.put k v, evictions := s.evictions + if s.evicts k then 1 else 0 }

/-- The value is looked up, and a hit or a miss counts. -/
def get (s : State κ ν) (k : κ) : Option ν × State κ ν :=
  match s.store.items.lookup k with
  | some v => (some v, { s with store := s.store.touch k, hits := s.hits + 1 })
  | none => (none, { s with misses := s.misses + 1 })

/-- The key is removed; nothing counts. -/
def remove (s : State κ ν) (k : κ) : Bool × State κ ν :=
  (decide (k ∈ keys s.store.items), { s with store := s.store.remove k })

/-- One call of the reference machine. -/
def step : Op κ ν → State κ ν → Answer ν × State κ ν
  | .put k v, s => (.done, s.put k v)
  | .get k, s => (.got (s.get k).1, (s.get k).2)
  | .remove k, s => (.removed (s.remove k).1, (s.remove k).2)
  | .clear, s => (.done, s.clear)

/-- A hit counts, and moves the pair to the front. -/
theorem get_of_some {s : State κ ν} {k : κ} {v : ν} (h : s.store.items.lookup k = some v) :
    s.get k = (some v, { s with store := s.store.touch k, hits := s.hits + 1 }) := by
  simp [get, h]

/-- A miss counts, and changes nothing else. -/
theorem get_of_none {s : State κ ν} {k : κ} (h : s.store.items.lookup k = none) :
    s.get k = (none, { s with misses := s.misses + 1 }) := by
  simp [get, h]

@[simp] theorem get_fst (s : State κ ν) (k : κ) : (s.get k).1 = s.store.items.lookup k := by
  cases h : s.store.items.lookup k with
  | none => rw [get_of_none h]
  | some v => rw [get_of_some h]

/-! Only a `put` brings in a pair. -/

/-- The pairs after a put: the new one, and some of those before. -/
theorem mem_put {s : State κ ν} {k : κ} {v : ν} {p : κ × ν} (h : p ∈ (s.put k v).store.items) :
    p = (k, v) ∨ p ∈ s.store.items := by
  rcases Store.items_put s.store k v with ⟨l, hitems, hsub⟩
  have h : p ∈ (s.store.put k v).items := h
  rw [hitems] at h
  exact (List.mem_cons.mp h).imp_right fun hmem => hsub.subset hmem

/-- A get brings in nothing. -/
theorem mem_get {s : State κ ν} {k : κ} {p : κ × ν} (h : p ∈ (s.get k).2.store.items) :
    p ∈ s.store.items := by
  cases hfound : s.store.items.lookup k with
  | none =>
    rw [get_of_none hfound] at h
    exact h
  | some v =>
    rw [get_of_some hfound, Store.items_touch_of_some hfound] at h
    rcases List.mem_cons.mp h with rfl | hmem
    · exact mem_of_lookup hfound
    · exact (erase_sublist k s.store.items).subset hmem

/-- Nor does a removal. -/
theorem mem_remove {s : State κ ν} {k : κ} {p : κ × ν} (h : p ∈ (s.remove k).2.store.items) :
    p ∈ s.store.items :=
  (erase_sublist k s.store.items).subset h

/-- No operation changes the capacity. -/
theorem cap_step (op : Op κ ν) (s : State κ ν) : (step op s).2.store.cap = s.store.cap := by
  cases op with
  | put k v => simp [step, put]
  | get k =>
    simp only [step, get]
    split <;> simp
  | remove k => rfl
  | clear => rfl

end State

end Recency
