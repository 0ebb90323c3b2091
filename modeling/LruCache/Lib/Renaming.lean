import LruCache.Lib.Recency
import Mathlib.Data.Set.Function

/-!
# Renaming keys and values

A store does not depend on what its keys and values are. If the names of the keys that occur are
pairwise different, the machine over the names does what the machine over the keys does, and
answers with the names of its answers.

Main results:

* `erase_rename`, `lookup_rename` — what is done to the names in a list of pairs is what is done to
  the keys.
* `Renamed.put`, `Renamed.get`, `Renamed.remove` — the two machines stay in step.

Deliberate scope limits:

* Names have to differ for the keys of a set `S` only, to which all stored keys belong. This is
  what is true of hash values: they are no names of all texts, but of those that were typed.
-/

namespace Recency

variable {κ κ' ν ν' : Type*} {f : κ → κ'} {g : ν → ν'}

/-! ## Lists of pairs -/

/-- The pairs under new names: `f` for the keys, and `g` for the values. -/
def rename (f : κ → κ') (g : ν → ν') (l : List (κ × ν)) : List (κ' × ν') := l.map (Prod.map f g)

@[simp] theorem length_rename (l : List (κ × ν)) : (rename f g l).length = l.length :=
  List.length_map _

@[simp] theorem isEmpty_rename (l : List (κ × ν)) : (rename f g l).isEmpty = l.isEmpty := by
  cases l <;> rfl

/-- The keys that are stored are the names of the keys. -/
theorem keys_rename (l : List (κ × ν)) : keys (rename f g l) = (keys l).map f := by
  simp [keys, rename, Function.comp_def]

/-- Making room takes pairs away from the end, whatever they are called. -/
theorem room_rename (cap : ℕ) (l : List (κ × ν)) :
    room cap (rename f g l) = rename f g (room cap l) := by
  unfold room
  rw [length_rename]
  split
  · rw [rename, rename, List.map_dropLast]
  · rfl

section Names

variable {S : Set κ} {k : κ} {l : List (κ × ν)}

/-- A name is stored only if its key is: no other key of `S` has the same name. -/
theorem mem_keys_rename (hinj : Set.InjOn f S) (hkeys : ∀ x ∈ keys l, x ∈ S) (hk : k ∈ S) :
    f k ∈ keys (rename f g l) ↔ k ∈ keys l := by
  rw [keys_rename, List.mem_map]
  constructor
  · rintro ⟨x, hx, heq⟩
    exact hinj (hkeys x hx) hk heq ▸ hx
  · intro hmem
    exact ⟨k, hmem, rfl⟩

variable [DecidableEq κ] [DecidableEq κ']

/-- To erase a name is to erase its key. -/
theorem erase_rename (hinj : Set.InjOn f S) (hkeys : ∀ x ∈ keys l, x ∈ S) (hk : k ∈ S) :
    erase (f k) (rename f g l) = rename f g (erase k l) := by
  rw [erase, erase, rename, rename, List.filter_map]
  congr 1
  apply List.filter_congr
  intro p hp
  have hS : p.1 ∈ S := hkeys p.1 (List.mem_map_of_mem hp)
  simp [hinj.eq_iff hS hk]

/-- What is found under the name of a key is the name of what is found under the key. -/
theorem lookup_rename (hinj : Set.InjOn f S) (hkeys : ∀ x ∈ keys l, x ∈ S) (hk : k ∈ S) :
    (rename f g l).lookup (f k) = (l.lookup k).map g := by
  induction l with
  | nil => rfl
  | cons p l ih =>
    have hp : p.1 ∈ S := hkeys p.1 List.mem_cons_self
    have ih := ih fun x hx => hkeys x (List.mem_cons_of_mem p.1 hx)
    rw [rename, List.map_cons, List.lookup_cons, List.lookup_cons]
    by_cases heq : k = p.1
    · simp [heq]
    · have hne : f k ≠ f p.1 := fun h => heq (hinj hk hp h)
      rw [beq_eq_false_iff_ne.mpr heq, Prod.map_fst, beq_eq_false_iff_ne.mpr hne]
      exact ih

end Names

/-! ## States -/

/-- The second machine holds the names of what the first one holds. -/
structure Renamed (f : κ → κ') (g : ν → ν') (s : State κ ν) (s' : State κ' ν') : Prop where
  cap : s'.store.cap = s.store.cap
  items : s'.store.items = rename f g s.store.items
  hits : s'.hits = s.hits
  misses : s'.misses = s.misses
  evictions : s'.evictions = s.evictions

/-- Both machines begin with nothing stored. -/
theorem Renamed.init (cap : ℕ) (h : 0 < cap) : Renamed f g (State.init cap h) (State.init cap h) :=
  ⟨rfl, rfl, rfl, rfl, rfl⟩

section Operations

variable {s : State κ ν} {s' : State κ' ν'}

/-- Clearing takes back the counters on both sides. -/
theorem Renamed.clear (h : Renamed f g s s') : Renamed f g s.clear s'.clear where
  cap := h.cap
  items := rfl
  hits := rfl
  misses := rfl
  evictions := rfl

/-- As many pairs are stored on either side. -/
theorem Renamed.length_eq (h : Renamed f g s s') :
    s'.store.items.length = s.store.items.length := by
  rw [h.items, length_rename]

/-- So either side is empty if the other one is. -/
theorem Renamed.isEmpty_eq (h : Renamed f g s s') :
    s'.store.items.isEmpty = s.store.items.isEmpty := by
  rw [h.items, isEmpty_rename]

variable [DecidableEq κ] [DecidableEq κ'] {S : Set κ} {k : κ}

/-- The values that are found correspond. -/
theorem Renamed.lookup (h : Renamed f g s s') (hinj : Set.InjOn f S)
    (hkeys : ∀ x ∈ keys s.store.items, x ∈ S) (hk : k ∈ S) :
    s'.store.items.lookup (f k) = (s.store.items.lookup k).map g := by
  rw [h.items, lookup_rename hinj hkeys hk]

/-- A put of the names is a put of what they name, evictions included. -/
theorem Renamed.put (h : Renamed f g s s') (hinj : Set.InjOn f S)
    (hkeys : ∀ x ∈ keys s.store.items, x ∈ S) (hk : k ∈ S) (v : ν) :
    Renamed f g (s.put k v) (s'.put (f k) (g v)) := by
  have hmem : f k ∈ keys s'.store.items ↔ k ∈ keys s.store.items := by
    rw [h.items, mem_keys_rename hinj hkeys hk]
  refine ⟨?_, ?_, h.hits, h.misses, ?_⟩
  · rw [State.put, State.put, Store.cap_put, Store.cap_put, h.cap]
  · by_cases hold : k ∈ keys s.store.items
    · rw [State.put, State.put, Store.items_put_of_mem hold,
        Store.items_put_of_mem (hmem.mpr hold), h.items, erase_rename hinj hkeys hk]
      rfl
    · rw [State.put, State.put, Store.items_put_of_notMem hold,
        Store.items_put_of_notMem (mt hmem.mp hold), h.items, h.cap, room_rename]
      rfl
  · have hevicts : s'.evicts (f k) ↔ s.evicts k := by
      rw [State.evicts, State.evicts, hmem, h.length_eq, h.cap]
    simp only [State.put, h.evictions, hevicts]

/-- A get of the name promotes the same pair, and counts the same. -/
theorem Renamed.get (h : Renamed f g s s') (hinj : Set.InjOn f S)
    (hkeys : ∀ x ∈ keys s.store.items, x ∈ S) (hk : k ∈ S) :
    Renamed f g (s.get k).2 (s'.get (f k)).2 := by
  have hlookup := h.lookup hinj hkeys hk
  cases hfound : s.store.items.lookup k with
  | none =>
    rw [hfound, Option.map_none] at hlookup
    rw [State.get_of_none hfound, State.get_of_none hlookup]
    exact ⟨h.cap, h.items, h.hits, congrArg (· + 1) h.misses, h.evictions⟩
  | some v =>
    rw [hfound, Option.map_some] at hlookup
    rw [State.get_of_some hfound, State.get_of_some hlookup]
    refine ⟨?_, ?_, congrArg (· + 1) h.hits, h.misses, h.evictions⟩
    · rw [Store.cap_touch, Store.cap_touch, h.cap]
    · rw [Store.items_touch_of_some hfound, Store.items_touch_of_some hlookup, h.items,
        erase_rename hinj hkeys hk]
      rfl

/-- A removal of the name removes the same pair, and is answered alike. -/
theorem Renamed.remove (h : Renamed f g s s') (hinj : Set.InjOn f S)
    (hkeys : ∀ x ∈ keys s.store.items, x ∈ S) (hk : k ∈ S) :
    (s'.remove (f k)).1 = (s.remove k).1 ∧ Renamed f g (s.remove k).2 (s'.remove (f k)).2 := by
  refine ⟨?_, h.cap, ?_, h.hits, h.misses, h.evictions⟩
  · apply decide_eq_decide.mpr
    rw [h.items, mem_keys_rename hinj hkeys hk]
  · rw [State.remove, State.remove, Store.items_remove, Store.items_remove, h.items,
      erase_rename hinj hkeys hk]

end Operations

end Recency
