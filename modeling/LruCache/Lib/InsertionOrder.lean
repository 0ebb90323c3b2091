import LruCache.Lib.Recency

/-!
# Maps in insertion order

A map that lists its keys in the order in which they were inserted, as the maps of scripting
languages do: setting a key that is there leaves it in its place. Deleting a key before it is set
moves it to the end, so with the first key deleted when there are too many, such a map holds the
keys of a recency list in opposite order (`Mirrors`).

Main results:

* `mirrors_setAll` — a map filled from a store, least recent key first, mirrors it.
* `Mirrors.put`, `Mirrors.touch`, `Mirrors.remove` — and goes on to do so through the operations of
  the store.

Deliberate scope limits:

* Values are left out: the map only says which keys are there, and in which order.
-/

namespace Recency

variable {κ ν : Type*}

/-! ## Maps -/

/-- The keys, first one inserted first. The values play no role here. -/
structure InsertionOrder (κ : Type*) where
  keys : List κ
  nodup : keys.Nodup

namespace InsertionOrder

/-- A map with no key. -/
def empty : InsertionOrder κ := ⟨[], List.nodup_nil⟩

/-- The number of its keys. -/
def size (m : InsertionOrder κ) : ℕ := m.keys.length

/-- The key that a loop over the map meets first. -/
def first? (m : InsertionOrder κ) : Option κ := m.keys.head?

section Operations

variable [DecidableEq κ]

/-- Is the key there? -/
def has (m : InsertionOrder κ) (k : κ) : Bool := decide (k ∈ m.keys)

/-- A key that is there stays in its place. -/
def set (m : InsertionOrder κ) (k : κ) : InsertionOrder κ :=
  if h : k ∈ m.keys then m
  else ⟨m.keys ++ [k], List.nodup_append.mpr ⟨m.nodup, List.nodup_singleton k, by
    intro x hx y hy heq
    rw [List.mem_singleton.mp hy] at heq
    exact h (heq ▸ hx)⟩⟩

/-- The key is taken out; the others stay where they are. -/
def delete (m : InsertionOrder κ) (k : κ) : InsertionOrder κ :=
  ⟨m.keys.filter (· ≠ k), m.nodup.filter _⟩

/-- The map without the key that a loop over it meets first. -/
def deleteFirst (m : InsertionOrder κ) : InsertionOrder κ :=
  match m.first? with
  | some k => m.delete k
  | none => m

variable {m : InsertionOrder κ} {k : κ}

@[simp] theorem has_iff : m.has k = true ↔ k ∈ m.keys := decide_eq_true_iff

/-- A new key comes last. -/
theorem keys_set_of_notMem (h : k ∉ m.keys) : (m.set k).keys = m.keys ++ [k] := by
  rw [set, dif_neg h]

/-- The keys that remain keep their order. -/
theorem keys_delete (m : InsertionOrder κ) (k : κ) :
    (m.delete k).keys = m.keys.filter (· ≠ k) := rfl

/-- Only the deleted key is gone. -/
theorem mem_keys_delete {k' : κ} : k' ∈ (m.delete k).keys ↔ k' ∈ m.keys ∧ k' ≠ k := by
  simp [delete]

/-- A key that is deleted and set again comes last. -/
theorem keys_delete_set (m : InsertionOrder κ) (k : κ) :
    ((m.delete k).set k).keys = m.keys.filter (· ≠ k) ++ [k] :=
  keys_set_of_notMem fun hmem => (mem_keys_delete.mp hmem).2 rfl

/-- The first key goes, and nothing else. -/
theorem keys_deleteFirst {l : List κ} (h : m.keys = k :: l) : m.deleteFirst.keys = l := by
  have hnd := m.nodup
  rw [h, List.nodup_cons] at hnd
  have hl : l.filter (· ≠ k) = l := by
    apply List.filter_eq_self.mpr
    intro x hx
    exact decide_eq_true fun heq => hnd.1 (heq ▸ hx)
  have hk : (k :: l).filter (· ≠ k) = l.filter (· ≠ k) := by simp
  have hfirst : m.deleteFirst = m.delete k := by rw [deleteFirst, first?, h, List.head?_cons]
  rw [hfirst, keys_delete, h, hk, hl]

end Operations

end InsertionOrder

/-! ## Recency lists -/

/-- The map has the keys of the store, the most recent one last. -/
def Mirrors (m : InsertionOrder κ) (s : Store κ ν) : Prop := m.keys = (keys s.items).reverse

section Mirrors

variable {m : InsertionOrder κ} {s : Store κ ν}

/-- A map that mirrors a store is as long. -/
theorem Mirrors.size_eq (h : Mirrors m s) : m.size = s.items.length := by
  rw [InsertionOrder.size, h, List.length_reverse, keys, List.length_map]

/-- And has the same keys. -/
theorem Mirrors.mem_iff (h : Mirrors m s) {k : κ} : k ∈ m.keys ↔ k ∈ keys s.items := by
  rw [h, List.mem_reverse]

variable [DecidableEq κ]

/-- The keys of a list that is set from its end. -/
theorem mirrors_setAll (s : Store κ ν) :
    Mirrors ((keys s.items).foldr (fun k m => m.set k) InsertionOrder.empty) s := by
  have hall : ∀ l : List κ, l.Nodup →
      (l.foldr (fun k m => m.set k) InsertionOrder.empty).keys = l.reverse := by
    intro l hnd
    induction l with
    | nil => rfl
    | cons k l ih =>
      rw [List.nodup_cons] at hnd
      have ih := ih hnd.2
      rw [List.foldr_cons, InsertionOrder.keys_set_of_notMem, ih, List.reverse_cons]
      rw [ih, List.mem_reverse]
      exact hnd.1
  exact hall _ s.nodup

/-- A key that is moved to the end is the most recent one. -/
theorem Mirrors.moved (h : Mirrors m s) (k : κ) :
    ((m.delete k).set k).keys = (k :: keys (erase k s.items)).reverse := by
  rw [InsertionOrder.keys_delete_set, keys_erase, List.reverse_cons, h, List.filter_reverse]

/-- To delete a key is to remove it from the store. -/
theorem Mirrors.remove (h : Mirrors m s) (k : κ) : Mirrors (m.delete k) (s.remove k) := by
  rw [Mirrors, InsertionOrder.keys_delete, Store.items_remove, keys_erase, h, List.filter_reverse]

/-- To delete a key and set it again is to use it in the store. -/
theorem Mirrors.touch (h : Mirrors m s) {k : κ} (hk : k ∈ m.keys) :
    Mirrors ((m.delete k).set k) (s.touch k) := by
  have hsome : (s.items.lookup k).isSome := lookup_isSome.mpr (h.mem_iff.mp hk)
  rcases Option.isSome_iff_exists.mp hsome with ⟨v, hv⟩
  rw [Mirrors, h.moved, Store.items_touch_of_some hv]
  rfl

/-- A key that is set, and the first key deleted if there is no room for it. -/
theorem Mirrors.put (h : Mirrors m s) (k : κ) (v : ν) :
    Mirrors (if s.cap < ((m.delete k).set k).size then ((m.delete k).set k).deleteFirst
      else (m.delete k).set k) (s.put k v) := by
  have hmoved := h.moved k
  have hle := s.length_le
  have hsize : ((m.delete k).set k).size = (erase k s.items).length + 1 := by
    rw [InsertionOrder.size, hmoved]
    simp [keys]
  by_cases hk : k ∈ keys s.items
  · have hlen := length_erase hk s.nodup
    rw [if_neg (by omega), Mirrors, hmoved, Store.items_put_of_mem hk]
    rfl
  · rw [erase_of_notMem hk] at hmoved hsize
    by_cases hfull : s.items.length = s.cap
    · -- full: the first key is the least recent one, which is not the new one
      have hne : s.items ≠ [] := by
        intro hnil
        have hpos := s.cap_pos
        rw [← hfull, hnil] at hpos
        exact absurd hpos (Nat.lt_irrefl 0)
      have hsplit := List.dropLast_append_getLast hne
      have hkeys : ((m.delete k).set k).keys =
          (s.items.getLast hne).1 :: (k :: keys s.items.dropLast).reverse := by
        rw [hmoved]
        conv_lhs => rw [← hsplit]
        simp [keys]
      have hdelete := InsertionOrder.keys_deleteFirst hkeys
      rw [if_pos (by omega), Mirrors, hdelete, Store.items_put_of_notMem hk, room, if_pos hfull]
      rfl
    · rw [if_neg (by omega), Mirrors, hmoved, Store.items_put_of_notMem hk, room, if_neg hfull]
      rfl

end Mirrors

end Recency
