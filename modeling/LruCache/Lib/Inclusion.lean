import LruCache.Lib.Recency
import LruCache.Lib.Transition

/-!
# Inclusion between two capacities

Two recency lists of different capacities that serve the same calls. A lookup that misses does
not insert, so the smaller list is not a prefix of the larger one: a key that only the larger
list has may be moved to its front. What survives is that the smaller list is a sublist of the
larger one, and that the larger one has no less free room (`Includes`).

Main results:

* `Includes.put`, `Includes.get`, `Includes.remove` — the inclusion is kept by every call.
* `Includes.run` — and so by every run: the smaller store is a sublist of the larger one, and has
  no more hits and no fewer evictions.

Deliberate scope limits:

* Both stores serve the same calls. A program that loads what is missing makes different calls, and
  is the subject of `LruCache.Lib.Competitive`.
-/

namespace Recency

variable {κ ν : Type*}

/-- The smaller state `s` is included in the larger state `t`. -/
structure Includes (s t : State κ ν) : Prop where
  sublist : s.store.items.Sublist t.store.items
  spare : t.store.items.length + s.store.cap ≤ s.store.items.length + t.store.cap
  hits : s.hits ≤ t.hits
  evictions : t.evictions ≤ s.evictions

/-! ## Sublists -/

/-- Sublists without their last elements are sublists. -/
theorem sublist_dropLast {l l' : List (κ × ν)} (h : l.Sublist l') :
    l.dropLast.Sublist l'.dropLast := by
  have htail : l.reverse.tail.Sublist l'.reverse.tail := (List.reverse_sublist.mpr h).tail
  rw [List.tail_reverse, List.tail_reverse] at htail
  exact List.reverse_sublist.mp htail

/-- How long a list is after an insertion. -/
theorem room_length {cap : ℕ} (hpos : 0 < cap) {l : List (κ × ν)} (hle : l.length ≤ cap) :
    (room cap l).length + 1 = min (l.length + 1) cap := by
  unfold room
  split
  · rw [List.length_dropLast]
    omega
  · omega

/-- If the smaller list is full whenever the larger one is, making room keeps the inclusion. -/
theorem room_sublist_room {l l' : List (κ × ν)} {cap cap' : ℕ} (h : l.Sublist l')
    (hfull : l'.length = cap' → l.length = cap) : (room cap l).Sublist (room cap' l') := by
  by_cases hl' : l'.length = cap'
  · rw [room, if_pos (hfull hl'), room, if_pos hl']
    exact sublist_dropLast h
  · have hroom : room cap' l' = l' := if_neg hl'
    rw [hroom]
    exact (room_sublist cap l).trans h

variable {s t : State κ ν}

/-- What the smaller store has the larger one has. -/
theorem Includes.keys_subset (h : Includes s t) {k : κ} (hk : k ∈ keys s.store.items) :
    k ∈ keys t.store.items :=
  (h.sublist.map Prod.fst).subset hk

/-- The larger list is full only if the smaller one is. -/
theorem Includes.full (h : Includes s t) (ht : t.store.items.length = t.store.cap) :
    s.store.items.length = s.store.cap := by
  have hspare := h.spare
  have hle := s.store.length_le
  omega

variable [DecidableEq κ]

/-- A hit in the smaller list is a hit in the larger one, with the same value. -/
theorem Includes.lookup (h : Includes s t) {k : κ} {v : ν}
    (hv : s.store.items.lookup k = some v) : t.store.items.lookup k = some v :=
  lookup_of_mem t.store.nodup (h.sublist.subset (mem_of_lookup hv))

/-! ## The operations keep the inclusion -/

/-- Moving a pair to the front of both lists. -/
theorem refresh_sublist {l l' : List (κ × ν)} (h : l.Sublist l') (k : κ) (v : ν) :
    ((k, v) :: erase k l).Sublist ((k, v) :: erase k l') :=
  (h.filter _).cons_cons (k, v)

/-- A put keeps the inclusion: if the larger store evicts, the smaller one is full as well. -/
theorem Includes.put (h : Includes s t) (k : κ) (v : ν) : Includes (s.put k v) (t.put k v) := by
  have hs_le := s.store.length_le
  have ht_le := t.store.length_le
  have hspare := h.spare
  have hcap : (s.put k v).store.cap = s.store.cap := Store.cap_put
  have hcap' : (t.put k v).store.cap = t.store.cap := Store.cap_put
  by_cases hks : k ∈ keys s.store.items
  · -- present in both: both move it to the front
    have hkt := h.keys_subset hks
    have hitems : (s.put k v).store.items = (k, v) :: erase k s.store.items :=
      Store.items_put_of_mem hks
    have hitems' : (t.put k v).store.items = (k, v) :: erase k t.store.items :=
      Store.items_put_of_mem hkt
    refine ⟨?_, ?_, h.hits, ?_⟩
    · rw [hitems, hitems']
      exact refresh_sublist h.sublist k v
    · rw [hitems, hitems', hcap, hcap', List.length_cons, List.length_cons,
        length_erase hks s.store.nodup, length_erase hkt t.store.nodup]
      exact hspare
    · simpa [State.put, State.evicts, hks, hkt] using h.evictions
  · have hitems : (s.put k v).store.items = (k, v) :: room s.store.cap s.store.items :=
      Store.items_put_of_notMem hks
    have hroom := room_length s.store.cap_pos hs_le
    by_cases hkt : k ∈ keys t.store.items
    · -- only in the larger list: the smaller one inserts, the larger one moves
      have hitems' : (t.put k v).store.items = (k, v) :: erase k t.store.items :=
        Store.items_put_of_mem hkt
      refine ⟨?_, ?_, h.hits, ?_⟩
      · rw [hitems, hitems']
        have hsub : (erase k s.store.items).Sublist (erase k t.store.items) := h.sublist.filter _
        rw [erase_of_notMem hks] at hsub
        exact ((room_sublist _ _).trans hsub).cons_cons (k, v)
      · rw [hitems, hitems', hcap, hcap', List.length_cons, List.length_cons,
          length_erase hkt t.store.nodup, hroom]
        omega
      · have hev := h.evictions
        simp only [State.put, State.evicts, hkt, not_true_eq_false, false_and, if_false]
        omega
    · -- in neither: both insert, and the larger list evicts only if the smaller one does
      have hitems' : (t.put k v).store.items = (k, v) :: room t.store.cap t.store.items :=
        Store.items_put_of_notMem hkt
      have hroom' := room_length t.store.cap_pos ht_le
      refine ⟨?_, ?_, h.hits, ?_⟩
      · rw [hitems, hitems']
        exact (room_sublist_room h.sublist h.full).cons_cons (k, v)
      · rw [hitems, hitems', hcap, hcap', List.length_cons, List.length_cons, hroom, hroom']
        omega
      · have hev := h.evictions
        have hfull := h.full
        simp only [State.put, State.evicts, hks, hkt, not_false_eq_true, true_and]
        split_ifs <;> omega

/-- So does a get, which may move a pair that only the larger store has. -/
theorem Includes.get (h : Includes s t) (k : κ) : Includes (s.get k).2 (t.get k).2 := by
  have hhits := h.hits
  cases hs : s.store.items.lookup k with
  | some v =>
    have ht := h.lookup hs
    have hks := lookup_isSome.mp (by rw [hs]; rfl)
    rw [State.get_of_some hs, State.get_of_some ht]
    refine ⟨?_, ?_, by simpa using hhits, h.evictions⟩
    · simp only [Store.items_touch_of_some hs, Store.items_touch_of_some ht]
      exact refresh_sublist h.sublist k v
    · simp only [Store.items_touch_of_some hs, Store.items_touch_of_some ht, Store.cap_touch,
        List.length_cons, length_erase hks s.store.nodup,
        length_erase (h.keys_subset hks) t.store.nodup]
      exact h.spare
  -- a miss in the smaller list leaves it alone, whatever the larger one does
  | none =>
    rw [State.get_of_none hs]
    cases ht : t.store.items.lookup k with
    | none =>
      rw [State.get_of_none ht]
      exact ⟨h.sublist, h.spare, hhits, h.evictions⟩
    | some v =>
      -- a hit in the larger list only: it moves a key that the smaller list does not have
      rw [State.get_of_some ht]
      refine ⟨?_, ?_, by simp only; omega, h.evictions⟩
      · simp only [Store.items_touch_of_some ht]
        have hsub : (erase k s.store.items).Sublist (erase k t.store.items) := h.sublist.filter _
        rw [erase_of_notMem (lookup_eq_none.mp hs)] at hsub
        exact hsub.cons (k, v)
      · have hkt := lookup_isSome.mp (by rw [ht]; rfl)
        simp only [Store.items_touch_of_some ht, Store.cap_touch, List.length_cons,
          length_erase hkt t.store.nodup]
        exact h.spare

/-- And a removal. -/
theorem Includes.remove (h : Includes s t) (k : κ) :
    Includes (s.remove k).2 (t.remove k).2 := by
  have hspare := h.spare
  refine ⟨h.sublist.filter _, ?_, h.hits, h.evictions⟩
  simp only [State.remove, Store.items_remove, Store.cap_remove]
  by_cases hks : k ∈ keys s.store.items
  · have hs := length_erase hks s.store.nodup
    have ht := length_erase (h.keys_subset hks) t.store.nodup
    omega
  · have hle := (erase_sublist k t.store.items).length_le
    rw [erase_of_notMem hks]
    omega

/-- Every call keeps the inclusion. -/
theorem Includes.step (h : Includes s t) (op : Op κ ν) :
    Includes (State.step op s).2 (State.step op t).2 := by
  cases op with
  | put k v => exact h.put k v
  | get k => exact h.get k
  | remove k => exact h.remove k
  -- both lists are empty, and the larger capacity is still no smaller
  | clear =>
    have hspare := h.spare
    have hlen := h.sublist.length_le
    refine ⟨List.Sublist.refl _, ?_, Nat.le_refl _, Nat.le_refl _⟩
    simp only [State.step, State.clear, Store.items_clear, Store.cap_clear]
    omega

/-- Runs of the same calls on an empty list of each capacity keep the inclusion. -/
theorem Includes.run {cap cap' : ℕ} (hpos : 0 < cap) (hpos' : 0 < cap') (hle : cap ≤ cap')
    (ops : List (Op κ ν)) :
    Includes (Transition.runTotal State.step ops (State.init cap hpos)).2
      (Transition.runTotal State.step ops (State.init cap' hpos')).2 := by
  refine Transition.runTotal_lockstep (R := Includes) (fun op _ _ h => h.step op) ops ?_
  exact ⟨List.Sublist.refl _, by simpa [State.init, Store.empty] using hle, Nat.le_refl _,
    Nat.le_refl _⟩

end Recency
