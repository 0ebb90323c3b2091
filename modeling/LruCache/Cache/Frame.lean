import LruCache.Cache.Refinement

/-!
# What no operation changes

`capacity_`, `hash_mask_` and the sizes of the two arrays are set by the constructor and stay as
they are. The lemmas follow the code: one for each primitive, then one for each operation, with
no invariant assumed.

Main results:

* `put_shape`, `get_shape`, `remove_shape`, `clear_shape` — no member function changes the shape.
* `run_shape` — and no sequence of calls does.

Deliberate scope limits:

* The lemmas are about calls that return; that they do is in `LruCache.Cache.Loops`.
-/

namespace LruCache

open Transition

/-- The two caches have the same capacity, mask and array sizes. -/
structure SameShape (c c' : Cache) : Prop where
  capacity : c'.capacity = c.capacity
  mask : c'.hashMask = c.hashMask
  table : c'.hashTable.length = c.hashTable.length
  pool : c'.nodes.length = c.nodes.length

/-- Nothing has changed yet. -/
theorem SameShape.refl (c : Cache) : SameShape c c := ⟨rfl, rfl, rfl, rfl⟩

section Frame

variable {hash : UInt64 → Nat} {c c' c'' : Cache}

/-- Two steps that keep the shape keep it together. -/
theorem SameShape.trans (h : SameShape c c') (h' : SameShape c' c'') : SameShape c c'' :=
  ⟨h'.capacity.trans h.capacity, h'.mask.trans h.mask, h'.table.trans h.table,
    h'.pool.trans h.pool⟩

/-! ## Primitives -/

/-- A write replaces an element, so the array stays as long as it was. -/
theorem length_of_updateAt {α : Type} {xs ys : List α} {i : Int} {f : α → α}
    (h : updateAt xs i f = .ok ys) : ys.length = xs.length := by
  rcases bind_eq_ok h with ⟨x, _, hys⟩
  cases hys
  exact List.length_set

/-- A write to a node leaves the number of nodes. -/
theorem setNode_shape {i : Int} {f : Node → Node} (h : c.setNode i f = .ok c') :
    SameShape c c' := by
  rcases bind_eq_ok h with ⟨nodes, hnodes, hc⟩
  cases hc
  exact ⟨rfl, rfl, rfl, length_of_updateAt hnodes⟩

/-- A write to a slot leaves the number of slots. -/
theorem setSlot_shape {idx : Nat} {v : Int} (h : c.setSlot idx v = .ok c') : SameShape c c' := by
  rcases bind_eq_ok h with ⟨table, htable, hc⟩
  cases hc
  exact ⟨rfl, rfl, length_of_updateAt htable, rfl⟩

/-- The backward shift moves entries within the table. -/
theorem length_of_shiftLoop {nodes : List Node} {mask fuel idx nextIdx : Nat}
    {table table' : List Int} (h : shiftLoop hash nodes mask fuel table idx nextIdx = .ok table') :
    table'.length = table.length := by
  induction fuel generalizing table idx nextIdx with
  | zero => cases h
  | succ fuel ih =>
    rcases bind_eq_ok h with ⟨moveNodeIdx, _, h⟩
    by_cases hend : moveNodeIdx = -1
    · rw [if_pos hend] at h
      cases h
      rfl
    · rw [if_neg hend] at h
      rcases bind_eq_ok h with ⟨node, _, h⟩
      by_cases hmove : canMove (hash node.key) idx nextIdx = true
      · rw [if_pos hmove] at h
        rcases bind_eq_ok h with ⟨table₁, h₁, h⟩
        rcases bind_eq_ok h with ⟨table₂, h₂, h⟩
        exact (ih h).trans ((length_of_updateAt h₂).trans (length_of_updateAt h₁))
      · rw [if_neg hmove] at h
        exact ih h

/-- Erasing a slot is a shift and a write. -/
theorem eraseSlot_shape {idx : Nat} (h : eraseSlot hash c idx = .ok c') : SameShape c c' := by
  rcases bind_eq_ok h with ⟨table₁, h₁, h⟩
  rcases bind_eq_ok h with ⟨table₂, h₂, hc⟩
  cases hc
  exact ⟨rfl, rfl, (length_of_shiftLoop h₂).trans (length_of_updateAt h₁), rfl⟩

/-- Allocation takes a node of the pool; it makes no new one. -/
theorem allocateNode_shape {i : Int} (h : allocateNode c = .ok (i, c')) : SameShape c c' := by
  rcases bind_eq_ok h with ⟨node, _, hc⟩
  cases hc
  exact ⟨rfl, rfl, rfl, rfl⟩

/-- A node that is freed stays in the pool. -/
theorem freeNode_shape {i : Int} (h : freeNode c i = .ok c') : SameShape c c' := by
  rcases bind_eq_ok h with ⟨c₁, h₁, hc⟩
  cases hc
  exact (setNode_shape h₁).trans ⟨rfl, rfl, rfl, rfl⟩

/-- A write to a node under a condition, with another cache as the result if it does not hold. -/
theorem setNode_or_shape {p : Prop} [Decidable p] {i : Int} {f : Node → Node} {c₁ : Cache}
    {k : Cache → Except Fault Cache}
    (h : (if p then c.setNode i f >>= k else pure c₁ >>= k) = .ok c') (hc₁ : SameShape c c₁) :
    ∃ c₂, SameShape c c₂ ∧ k c₂ = .ok c' := by
  by_cases hp : p
  · rw [if_pos hp] at h
    rcases bind_eq_ok h with ⟨c₂, h₂, h⟩
    exact ⟨c₂, setNode_shape h₂, h⟩
  · rw [if_neg hp] at h
    exact ⟨c₁, hc₁, h⟩

/-- Linking writes to nodes, to `head` and to `tail` only. -/
theorem linkNode_shape {i : Int} (h : linkNode c i = .ok c') : SameShape c c' := by
  rcases bind_eq_ok h with ⟨c₁, h₁, h⟩
  rcases setNode_or_shape h (SameShape.refl c₁) with ⟨c₂, h₂, hc⟩
  refine ((setNode_shape h₁).trans h₂).trans ?_
  cases hc
  by_cases htail : c₂.tail = -1
  · simp only [htail, if_true]
    exact ⟨rfl, rfl, rfl, rfl⟩
  · simp only [htail, if_false]
    exact ⟨rfl, rfl, rfl, rfl⟩

theorem unlinkNode_shape {i : Int} (h : unlinkNode c i = .ok c') : SameShape c c' := by
  rcases bind_eq_ok h with ⟨node, _, h⟩
  rcases setNode_or_shape h ⟨rfl, rfl, rfl, rfl⟩ with ⟨c₁, h₁, h⟩
  refine h₁.trans ?_
  dsimp only at h
  by_cases hn : node.next ≠ -1
  · rw [if_pos hn] at h
    exact setNode_shape h
  · rw [if_neg hn] at h
    cases h
    exact ⟨rfl, rfl, rfl, rfl⟩

theorem promote_shape {i : Int} (h : promote c i = .ok c') : SameShape c c' := by
  by_cases hhead : i = c.head
  · rw [promote, if_pos hhead] at h
    cases h
    exact SameShape.refl c
  · rw [promote, if_neg hhead] at h
    rcases bind_eq_ok h with ⟨c₁, h₁, h₂⟩
    exact (unlinkNode_shape h₁).trans (linkNode_shape h₂)

/-! ## Operations -/

/-- An eviction makes room in the pool and in the table, whose sizes stay. -/
theorem evictLru_shape (h : evictLru hash c = .ok c') : SameShape c c' := by
  rcases bind_eq_ok h with ⟨node, _, h⟩
  rcases bind_eq_ok h with ⟨idx, _, h⟩
  rcases bind_eq_ok h with ⟨c₁, h₁, h⟩
  rcases bind_eq_ok h with ⟨c₂, h₂, h⟩
  rcases bind_eq_ok h with ⟨c₃, h₃, hc⟩
  cases hc
  exact (eraseSlot_shape h₁).trans ((unlinkNode_shape h₂).trans
    ((freeNode_shape h₃).trans ⟨rfl, rfl, rfl, rfl⟩))

/-- With or without an eviction, nothing is resized. -/
theorem makeRoom_shape {key : UInt64} {idx idx' : Nat}
    (h : makeRoom hash c key idx = .ok (c', idx')) : SameShape c c' := by
  by_cases hfull : c.size = c.capacity
  · rw [makeRoom, if_pos hfull] at h
    rcases bind_eq_ok h with ⟨c₁, h₁, h⟩
    rcases bind_eq_ok h with ⟨idx₁, _, hc⟩
    cases hc
    exact evictLru_shape h₁
  · rw [makeRoom, if_neg hfull] at h
    cases h
    exact SameShape.refl c

theorem insertNode_shape {key value : UInt64} {idx : Nat}
    (h : insertNode c idx key value = .ok c') : SameShape c c' := by
  rcases bind_eq_ok h with ⟨⟨i, c₁⟩, h₁, h⟩
  rcases bind_eq_ok h with ⟨c₂, h₂, h⟩
  rcases bind_eq_ok h with ⟨c₃, h₃, h₄⟩
  exact (allocateNode_shape h₁).trans ((setNode_shape h₂).trans
    ((setSlot_shape h₃).trans (linkNode_shape h₄)))

/-- In particular `put` never rehashes: the table has its size from the constructor. -/
theorem put_shape {key value : UInt64} (h : c.put hash key value = .ok c') : SameShape c c' := by
  rcases bind_eq_ok h with ⟨probed, _, h⟩
  cases probed with
  | found _ nodeIdx =>
    rcases bind_eq_ok h with ⟨c₁, h₁, h₂⟩
    exact (setNode_shape h₁).trans (promote_shape h₂)
  | empty insertIdx =>
    rcases bind_eq_ok h with ⟨⟨c₁, idx⟩, h₁, h₂⟩
    exact (makeRoom_shape h₁).trans (insertNode_shape h₂)

theorem get_shape {key : UInt64} {r : GetResult} (h : c.get hash key = .ok (r, c')) :
    SameShape c c' := by
  rcases bind_eq_ok h with ⟨nodeIdx, _, h⟩
  by_cases hmiss : nodeIdx = -1
  · rw [if_pos hmiss] at h
    cases h
    exact ⟨rfl, rfl, rfl, rfl⟩
  · rw [if_neg hmiss] at h
    rcases bind_eq_ok h with ⟨c₁, h₁, h⟩
    rcases bind_eq_ok h with ⟨node, _, hc⟩
    cases hc
    have hpromote := promote_shape h₁
    exact ⟨hpromote.capacity, hpromote.mask, hpromote.table, hpromote.pool⟩

theorem remove_shape {key : UInt64} {found : Bool} (h : c.remove hash key = .ok (found, c')) :
    SameShape c c' := by
  rcases bind_eq_ok h with ⟨probed, _, h⟩
  cases probed with
  | empty _ =>
    cases h
    exact SameShape.refl c
  | found idx nodeIdx =>
    rcases bind_eq_ok h with ⟨c₁, h₁, h⟩
    rcases bind_eq_ok h with ⟨c₂, h₂, h⟩
    rcases bind_eq_ok h with ⟨c₃, h₃, hc⟩
    cases hc
    exact (unlinkNode_shape h₁).trans ((freeNode_shape h₂).trans (eraseSlot_shape h₃))

/-- `clear` links the nodes anew, all of them. -/
theorem length_of_linkFree {cap : Nat} {nodes nodes' : List Node}
    (h : linkFree cap nodes = .ok nodes') : nodes'.length = nodes.length := by
  unfold linkFree at h
  revert h
  generalize List.range (toInt32 cap).toNat = turns
  induction turns generalizing nodes with
  | nil =>
    intro h
    cases h
    rfl
  | cons i turns ih =>
    intro h
    rcases bind_eq_ok h with ⟨nodes₁, h₁, h⟩
    exact (ih h).trans (length_of_updateAt h₁)

theorem clear_shape (h : c.clear = .ok c') : SameShape c c' := by
  rcases bind_eq_ok h with ⟨nodes, hnodes, hc⟩
  cases hc
  exact ⟨rfl, rfl, List.length_replicate, length_of_linkFree hnodes⟩

/-- The same of every call. -/
theorem step_shape {op : Call} {r : Returned} (h : Cache.step hash op c = .ok (r, c')) :
    SameShape c c' := by
  cases op with
  | put k v =>
    rcases bind_eq_ok h with ⟨c₁, h₁, hc⟩
    cases hc
    exact put_shape h₁
  | get k =>
    rcases bind_eq_ok h with ⟨⟨r₁, c₁⟩, h₁, hc⟩
    cases hc
    exact get_shape h₁
  | remove k =>
    rcases bind_eq_ok h with ⟨⟨r₁, c₁⟩, h₁, hc⟩
    cases hc
    exact remove_shape h₁
  | clear =>
    rcases bind_eq_ok h with ⟨c₁, h₁, hc⟩
    cases hc
    exact clear_shape h₁

/-- No run of calls changes the shape. -/
theorem run_shape {ops : List Call} {rs : List Returned}
    (h : run (Cache.step hash) ops c = .ok (rs, c')) : SameShape c c' := by
  induction ops generalizing c rs with
  | nil =>
    cases h
    exact SameShape.refl _
  | cons op ops ih =>
    rcases of_run_cons h with ⟨r, c₁, rs₁, h₁, hrest, _⟩
    exact (step_shape h₁).trans (ih hrest)

end Frame

end LruCache
