import LruCache.Cache.Model
import LruCache.Lib.LinkedPool

/-!
# Array accesses

What `readAt` and `updateAt` do at a valid index, and the pool seen as functions of the node
index (`keyOf`, `valueOf`, `nextOf`, `prevOf`), so that a write to a field is a function update.

Main results:

* `readAt_nodes`, `updateAt_nodes` — accesses within the pool are no faults.
* `keyOf_set`, `valueOf_set`, `nextOf_set`, `prevOf_set` — a write to a field is a function update.
  The invariants of the following modules are about these functions, never about the array.
-/

namespace LruCache

/-! ## Reading and writing -/

section Access

variable {α : Type} {xs : List α} {i : Nat} {x : α} {f : α → α}

/-- A read at a valid index is no fault, and gives the element. -/
theorem readAt_of_get (h : xs[i]? = some x) : readAt xs (i : Int) = .ok x := by
  unfold readAt
  simp only [h]

/-- A write at a valid index is no fault, and changes this element. -/
theorem updateAt_of_get (h : xs[i]? = some x) :
    updateAt xs (i : Int) f = .ok (xs.set i (f x)) := by
  rw [updateAt, readAt_of_get h]
  rfl

end Access

/-! ## Indices -/

/-- The `int32_t` for an optional node index. -/
def ptr : Option Nat → Int
  | none => -1
  | some i => i

@[simp] theorem ptr_none : ptr none = -1 := rfl

@[simp] theorem ptr_some (i : Nat) : ptr (some i) = i := rfl

@[simp] theorem natCast_ne_neg_one (i : Nat) : (i : Int) ≠ -1 := by
  omega

@[simp] theorem ptr_eq_neg_one {o : Option Nat} : ptr o = -1 ↔ o = none := by
  cases o <;> simp

/-- An index stands for one node at most. -/
theorem ptr_injective : Function.Injective ptr := by
  intro a b h
  cases a with
  | none => exact (ptr_eq_neg_one.mp h.symm).symm
  | some i =>
    cases b with
    | none => exact ptr_eq_neg_one.mp h
    | some j =>
      rw [ptr_some, ptr_some] at h
      rw [Int.ofNat.inj h]

/-! ## The pool as functions -/

/-- The node at an index of the pool. -/
def nodeOf (nodes : List Node) (i : Nat) : Node := nodes.getD i Node.zero

/-- The key of the node `i`. -/
def keyOf (nodes : List Node) (i : Nat) : UInt64 := (nodeOf nodes i).key

/-- The value of the node `i`. -/
def valueOf (nodes : List Node) (i : Nat) : UInt64 := (nodeOf nodes i).value

/-- The field `next` of the node `i`, as the index that it is in the code. -/
def nextOf (nodes : List Node) (i : Nat) : Int := (nodeOf nodes i).next

/-- The field `prev` of the node `i`. -/
def prevOf (nodes : List Node) (i : Nat) : Int := (nodeOf nodes i).prev

section Pool

variable {nodes : List Node} {i j : Nat} {x : Node}

theorem getElem?_nodeOf (h : i < nodes.length) : nodes[i]? = some (nodeOf nodes i) := by
  simp [nodeOf, h]

/-- Nodes can be read within the pool. -/
theorem readAt_nodes (h : i < nodes.length) : readAt nodes (i : Int) = .ok (nodeOf nodes i) :=
  readAt_of_get (getElem?_nodeOf h)

/-- And written. -/
theorem updateAt_nodes (h : i < nodes.length) (f : Node → Node) :
    updateAt nodes (i : Int) f = .ok (nodes.set i (f (nodeOf nodes i))) :=
  updateAt_of_get (getElem?_nodeOf h)

/-- A write to a node is an update of the pool as a function. -/
theorem nodeOf_set (h : i < nodes.length) :
    nodeOf (nodes.set i x) = Function.update (nodeOf nodes) i x := by
  funext j
  by_cases hj : j = i
  · subst hj
    simp [nodeOf, h]
  · rw [Function.update_of_ne hj]
    simp [nodeOf, List.getElem?_set_ne (Ne.symm hj)]

/-- For the fields, it is an update of the function of this field. -/
theorem keyOf_set (h : i < nodes.length) :
    keyOf (nodes.set i x) = Function.update (keyOf nodes) i x.key := by
  show Node.key ∘ nodeOf (nodes.set i x) = _
  rw [nodeOf_set h, Function.comp_update]
  rfl

theorem valueOf_set (h : i < nodes.length) :
    valueOf (nodes.set i x) = Function.update (valueOf nodes) i x.value := by
  show Node.value ∘ nodeOf (nodes.set i x) = _
  rw [nodeOf_set h, Function.comp_update]
  rfl

theorem nextOf_set (h : i < nodes.length) :
    nextOf (nodes.set i x) = Function.update (nextOf nodes) i x.next := by
  show Node.next ∘ nodeOf (nodes.set i x) = _
  rw [nodeOf_set h, Function.comp_update]
  rfl

theorem prevOf_set (h : i < nodes.length) :
    prevOf (nodes.set i x) = Function.update (prevOf nodes) i x.prev := by
  show Node.prev ∘ nodeOf (nodes.set i x) = _
  rw [nodeOf_set h, Function.comp_update]
  rfl

/-- A write that keeps a field of the node keeps that field of the pool. -/
theorem nextOf_set_same (h : i < nodes.length) (hx : x.next = nextOf nodes i) :
    nextOf (nodes.set i x) = nextOf nodes := by
  rw [nextOf_set h, hx, Function.update_eq_self]

theorem prevOf_set_same (h : i < nodes.length) (hx : x.prev = prevOf nodes i) :
    prevOf (nodes.set i x) = prevOf nodes := by
  rw [prevOf_set h, hx, Function.update_eq_self]

end Pool

/-- Two pools that hold the same keys and values. -/
structure SameData (nodes nodes' : List Node) : Prop where
  length : nodes'.length = nodes.length
  key : keyOf nodes' = keyOf nodes
  value : valueOf nodes' = valueOf nodes

/-- A pool has its own keys and values. -/
theorem SameData.refl (nodes : List Node) : SameData nodes nodes := ⟨rfl, rfl, rfl⟩

/-- Keys and values that are left alone twice are left alone. -/
theorem SameData.trans {nodes nodes' nodes'' : List Node} (h : SameData nodes nodes')
    (h' : SameData nodes' nodes'') : SameData nodes nodes'' :=
  ⟨h'.length.trans h.length, h'.key.trans h.key, h'.value.trans h.value⟩

/-- Writing the links of a node keeps the keys and values of the pool. -/
theorem SameData.set {nodes : List Node} {i : Nat} {x : Node} (h : i < nodes.length)
    (hkey : x.key = keyOf nodes i) (hvalue : x.value = valueOf nodes i) :
    SameData nodes (nodes.set i x) := by
  refine ⟨by simp, ?_, ?_⟩
  · rw [keyOf_set h, hkey, Function.update_eq_self]
  · rw [valueOf_set h, hvalue, Function.update_eq_self]

end LruCache
