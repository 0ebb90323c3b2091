import LruCache.Cache.Access

/-!
# The recency list and the free list

`Lists c order free` says that the pool of `c` holds the recency list `order`, linked both ways
between `head_` and `tail_`, and the free list `free`, linked from `free_head_`, with no node on
both. One lemma for each primitive says what it does to the two lists and that it leaves every
other part of the cache alone.

Main results:

* `Lists.unlink`, `Lists.link`, `Lists.promote` — what `unlink_node`, `link_node` and `promote` do
  to the recency list.
* `Lists.allocate`, `Lists.release` — what `allocate_node` and `free_node` do to the free list.

Deliberate scope limits:

* The hash table plays no role here; a node that is unlinked may still be in it.
  `LruCache.Cache.Invariant` puts the parts together.
-/

namespace LruCache

open LinkedPool

/-- The two lists in the pool: `order` from the head to the tail, linked both ways, and `free`,
linked by `next` alone. They have no node in common, and none twice. -/
structure Lists (c : Cache) (order free : List Nat) : Prop where
  nodup : (order ++ free).Nodup
  lt : ∀ i ∈ order ++ free, i < c.nodes.length
  linked : Linked ptr (nextOf c.nodes) (prevOf c.nodes) order
  head_eq : c.head = ptr order.head?
  tail_eq : c.tail = ptr order.getLast?
  chain : Chain ptr (nextOf c.nodes) free
  freeHead_eq : c.freeHead = ptr free.head?

section Basic

variable {c : Cache} {order free : List Nat} {i : Nat}

/-- No node is twice on the recency list. -/
theorem Lists.order_nodup (h : Lists c order free) : order.Nodup :=
  (List.nodup_append.mp h.nodup).1

/-- A node in use is not free. -/
theorem Lists.disjoint (h : Lists c order free) (hi : i ∈ order) : i ∉ free := by
  intro hfree
  exact (List.nodup_append.mp h.nodup).2.2 i hi i hfree rfl

/-- The recency list is within the pool. -/
theorem Lists.order_lt (h : Lists c order free) (hi : i ∈ order) : i < c.nodes.length :=
  h.lt i (List.mem_append_left _ hi)

/-- So is the free list. -/
theorem Lists.free_lt (h : Lists c order free) (hi : i ∈ free) : i < c.nodes.length :=
  h.lt i (List.mem_append_right _ hi)

end Basic

/-! ## The primitives as pool updates -/

section Updates

variable {c : Cache} {i : Nat}

/-- A write to a node of the pool does not fail. -/
theorem setNode_ok (h : i < c.nodes.length) (f : Node → Node) :
    c.setNode i f = .ok { c with nodes := c.nodes.set i (f (nodeOf c.nodes i)) } := by
  rw [Cache.setNode, updateAt_nodes h]
  rfl

/-- The pool after `nodes_[p].next = v`, for an index `p` that may be `-1`. -/
def setNext (nodes : List Node) (o : Option Nat) (v : Int) : List Node :=
  match o with
  | none => nodes
  | some i => nodes.set i { nodeOf nodes i with next := v }

/-- The pool after `nodes_[p].prev = v`, for an index `p` that may be `-1`. -/
def setPrev (nodes : List Node) (o : Option Nat) (v : Int) : List Node :=
  match o with
  | none => nodes
  | some i => nodes.set i { nodeOf nodes i with prev := v }

variable {nodes : List Node} {o : Option Nat} {v : Int}

/-- Links are written, and no keys or values. -/
theorem setNext_sameData (h : ∀ i, o = some i → i < nodes.length) :
    SameData nodes (setNext nodes o v) := by
  cases o with
  | none => exact SameData.refl nodes
  | some i => exact SameData.set (h i rfl) rfl rfl

theorem setPrev_sameData (h : ∀ i, o = some i → i < nodes.length) :
    SameData nodes (setPrev nodes o v) := by
  cases o with
  | none => exact SameData.refl nodes
  | some i => exact SameData.set (h i rfl) rfl rfl

/-- A write to `next` shows in `next`, -/
theorem nextOf_setNext (h : ∀ i, o = some i → i < nodes.length) :
    nextOf (setNext nodes o v) = writeAt (nextOf nodes) o v := by
  cases o with
  | none => rfl
  | some i => exact nextOf_set (h i rfl)

/-- and not in `prev`; -/
theorem prevOf_setNext (h : ∀ i, o = some i → i < nodes.length) :
    prevOf (setNext nodes o v) = prevOf nodes := by
  cases o with
  | none => rfl
  | some i => exact prevOf_set_same (h i rfl) rfl

theorem nextOf_setPrev (h : ∀ i, o = some i → i < nodes.length) :
    nextOf (setPrev nodes o v) = nextOf nodes := by
  cases o with
  | none => rfl
  | some i => exact nextOf_set_same (h i rfl) rfl

/-- a write to `prev` shows in `prev` only. -/
theorem prevOf_setPrev (h : ∀ i, o = some i → i < nodes.length) :
    prevOf (setPrev nodes o v) = writeAt (prevOf nodes) o v := by
  cases o with
  | none => rfl
  | some i => exact prevOf_set (h i rfl)

/-- The cache after `unlink_node` of a node between `p` and `n`, either of which may be
missing. -/
def Cache.unlinked (c : Cache) (p n : Option Nat) : Cache :=
  { c with
    nodes := setPrev (setNext c.nodes p (ptr n)) n (ptr p)
    head := if p = none then ptr n else c.head
    tail := if n = none then ptr p else c.tail }

/-- The cache after `free_node(i)`. -/
def Cache.released (c : Cache) (i : Nat) : Cache :=
  { c with
    nodes := setNext c.nodes (some i) c.freeHead
    freeHead := i
    size := decr c.size }

/-- `unlink_node` writes to the two neighbours, or to `head_` and `tail_` where there is none. -/
theorem unlinkNode_eq {p n : Option Nat} (hi : i < c.nodes.length)
    (hp : prevOf c.nodes i = ptr p) (hn : nextOf c.nodes i = ptr n)
    (hp_lt : ∀ j, p = some j → j < c.nodes.length)
    (hn_lt : ∀ j, n = some j → j < c.nodes.length) :
    unlinkNode c i = .ok (c.unlinked p n) := by
  have hp' : (nodeOf c.nodes i).prev = ptr p := hp
  have hn' : (nodeOf c.nodes i).next = ptr n := hn
  simp only [unlinkNode, readAt_nodes hi, hp', hn', bind, Except.bind]
  -- `p == -1` is the branch for the head of the list, `n == -1` the one for its tail
  cases p with
  | none =>
    cases n with
    | none => rfl
    | some j =>
      simp only [ptr_none, ptr_some, ne_eq, not_true_eq_false, if_false, natCast_ne_neg_one,
        not_false_eq_true, if_true]
      exact setNode_ok (c := { c with head := (j : Int) }) (hn_lt j rfl) _
  | some k =>
    simp only [ptr_some, ne_eq, natCast_ne_neg_one, not_false_eq_true, if_true,
      setNode_ok (hp_lt k rfl)]
    cases n with
    | none => rfl
    | some j =>
      simp only [ptr_some, natCast_ne_neg_one, not_false_eq_true, if_true]
      exact setNode_ok (by simpa using hn_lt j rfl) _

/-- `link_node` in front of the first node `o`, which may be missing. -/
theorem linkNode_eq {o : Option Nat} (hi : i < c.nodes.length) (hhead : c.head = ptr o)
    (ho_lt : ∀ j, o = some j → j < c.nodes.length) :
    linkNode c i = .ok { c with
      nodes := setPrev (c.nodes.set i { nodeOf c.nodes i with next := c.head, prev := -1 }) o i
      head := i
      tail := if c.tail = -1 then i else c.tail } := by
  simp only [linkNode, setNode_ok hi, hhead, bind, Except.bind]
  -- `head_ == -1` means that the list was empty
  cases o with
  | none =>
    simp only [ptr_none, ne_eq, not_true_eq_false, if_false, pure, Except.pure]
    split <;> rfl
  | some j =>
    let c₁ : Cache := { c with
      nodes := c.nodes.set i { nodeOf c.nodes i with next := (j : Int), prev := -1 } }
    have hj : j < c₁.nodes.length := by
      simpa [c₁] using ho_lt j rfl
    have hset := setNode_ok hj fun node => { node with prev := (i : Int) }
    simp only [c₁, hhead, ptr_some] at hset
    simp only [ptr_some, ne_eq, natCast_ne_neg_one, not_false_eq_true, if_true, hset, pure,
      Except.pure]
    split <;> rfl

/-- `free_node` puts the node in front of the free list. -/
theorem freeNode_eq (hi : i < c.nodes.length) : freeNode c i = .ok (c.released i) := by
  simp only [freeNode, setNode_ok hi, bind, Except.bind]
  rfl

/-- `allocate_node` takes the first node of the free list. -/
theorem allocateNode_eq {o : Option Nat} (hfree : c.freeHead = i) (hi : i < c.nodes.length)
    (hnext : nextOf c.nodes i = ptr o) :
    allocateNode c = .ok ((i : Int), { c with freeHead := ptr o, size := incr c.size }) := by
  have hnext' : (nodeOf c.nodes i).next = ptr o := hnext
  simp only [allocateNode, hfree, readAt_nodes hi, hnext', bind, Except.bind]
  rfl

end Updates

/-! ## The primitives on the lists -/

section Primitives

variable {c : Cache} {order free a b : List Nat} {i : Nat}

/-- The neighbours of a node are nodes of the pool. -/
theorem Lists.prev_lt (h : Lists c (a ++ i :: b) free) {j : Nat} (hj : a.getLast? = some j) :
    j < c.nodes.length :=
  h.order_lt (List.mem_append_left _ (List.mem_of_getLast? hj))

/-- The same for the node after it. -/
theorem Lists.next_lt (h : Lists c (a ++ i :: b) free) {j : Nat} (hj : b.head? = some j) :
    j < c.nodes.length :=
  h.order_lt (List.mem_append_right _ (List.mem_cons_of_mem _ (List.mem_of_head? hj)))

/-- In a cache with its lists, the neighbours of a node are those on the list. -/
theorem Lists.unlinkNode_run (h : Lists c (a ++ i :: b) free) :
    unlinkNode c i = .ok (c.unlinked a.getLast? b.head?) := by
  have hlinks := h.linked a i b rfl
  exact unlinkNode_eq (h.order_lt (by simp)) hlinks.2 hlinks.1 (fun _ => h.prev_lt)
    fun _ => h.next_lt

/-- Unlinking leaves keys and values. -/
theorem Lists.unlinked_sameData (h : Lists c (a ++ i :: b) free) :
    SameData c.nodes (c.unlinked a.getLast? b.head?).nodes := by
  have hdata : SameData c.nodes (setNext c.nodes a.getLast? (ptr b.head?)) :=
    setNext_sameData fun _ => h.prev_lt
  refine hdata.trans (setPrev_sameData ?_)
  intro j hj
  rw [hdata.length]
  exact h.next_lt hj

/-- `unlink_node` takes a node out of the recency list. -/
theorem Lists.unlink (h : Lists c (a ++ i :: b) free) :
    Lists (c.unlinked a.getLast? b.head?) (a ++ b) free := by
  have hsub : ((a ++ b) ++ free).Sublist ((a ++ i :: b) ++ free) :=
    ((List.sublist_cons_self i b).append_left a).append_right free
  let nodes₁ := setNext c.nodes a.getLast? (ptr b.head?)
  have hdata₁ : SameData c.nodes nodes₁ := setNext_sameData fun _ => h.prev_lt
  have hb_lt₁ : ∀ j, b.head? = some j → j < nodes₁.length := by
    intro j hj
    rw [hdata₁.length]
    exact h.next_lt hj
  have hnext : nextOf (c.unlinked a.getLast? b.head?).nodes =
      writeAt (nextOf c.nodes) a.getLast? (ptr b.head?) := by
    show nextOf (setPrev nodes₁ b.head? (ptr a.getLast?)) = _
    rw [nextOf_setPrev hb_lt₁, nextOf_setNext fun _ => h.prev_lt]
  have hprev : prevOf (c.unlinked a.getLast? b.head?).nodes =
      writeAt (prevOf c.nodes) b.head? (ptr a.getLast?) := by
    show prevOf (setPrev nodes₁ b.head? (ptr a.getLast?)) = _
    rw [prevOf_setPrev hb_lt₁, prevOf_setNext fun _ => h.prev_lt]
  refine ⟨h.nodup.sublist hsub, ?_, ?_, ?_, ?_, ?_, h.freeHead_eq⟩
  · intro j hj
    rw [h.unlinked_sameData.length]
    exact h.lt j (hsub.subset hj)
  · rw [hnext, hprev]
    exact h.linked.unlink h.order_nodup
  -- the head changes exactly if nothing stood before the node, and the tail likewise
  · show (if a.getLast? = none then ptr b.head? else c.head) = ptr (a ++ b).head?
    rw [h.head_eq]
    cases a with
    | nil => rfl
    | cons x a => simp [List.getLast?_cons]
  · show (if b.head? = none then ptr a.getLast? else c.tail) = ptr (a ++ b).getLast?
    rw [h.tail_eq]
    cases b with
    | nil => simp
    | cons x b => simp [List.getLast?_append, List.getLast?_cons]
  · -- the free list has none of the written nodes
    refine h.chain.congr ?_
    intro j hj
    rw [hnext, writeAt_of_ne]
    intro x hx hjx
    exact h.disjoint (List.mem_append_left _ (List.mem_of_getLast? hx)) (hjx ▸ hj)

/-- A node that is taken out is on neither list. -/
theorem Lists.unlinked_fresh (h : Lists c (a ++ i :: b) free) : i ∉ (a ++ b) ++ free := by
  have hperm : ((a ++ i :: b) ++ free).Perm (i :: ((a ++ b) ++ free)) := by
    rw [List.append_assoc, List.cons_append, List.append_assoc]
    exact List.perm_middle
  exact (List.nodup_cons.mp (hperm.nodup_iff.mp h.nodup)).1

/-- `link_node` puts a node that is on neither list in front of the recency list. -/
theorem Lists.link (h : Lists c order free) (hi : i < c.nodes.length) (hfresh : i ∉ order ++ free) :
    ∃ nodes tail, linkNode c i = .ok { c with nodes := nodes, head := (i : Int), tail := tail } ∧
      Lists { c with nodes := nodes, head := (i : Int), tail := tail } (i :: order) free ∧
      SameData c.nodes nodes := by
  have ho_lt : ∀ j, order.head? = some j → j < c.nodes.length :=
    fun j hj => h.order_lt (List.mem_of_head? hj)
  let nodes₁ := c.nodes.set i { nodeOf c.nodes i with next := c.head, prev := -1 }
  let nodes₂ := setPrev nodes₁ order.head? i
  have hdata₁ : SameData c.nodes nodes₁ := SameData.set hi rfl rfl
  have ho_lt₁ : ∀ j, order.head? = some j → j < nodes₁.length := by
    intro j hj
    rw [hdata₁.length]
    exact ho_lt j hj
  have hdata₂ : SameData c.nodes nodes₂ := hdata₁.trans (setPrev_sameData ho_lt₁)
  have hnext : nextOf nodes₂ = Function.update (nextOf c.nodes) i (ptr order.head?) := by
    rw [nextOf_setPrev ho_lt₁, nextOf_set hi, h.head_eq]
  have hprev : prevOf nodes₂ =
      writeAt (Function.update (prevOf c.nodes) i (ptr none)) order.head? (ptr (some i)) := by
    rw [prevOf_setPrev ho_lt₁, prevOf_set hi]
    rfl
  have hnd : (i :: (order ++ free)).Nodup := List.nodup_cons.mpr ⟨hfresh, h.nodup⟩
  refine ⟨nodes₂, if c.tail = -1 then i else c.tail, linkNode_eq hi h.head_eq ho_lt, ?_, hdata₂⟩
  refine ⟨hnd, ?_, ?_, rfl, ?_, ?_, h.freeHead_eq⟩
  · intro j hj
    rw [hdata₂.length]
    rcases List.mem_cons.mp hj with rfl | hj
    · exact hi
    · exact h.lt j hj
  · show Linked ptr (nextOf nodes₂) (prevOf nodes₂) (i :: order)
    rw [hnext, hprev]
    refine h.linked.push (List.nodup_cons.mpr ⟨?_, h.order_nodup⟩)
    exact fun hmem => hfresh (List.mem_append_left _ hmem)
  · show (if c.tail = -1 then (i : Int) else c.tail) = _
    rw [h.tail_eq]
    cases order with
    | nil => rfl
    | cons x order => simp [List.getLast?_cons]
  -- the links of the free nodes were not written
  · refine h.chain.congr ?_
    intro j hj
    show nextOf nodes₂ j = nextOf c.nodes j
    rw [hnext, Function.update_of_ne]
    exact fun heq => hfresh (heq ▸ List.mem_append_right _ hj)

/-- So does freeing. -/
theorem released_sameData (hi : i < c.nodes.length) : SameData c.nodes (c.released i).nodes := by
  have hi_lt : ∀ j, some i = some j → j < c.nodes.length := by
    rintro j ⟨⟩
    exact hi
  exact setNext_sameData (o := some i) hi_lt

/-- `free_node` puts a node that is on neither list in front of the free list. -/
theorem Lists.release (h : Lists c order free) (hi : i < c.nodes.length)
    (hfresh : i ∉ order ++ free) : Lists (c.released i) order (i :: free) := by
  have hi_lt : ∀ j, some i = some j → j < c.nodes.length := by
    rintro j ⟨⟩
    exact hi
  have hdata := released_sameData hi
  have hnext : nextOf (c.released i).nodes =
      Function.update (nextOf c.nodes) i (ptr free.head?) := by
    show nextOf (setNext c.nodes (some i) c.freeHead) = _
    rw [nextOf_setNext hi_lt, h.freeHead_eq]
    rfl
  have hprev : prevOf (c.released i).nodes = prevOf c.nodes := prevOf_setNext hi_lt
  have hperm : (order ++ i :: free).Perm (i :: (order ++ free)) := List.perm_middle
  have hkeep : ∀ j ∈ order ++ free, nextOf (c.released i).nodes j = nextOf c.nodes j := by
    intro j hj
    rw [hnext, Function.update_of_ne]
    exact fun heq => hfresh (heq ▸ hj)
  have hhead : (c.released i).head = c.head := by simp only [Cache.released]
  have htail : (c.released i).tail = c.tail := by simp only [Cache.released]
  have hfree : (c.released i).freeHead = ptr (some i) := by simp only [Cache.released, ptr_some]
  refine ⟨hperm.nodup_iff.mpr (List.nodup_cons.mpr ⟨hfresh, h.nodup⟩), ?_, ?_,
    hhead.trans h.head_eq, htail.trans h.tail_eq, ?_, hfree⟩
  · intro j hj
    rw [hdata.length]
    rcases List.mem_cons.mp (hperm.subset hj) with rfl | hj
    · exact hi
    · exact h.lt j hj
  · refine h.linked.congr ?_ ?_
    · intro j hj
      exact hkeep j (List.mem_append_left _ hj)
    · intro j _
      rw [hprev]
  · rw [chain_cons]
    constructor
    · rw [hnext, Function.update_self]
    · refine h.chain.congr ?_
      intro j hj
      exact hkeep j (List.mem_append_right _ hj)

/-- `allocate_node` takes the first node off the free list. -/
theorem Lists.allocate (h : Lists c order (i :: free)) :
    allocateNode c = .ok ((i : Int), { c with
        freeHead := ptr free.head?, size := incr c.size }) ∧
      Lists { c with freeHead := ptr free.head?, size := incr c.size } order free ∧
      i < c.nodes.length ∧ i ∉ order ++ free := by
  have hi : i < c.nodes.length := h.free_lt List.mem_cons_self
  have hchain := chain_cons.mp h.chain
  have hperm : (order ++ i :: free).Perm (i :: (order ++ free)) := List.perm_middle
  have hnd := List.nodup_cons.mp (hperm.nodup_iff.mp h.nodup)
  refine ⟨allocateNode_eq h.freeHead_eq hi hchain.1, ?_, hi, hnd.1⟩
  refine ⟨hnd.2, ?_, h.linked, h.head_eq, h.tail_eq, hchain.2, rfl⟩
  intro j hj
  exact h.lt j (hperm.symm.subset (List.mem_cons_of_mem i hj))

/-- `promote` moves a node to the front of the recency list. -/
theorem Lists.promote (h : Lists c (a ++ i :: b) free) :
    ∃ nodes head tail, promote c i = .ok { c with nodes := nodes, head := head, tail := tail } ∧
      Lists { c with nodes := nodes, head := head, tail := tail } (i :: (a ++ b)) free ∧
      SameData c.nodes nodes := by
  have hi : i < c.nodes.length := h.order_lt (by simp)
  by_cases hhead : (i : Int) = c.head
  · -- already in front
    have ha : a = [] := by
      cases a with
      | nil => rfl
      | cons x a =>
        rw [h.head_eq, List.cons_append, List.head?_cons, ptr_some] at hhead
        have hix : i = x := Int.ofNat.inj hhead
        have hnd := h.order_nodup
        rw [List.cons_append, List.nodup_cons, hix] at hnd
        exact absurd (by simp) hnd.1
    subst ha
    refine ⟨c.nodes, c.head, c.tail, ?_, h, SameData.refl _⟩
    simp only [LruCache.promote, if_pos hhead]
    rfl
  -- elsewhere: unlink and link again, and in between the node is on neither list
  · have hdata₁ := h.unlinked_sameData
    have hi₁ : i < (c.unlinked a.getLast? b.head?).nodes.length := by
      rw [hdata₁.length]
      exact hi
    rcases h.unlink.link hi₁ h.unlinked_fresh with ⟨nodes₂, tail, hrun₂, hlists₂, hdata₂⟩
    refine ⟨nodes₂, i, tail, ?_, hlists₂, hdata₁.trans hdata₂⟩
    simp only [LruCache.promote, if_neg hhead, h.unlinkNode_run, bind, Except.bind]
    exact hrun₂

/-- The lists only depend on the links of the pool and the three list ends. -/
theorem Lists.congr {c' : Cache} (h : Lists c order free)
    (hlength : c'.nodes.length = c.nodes.length) (hnext : nextOf c'.nodes = nextOf c.nodes)
    (hprev : prevOf c'.nodes = prevOf c.nodes) (hhead : c'.head = c.head)
    (htail : c'.tail = c.tail) (hfree : c'.freeHead = c.freeHead) : Lists c' order free := by
  refine ⟨h.nodup, ?_, ?_, ?_, ?_, ?_, ?_⟩
  · rw [hlength]
    exact h.lt
  · rw [hnext, hprev]
    exact h.linked
  · rw [hhead]
    exact h.head_eq
  · rw [htail]
    exact h.tail_eq
  · rw [hnext]
    exact h.chain
  · rw [hfree]
    exact h.freeHead_eq

/-- Writing the key and the value of a node leaves both lists alone. -/
theorem Lists.writeData (h : Lists c order free) (hi : i < c.nodes.length) {x : Node}
    (hnext : x.next = nextOf c.nodes i) (hprev : x.prev = prevOf c.nodes i) :
    Lists { c with nodes := c.nodes.set i x } order free :=
  h.congr List.length_set (nextOf_set_same hi hnext) (prevOf_set_same hi hprev) rfl rfl rfl

end Primitives

end LruCache
