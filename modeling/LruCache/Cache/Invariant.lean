import LruCache.Cache.Links
import LruCache.Cache.Table
import Mathlib.Data.Finset.Card
import Mathlib.Combinatorics.Pigeonhole

/-!
# The representation invariant

`Rep hash cap c order free n t` ties the parts of a cache together: the recency list `order` and
the free list `free` share the pool between them, and the table `t` of `n` slots holds exactly
the nodes of the recency list. Each section takes one operation of the source and shows that it
runs without a fault and keeps the invariant; the evolution of `order` is in the statement.

Main results:

* `Rep.lookup_found`, `Rep.lookup_empty` — what a search finds.
* `Rep.promote`, `Rep.detach`, `Rep.insertNode` — the three things that operations do to the parts
  of the cache.
* `Rep.remove_found`, `Rep.evictLru` — the two ways to take a node out.

Deliberate scope limits:

* The invariant is about caches with a capacity below 2^31, for which the constructor establishes
  it.
-/

namespace LruCache

open LinearProbing

/-- The parts of the cache fit together: the two lists share the pool, the table has the nodes of
the recency list, and the sizes and the mask are right. -/
structure Rep (hash : UInt64 → Nat) (cap : Nat) (c : Cache) (order free : List Nat) (n : Nat)
    (t : Nat → Option Nat) : Prop where
  cap_pos : 0 < cap
  cap_lt : cap < 2 ^ 31
  capacity_eq : c.capacity = cap
  size_eq : c.size = order.length
  nodes_length : c.nodes.length = cap
  cover : order.length + free.length = cap
  lists : Lists c order free
  table : Table hash c n t
  sparse : cap < n
  mem : ∀ i, (∃ j < n, t j = some i) ↔ i ∈ order

section Basic

variable {hash : UInt64 → Nat} {cap n : Nat} {c : Cache} {order free : List Nat}
variable {t : Nat → Option Nat}

/-- The slot of a stored node. -/
theorem Rep.slot (h : Rep hash cap c order free n t) {i : Nat} (hi : i ∈ order) :
    ∃ j < n, t j = some i :=
  (h.mem i).mpr hi

/-- The table is never full: it has more slots than the pool has nodes. -/
theorem Rep.spare (h : Rep hash cap c order free n t) : ∃ j < n, t j = none := by
  by_contra hfull
  have hsome : ∀ j < n, ∃ i, t j = some i := by
    intro j hj
    cases hi : t j with
    | none => exact absurd ⟨j, hj, hi⟩ hfull
    | some i => exact ⟨i, rfl⟩
  have hmaps : ∀ j ∈ Finset.range n, (t j).getD 0 ∈ order.toFinset := by
    intro j hj
    rcases hsome j (Finset.mem_range.mp hj) with ⟨i, hi⟩
    rw [hi, Option.getD_some, List.mem_toFinset]
    exact (h.mem i).mp ⟨j, Finset.mem_range.mp hj, hi⟩
  have hcard : order.toFinset.card < (Finset.range n).card := by
    have h1 := List.toFinset_card_le order
    have h2 := h.cover
    have h3 := h.sparse
    rw [Finset.card_range]
    omega
  -- two of the slots would hold the same node
  rcases Finset.exists_ne_map_eq_of_card_lt_of_maps_to hcard hmaps with ⟨j, hj, j', hj', hne, heq⟩
  rcases hsome j (Finset.mem_range.mp hj) with ⟨i, hi⟩
  rcases hsome j' (Finset.mem_range.mp hj') with ⟨i', hi'⟩
  rw [hi, hi', Option.getD_some, Option.getD_some] at heq
  rw [← heq] at hi'
  exact hne (h.table.valid.inj j j' i i (Finset.mem_range.mp hj) (Finset.mem_range.mp hj') hi hi'
    rfl)

/-- Stored nodes with the same key are the same node. -/
theorem Rep.key_inj (h : Rep hash cap c order free n t) {i i' : Nat} (hi : i ∈ order)
    (hi' : i' ∈ order) (hkey : keyOf c.nodes i = keyOf c.nodes i') : i = i' := by
  rcases h.slot hi with ⟨j, hj, hj_eq⟩
  rcases h.slot hi' with ⟨j', hj', hj'_eq⟩
  have hjj' : j = j' := h.table.valid.inj j j' i i' hj hj' hj_eq hj'_eq hkey
  rw [hjj', hj'_eq] at hj_eq
  exact (Option.some.inj hj_eq).symm

/-- The loop for the key of a stored node finds it. -/
theorem Rep.lookup_found (h : Rep hash cap c order free n t) {i : Nat} (hi : i ∈ order) :
    ∃ j < n, t j = some i ∧ lookup hash c (keyOf c.nodes i) = .ok (.found j i) := by
  rcases h.slot hi with ⟨j, hj, hj_eq⟩
  exact ⟨j, hj, hj_eq, h.table.lookup_found hj hj_eq rfl⟩

/-- The loop for a key of no stored node ends at an empty slot where the key may be put. -/
theorem Rep.lookup_empty (h : Rep hash cap c order free n t) {key : UInt64}
    (hkey : ∀ i ∈ order, keyOf c.nodes i ≠ key) :
    ∃ j < n, lookup hash c key = .ok (.empty j) ∧ t j = none ∧
      ∀ i < n, hops n (hash key) i < hops n (hash key) j → t i ≠ none := by
  rcases h.spare with ⟨spare, hspare, hempty⟩
  refine h.table.lookup_empty hspare hempty ?_
  intro j hj i hi
  exact hkey i ((h.mem i).mp ⟨j, hj, hi⟩)

end Basic

/-! ## Promotion -/

section Promote

variable {hash : UInt64 → Nat} {cap n : Nat} {c : Cache} {a b free : List Nat} {i : Nat}
variable {t : Nat → Option Nat}

/-- A node can be taken to the front of a list without a change to its elements. -/
theorem mem_middle {x : Nat} : x ∈ a ++ i :: b ↔ x ∈ i :: (a ++ b) :=
  List.perm_middle.mem_iff

/-- A promoted node comes first; the table does not change. -/
theorem Rep.promote (h : Rep hash cap c (a ++ i :: b) free n t) :
    ∃ nodes head tail, promote c i = .ok { c with nodes := nodes, head := head, tail := tail } ∧
      Rep hash cap { c with nodes := nodes, head := head, tail := tail } (i :: (a ++ b)) free n t ∧
      SameData c.nodes nodes := by
  rcases h.lists.promote with ⟨nodes, head, tail, hrun, hlists, hdata⟩
  have hlen : (i :: (a ++ b)).length = (a ++ i :: b).length := by
    simp
    omega
  refine ⟨nodes, head, tail, hrun, ?_, hdata⟩
  refine
    { cap_pos := h.cap_pos
      cap_lt := h.cap_lt
      capacity_eq := h.capacity_eq
      size_eq := h.size_eq.trans hlen.symm
      nodes_length := hdata.length.trans h.nodes_length
      cover := by rw [hlen]; exact h.cover
      lists := hlists
      table := h.table.congr hdata rfl rfl
      sparse := h.sparse
      mem := ?_ }
  intro x
  rw [h.mem x, mem_middle]

end Promote

/-! ## Taking a node out

`remove` and `evict_lru` share this: the slot of a node is erased, the node is unlinked and put
on the free list. They do it in a different order, which does not matter, since the erasure reads
only the keys of the pool. -/

/-- The cache without the node `i`, that stands between `p` and `n`, and with the table
`table`. -/
def Cache.detached (c : Cache) (i : Nat) (p n : Option Nat) (table : List Int) : Cache :=
  { (c.unlinked p n).released i with hashTable := table }

section Detach

variable {hash : UInt64 → Nat} {cap n : Nat} {c : Cache} {a b free : List Nat} {i : Nat}
variable {t : Nat → Option Nat}

/-- A node that was unlinked can be freed. -/
theorem Lists.freeNode_run (h : Lists c (a ++ i :: b) free) :
    freeNode (c.unlinked a.getLast? b.head?) i =
      .ok ((c.unlinked a.getLast? b.head?).released i) := by
  refine freeNode_eq ?_
  rw [h.unlinked_sameData.length]
  exact h.order_lt (by simp)

/-- Keys and values stay. -/
theorem Lists.detached_sameData (h : Lists c (a ++ i :: b) free) (table : List Int) :
    SameData c.nodes (c.detached i a.getLast? b.head? table).nodes := by
  refine h.unlinked_sameData.trans (released_sameData ?_)
  rw [h.unlinked_sameData.length]
  exact h.order_lt (by simp)

/-- The code of `remove` and `evict_lru` that takes a node out of the table and of the list. -/
theorem Rep.detach (h : Rep hash cap c (a ++ i :: b) free n t) :
    ∃ j < n, t j = some i ∧ ∃ table t',
      eraseSlot hash c j = .ok { c with hashTable := table } ∧
      Rep hash cap (c.detached i a.getLast? b.head? table) (a ++ b) (i :: free) n t' := by
  have hi : i ∈ a ++ i :: b := by simp
  rcases h.slot hi with ⟨j, hj, hj_eq⟩
  rcases h.spare with ⟨spare, hspare, hempty⟩
  rcases h.table.eraseSlot hj hj_eq hspare hempty with ⟨table, t', hrun, htable, hent, _⟩
  refine ⟨j, hj, hj_eq, table, t', hrun, ?_⟩
  have hdata := h.lists.detached_sameData table
  have hi_lt : i < (c.unlinked a.getLast? b.head?).nodes.length := by
    rw [h.lists.unlinked_sameData.length]
    exact h.lists.order_lt hi
  -- the lists are changed as `unlink_node` and `free_node` do it, the table by the erasure
  have hlists := h.lists.unlink.release hi_lt h.lists.unlinked_fresh
  have hlen : (a ++ i :: b).length = (a ++ b).length + 1 := by
    simp
    omega
  have hsize : (c.detached i a.getLast? b.head? table).size = decr c.size := by
    simp only [Cache.detached, Cache.released, Cache.unlinked]
  refine
    { cap_pos := h.cap_pos
      cap_lt := h.cap_lt
      capacity_eq := h.capacity_eq
      size_eq := ?_
      nodes_length := hdata.length.trans h.nodes_length
      cover := ?_
      lists := hlists.congr rfl rfl rfl rfl rfl rfl
      table := htable.congr hdata rfl rfl
      sparse := h.sparse
      mem := ?_ }
  · rw [hsize, h.size_eq, hlen, decr]
    simp
  · have := h.cover
    rw [List.length_cons]
    omega
  · -- the entry of slot `j` is the only one for `i`
    intro x
    rw [hent x]
    have hnotin : i ∉ a ++ b := fun hmem => h.lists.unlinked_fresh (List.mem_append_left _ hmem)
    constructor
    · rintro ⟨j', hj', hx, hne⟩
      have hmem := (h.mem x).mp ⟨j', hj', hx⟩
      rw [mem_middle, List.mem_cons] at hmem
      rcases hmem with rfl | hmem
      · exact absurd (h.table.valid.inj j' j x x hj' hj hx hj_eq rfl) hne
      · exact hmem
    · intro hmem
      have hx : x ∈ a ++ i :: b := mem_middle.mpr (List.mem_cons_of_mem i hmem)
      rcases h.slot hx with ⟨j', hj', hj'_eq⟩
      refine ⟨j', hj', hj'_eq, ?_⟩
      rintro rfl
      rw [hj_eq] at hj'_eq
      rw [Option.some.inj hj'_eq] at hnotin
      exact hnotin hmem

end Detach

/-! ## Eviction and removal -/

section Evict

variable {hash : UInt64 → Nat} {cap n : Nat} {c : Cache} {a b free : List Nat} {i : Nat}
variable {t : Nat → Option Nat}

/-- `remove` of the key of a stored node takes the node out. -/
theorem Rep.remove_run (h : Rep hash cap c (a ++ i :: b) free n t) {j : Nat} (hj : j < n)
    (hj_eq : t j = some i) {table : List Int}
    (herase : eraseSlot hash c j = .ok { c with hashTable := table }) :
    c.remove hash (keyOf c.nodes i) = .ok (true, c.detached i a.getLast? b.head? table) := by
  have hlookup := h.table.lookup_found hj hj_eq rfl
  have hdata := h.lists.detached_sameData table
  -- `remove` repairs the table only after the node is on the free list: its key is still there
  have herase' : eraseSlot hash ((c.unlinked a.getLast? b.head?).released i) j =
      .ok (c.detached i a.getLast? b.head? table) :=
    eraseSlot_congr herase hdata rfl rfl
  simp only [Cache.remove, hlookup, h.lists.unlinkNode_run, h.lists.freeNode_run, herase', bind,
    Except.bind]
  rfl

/-- `evict_lru` takes out the last node of the recency list. -/
theorem Rep.evictLru_run (h : Rep hash cap c (a ++ [i]) free n t) {j : Nat} (hj : j < n)
    (hj_eq : t j = some i) {table : List Int}
    (herase : eraseSlot hash c j = .ok { c with hashTable := table }) :
    evictLru hash c = .ok { c.detached i a.getLast? none table with
      evictions := incr c.evictions } := by
  have htail : c.tail = (i : Int) := by
    rw [h.lists.tail_eq]
    simp
  have hi : i ∈ a ++ [i] := List.mem_append_right a (List.mem_singleton_self i)
  have hnode := readAt_nodes (h.lists.order_lt hi)
  have hprobe : probe c.hashMask (probeNode c i) c.hashTable.length
      (hash (nodeOf c.nodes i).key) = .ok j := h.table.probeNode_found hj hj_eq
  -- `evict_lru` repairs the table first: the lists are as they were
  have hlists : Lists { c with hashTable := table } (a ++ [i]) free :=
    h.lists.congr rfl rfl rfl rfl rfl rfl
  have hunlink := hlists.unlinkNode_run
  have hfree := hlists.freeNode_run
  simp only [List.head?_nil] at hunlink hfree
  rw [← htail] at hnode hprobe hunlink hfree
  simp only [LruCache.evictLru, hnode, hprobe, herase, hunlink, hfree, bind, Except.bind]
  rfl

/-- `remove` of a stored key. -/
theorem Rep.remove_found (h : Rep hash cap c (a ++ i :: b) free n t) :
    ∃ table t', c.remove hash (keyOf c.nodes i) =
        .ok (true, c.detached i a.getLast? b.head? table) ∧
      Rep hash cap (c.detached i a.getLast? b.head? table) (a ++ b) (i :: free) n t' := by
  rcases h.detach with ⟨j, hj, hj_eq, table, t', herase, hrep⟩
  exact ⟨table, t', h.remove_run hj hj_eq herase, hrep⟩

/-- `remove` of a key that is not stored. -/
theorem Rep.remove_absent {order : List Nat} (h : Rep hash cap c order free n t) {key : UInt64}
    (hkey : ∀ i ∈ order, keyOf c.nodes i ≠ key) : c.remove hash key = .ok (false, c) := by
  rcases h.lookup_empty hkey with ⟨j, _, hrun, _⟩
  simp only [Cache.remove, hrun, bind, Except.bind]
  rfl

/-- The invariant does not look at the statistics. -/
theorem Rep.stats {order : List Nat} (h : Rep hash cap c order free n t)
    (hits misses evictions : Nat) :
    Rep hash cap { c with hits := hits, misses := misses, evictions := evictions } order free n t :=
  { cap_pos := h.cap_pos
    cap_lt := h.cap_lt
    capacity_eq := h.capacity_eq
    size_eq := h.size_eq
    nodes_length := h.nodes_length
    cover := h.cover
    lists := h.lists.congr rfl rfl rfl rfl rfl rfl
    table := h.table.congr (SameData.refl _) rfl rfl
    sparse := h.sparse
    mem := h.mem }

/-- `evict_lru` of a cache that is not empty. -/
theorem Rep.evictLru (h : Rep hash cap c (a ++ [i]) free n t) :
    ∃ table t', evictLru hash c = .ok { c.detached i a.getLast? none table with
        evictions := incr c.evictions } ∧
      Rep hash cap { c.detached i a.getLast? none table with evictions := incr c.evictions }
        a (i :: free) n t' := by
  rcases h.detach with ⟨j, hj, hj_eq, table, t', herase, hrep⟩
  rw [List.append_nil, List.head?_nil] at hrep
  exact ⟨table, t', h.evictLru_run hj hj_eq herase, hrep.stats _ _ _⟩

end Evict

/-! ## Insertion -/

section Insert

variable {hash : UInt64 → Nat} {cap n : Nat} {c : Cache} {order free : List Nat} {i : Nat}
variable {t : Nat → Option Nat}

/-- A new key goes into the first empty slot from its hash index, and its node to the front. -/
theorem Rep.insertNode (h : Rep hash cap c order (i :: free) n t) {j : Nat} {key : UInt64}
    (value : UInt64) (hj : j < n) (hempty : t j = none)
    (hfirst : ∀ j' < n, hops n (hash key) j' < hops n (hash key) j → t j' ≠ none)
    (hkey : ∀ i' ∈ order, keyOf c.nodes i' ≠ key) :
    ∃ nodes head tail table, insertNode c j key value = .ok { c with
        nodes := nodes, head := head, tail := tail, freeHead := ptr free.head?
        size := incr c.size, hashTable := table } ∧
      Rep hash cap { c with
        nodes := nodes, head := head, tail := tail, freeHead := ptr free.head?
        size := incr c.size, hashTable := table } (i :: order) free n
        (Function.update t j (some i)) ∧
      keyOf nodes = Function.update (keyOf c.nodes) i key ∧
      valueOf nodes = Function.update (valueOf c.nodes) i value := by
  rcases h.lists.allocate with ⟨halloc, hlists₁, hi, hfresh⟩
  let c₁ : Cache := { c with freeHead := ptr free.head?, size := incr c.size }
  -- the node gets its key and value
  let nodes₁ := c.nodes.set i { nodeOf c.nodes i with key := key, value := value }
  let c₂ : Cache := { c₁ with nodes := nodes₁ }
  have hset : c₁.setNode (i : Int) (fun node => { node with key := key, value := value }) =
      .ok c₂ := setNode_ok (c := c₁) hi _
  have hlen₁ : nodes₁.length = c.nodes.length := List.length_set
  have hkey₁ : keyOf nodes₁ = Function.update (keyOf c.nodes) i key := keyOf_set hi
  have hvalue₁ : valueOf nodes₁ = Function.update (valueOf c.nodes) i value := valueOf_set hi
  have hlists₂ : Lists c₂ order free := hlists₁.writeData hi rfl rfl
  -- the slot gets the node
  have hwrite := (h.table.slots.write hj (some i)).1
  let c₃ : Cache := { c₂ with hashTable := c.hashTable.set j i }
  have hslot : c₂.setSlot j i = .ok c₃ := by
    rw [Cache.setSlot]
    show (updateAt c.hashTable (j : Int) (fun _ => (i : Int)) >>= _) = _
    rw [ptr_some] at hwrite
    rw [hwrite]
    rfl
  have htable₃ : Table hash c₃ n (Function.update t j (some i)) := by
    refine h.table.enter hj hi hfirst ?_ hlen₁ hkey₁ rfl rfl
    intro j' hj' i' hi'
    have hmem := (h.mem i').mp ⟨j', hj', hi'⟩
    exact ⟨fun heq => hfresh (List.mem_append_left _ (heq ▸ hmem)), hkey i' hmem⟩
  have hlists₃ : Lists c₃ order free := hlists₂.congr rfl rfl rfl rfl rfl rfl
  -- the node goes to the front
  have hi₃ : i < c₃.nodes.length := by
    show i < nodes₁.length
    rw [hlen₁]
    exact hi
  rcases hlists₃.link hi₃ hfresh with ⟨nodes₂, tail, hlink, hlists₄, hdata₄⟩
  refine ⟨nodes₂, i, tail, c.hashTable.set j i, ?_, ?_, hdata₄.key.trans hkey₁,
    hdata₄.value.trans hvalue₁⟩
  · rw [LruCache.insertNode, halloc]
    show (c₁.setNode (i : Int) (fun node => { node with key := key, value := value }) >>= fun c =>
      c.setSlot j i >>= fun c => linkNode c i) = _
    rw [hset]
    show (c₂.setSlot j i >>= fun c => linkNode c i) = _
    rw [hslot]
    exact hlink
  · have hcover := h.cover
    have hlt := h.cap_lt
    rw [List.length_cons] at hcover
    refine
      { cap_pos := h.cap_pos
        cap_lt := h.cap_lt
        capacity_eq := h.capacity_eq
        size_eq := ?_
        nodes_length := hdata₄.length.trans (hlen₁.trans h.nodes_length)
        cover := by rw [List.length_cons]; omega
        lists := hlists₄
        table := htable₃.congr hdata₄ rfl rfl
        sparse := h.sparse
        mem := ?_ }
    · show incr c.size = _
      rw [incr, wrap, h.size_eq, List.length_cons, Nat.mod_eq_of_lt]
      omega
    · intro x
      rw [List.mem_cons, ← h.mem x]
      exact exists_insert_iff hj hempty

end Insert

end LruCache
