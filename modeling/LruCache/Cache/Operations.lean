import LruCache.Cache.Start
import LruCache.Lib.Recency

/-!
# The operations on the pairs of the cache

`Holds hash cap c items` is the abstraction relation: the recency list of `c` stores the pairs
`items`, most recent first. Each operation of the source has one lemma here that says what it
returns, what the cache holds afterwards, and what it does to the statistics.

Main results:

* `Holds.put_mem`, `Holds.put_new`, `Holds.get_hit`, `Holds.get_miss`, `Holds.remove_mem`,
  `Holds.remove_absent`, `Holds.clear` — one lemma for each way that a member function can go.
* `Holds.display` — what `display` prints.

Deliberate scope limits:

* The statistics are those of the code, which wrap around; the capacity is below 2^31, as the
  invariant asks for it.
-/

namespace LruCache

open LinearProbing Recency

/-! ## The pairs of a list of nodes -/

/-- The pairs stored in the nodes `order`. -/
def itemsOf (nodes : List Node) (order : List Nat) : List (UInt64 × UInt64) :=
  order.map fun i => (keyOf nodes i, valueOf nodes i)

section Items

variable {nodes nodes' : List Node} {order a b : List Nat} {i : Nat}

/-- The keys of the pairs are those of the nodes. -/
theorem keys_itemsOf : keys (itemsOf nodes order) = order.map (keyOf nodes) := by
  simp [keys, itemsOf]

theorem length_itemsOf : (itemsOf nodes order).length = order.length := by
  simp [itemsOf]

/-- The pairs of two parts of the list. -/
theorem itemsOf_append : itemsOf nodes (a ++ b) = itemsOf nodes a ++ itemsOf nodes b := by
  simp [itemsOf]

theorem itemsOf_cons :
    itemsOf nodes (i :: order) = (keyOf nodes i, valueOf nodes i) :: itemsOf nodes order := rfl

/-- The last pair is that of the last node. -/
theorem itemsOf_dropLast : itemsOf nodes order.dropLast = (itemsOf nodes order).dropLast := by
  simp [itemsOf, List.map_dropLast]

/-- What leaves keys and values leaves the pairs. -/
theorem SameData.itemsOf (h : SameData nodes nodes') (order : List Nat) :
    itemsOf nodes' order = itemsOf nodes order := by
  rw [LruCache.itemsOf, LruCache.itemsOf, h.key, h.value]

/-- Writing a node that is not in the list does not change its pairs. -/
theorem itemsOf_update {key value : UInt64} (hi : i ∉ order)
    (hkey : keyOf nodes' = Function.update (keyOf nodes) i key)
    (hvalue : valueOf nodes' = Function.update (valueOf nodes) i value) :
    itemsOf nodes' order = itemsOf nodes order := by
  refine List.map_congr_left ?_
  intro j hj
  have hne : j ≠ i := fun heq => hi (heq ▸ hj)
  rw [hkey, hvalue, Function.update_of_ne hne, Function.update_of_ne hne]

/-- A stored key is that of a node, at which the list can be split. -/
theorem mem_keys_itemsOf {key : UInt64} :
    key ∈ keys (itemsOf nodes order) ↔ ∃ a i b, order = a ++ i :: b ∧ keyOf nodes i = key := by
  rw [keys_itemsOf, List.mem_map]
  constructor
  · rintro ⟨i, hi, hkey⟩
    rcases List.append_of_mem hi with ⟨a, b, hsplit⟩
    exact ⟨a, i, b, hsplit, hkey⟩
  · rintro ⟨a, i, b, hsplit, hkey⟩
    refine ⟨i, ?_, hkey⟩
    rw [hsplit]
    simp

/-- A key that is not stored is that of no node. -/
theorem keyOf_ne_of_notMem {key : UInt64} (h : key ∉ keys (itemsOf nodes order)) :
    ∀ i ∈ order, keyOf nodes i ≠ key := by
  rw [keys_itemsOf, List.mem_map] at h
  intro i hi hkey
  exact h ⟨i, hi, hkey⟩

end Items

section Room

variable {hash : UInt64 → Nat} {cap n : Nat} {c : Cache} {order free : List Nat}
variable {t : Nat → Option Nat}

/-- Stored keys are distinct. -/
theorem Rep.keys_nodup (h : Rep hash cap c order free n t) :
    (keys (itemsOf c.nodes order)).Nodup := by
  rw [keys_itemsOf]
  refine List.Nodup.map_on ?_ h.lists.order_nodup
  intro i hi i' hi' hkey
  exact h.key_inj hi hi' hkey

/-! ## Room for a new key -/

/-- Step 2 of `put`: there is a node on the free list afterwards, and an empty slot for the
key. A full cache has lost the last node of its recency list, and nothing else. -/
theorem Rep.makeRoom (h : Rep hash cap c order free n t) {key : UInt64} {idx : Nat}
    (hidx : idx < n) (hempty : t idx = none)
    (hfirst : ∀ j < n, hops n (hash key) j < hops n (hash key) idx → t j ≠ none)
    (hkey : ∀ i ∈ order, keyOf c.nodes i ≠ key) :
    ∃ c' j i free' t', makeRoom hash c key idx = .ok (c', j) ∧
      Rep hash cap c' (if order.length = cap then order.dropLast else order) (i :: free') n t' ∧
      SameData c.nodes c'.nodes ∧ j < n ∧ t' j = none ∧
      (∀ j' < n, hops n (hash key) j' < hops n (hash key) j → t' j' ≠ none) ∧
      c'.hits = c.hits ∧ c'.misses = c.misses ∧
      c'.evictions = if order.length = cap then incr c.evictions else c.evictions := by
  have hcover := h.cover
  by_cases hfull : order.length = cap
  · -- full: the last node goes to the free list, and the slot is looked for again
    have hsize : c.size = c.capacity := by
      rw [h.size_eq, h.capacity_eq, hfull]
    rcases List.eq_nil_or_concat order with rfl | ⟨a, i, rfl⟩
    · have hpos := h.cap_pos
      rw [List.length_nil] at hfull
      omega
    · rw [List.concat_eq_append] at h hkey hfull hcover ⊢
      rcases h.evictLru with ⟨table, t', hrun, hrep⟩
      rcases hrep.spare with ⟨spare, hspare, hspare_empty⟩
      rcases hrep.table.probeEmpty_found hspare hspare_empty key with
        ⟨j, hj, hprobe, hj_empty, hj_first⟩
      refine ⟨{ c.detached i a.getLast? none table with evictions := incr c.evictions }, j, i, free,
        t', ?_, ?_, h.lists.detached_sameData table, hj, hj_empty, hj_first, rfl, rfl, ?_⟩
      · simp only [LruCache.makeRoom, if_pos hsize, hrun, bind, Except.bind]
        rw [hprobe]
        rfl
      · rw [if_pos hfull, List.dropLast_concat]
        exact hrep
      · rw [if_pos hfull]
  · have hsize : c.size ≠ c.capacity := by
      rw [h.size_eq, h.capacity_eq]
      exact hfull
    cases free with
    | nil =>
      rw [List.length_nil] at hcover
      omega
    | cons i free =>
      refine ⟨c, idx, i, free, t, ?_, ?_, SameData.refl _, hidx, hempty, hfirst, rfl, rfl, ?_⟩
      · rw [LruCache.makeRoom, if_neg hsize]
        rfl
      · rw [if_neg hfull]
        exact h
      · rw [if_neg hfull]

end Room

/-! ## The abstraction relation -/

/-- The cache stores the pairs `items`, most recent first. -/
def Holds (hash : UInt64 → Nat) (cap : Nat) (c : Cache) (items : List (UInt64 × UInt64)) : Prop :=
  ∃ order free n t, Rep hash cap c order free n t ∧ itemsOf c.nodes order = items

section Holds

variable {hash : UInt64 → Nat} {cap : Nat} {c : Cache} {items : List (UInt64 × UInt64)}
variable {k v : UInt64}

/-- `size_` counts the pairs. -/
theorem Holds.size_eq (h : Holds hash cap c items) : c.size = items.length := by
  rcases h with ⟨order, free, n, t, hrep, rfl⟩
  rw [hrep.size_eq, length_itemsOf]

/-- Moving the node of a present key to the front moves its pair to the front. -/
theorem itemsOf_promoted {nodes : List Node} {a b : List Nat} {i : Nat}
    (hnd : (keys (itemsOf nodes (a ++ i :: b))).Nodup) :
    itemsOf nodes (a ++ b) = erase (keyOf nodes i) (itemsOf nodes (a ++ i :: b)) := by
  rw [itemsOf_append, itemsOf_cons] at hnd
  rw [itemsOf_append, itemsOf_append, itemsOf_cons, erase_split hnd]

/-- `put` of a present key. -/
theorem Holds.put_mem (h : Holds hash cap c items) (hk : k ∈ keys items) :
    ∃ c', c.put hash k v = .ok c' ∧ Holds hash cap c' ((k, v) :: erase k items) ∧
      c'.hits = c.hits ∧ c'.misses = c.misses ∧ c'.evictions = c.evictions := by
  rcases h with ⟨order, free, n, t, hrep, rfl⟩
  rcases mem_keys_itemsOf.mp hk with ⟨a, i, b, rfl, rfl⟩
  have hi : i < c.nodes.length := hrep.lists.order_lt (by simp)
  rcases hrep.lookup_found (i := i) (by simp) with ⟨j, hj, hj_eq, hlookup⟩
  -- the value is overwritten
  let nodes₁ := c.nodes.set i { nodeOf c.nodes i with value := v }
  let c₁ : Cache := { c with nodes := nodes₁ }
  have hlen₁ : nodes₁.length = c.nodes.length := List.length_set
  have hkey₁ : keyOf nodes₁ = keyOf c.nodes := by
    rw [keyOf_set hi]
    exact Function.update_eq_self i (keyOf c.nodes)
  have hvalue₁ : valueOf nodes₁ = Function.update (valueOf c.nodes) i v := valueOf_set hi
  have htable₁ : Table hash c₁ n t := by
    refine ⟨hrep.table.hash_lt, hrep.table.pow, hrep.table.mask_eq, hrep.table.slots, ?_, ?_⟩
    · intro j' hj' i' hi'
      show i' < nodes₁.length
      rw [hlen₁]
      exact hrep.table.node_lt j' hj' i' hi'
    · show Valid n (keyOf nodes₁) hash t
      rw [hkey₁]
      exact hrep.table.valid
  have hrep₁ : Rep hash cap c₁ (a ++ i :: b) free n t :=
    { cap_pos := hrep.cap_pos
      cap_lt := hrep.cap_lt
      capacity_eq := hrep.capacity_eq
      size_eq := hrep.size_eq
      nodes_length := hlen₁.trans hrep.nodes_length
      cover := hrep.cover
      lists := hrep.lists.writeData hi rfl rfl
      table := htable₁
      sparse := hrep.sparse
      mem := hrep.mem }
  -- the node moves to the front
  rcases hrep₁.promote with ⟨nodes₂, head, tail, hpromote, hrep₂, hdata₂⟩
  have hnd : i ∉ a ++ b := by
    have hperm : (a ++ i :: b).Perm (i :: (a ++ b)) := List.perm_middle
    exact (List.nodup_cons.mp (hperm.nodup_iff.mp hrep.lists.order_nodup)).1
  refine ⟨_, ?_, ⟨_, _, _, _, hrep₂, ?_⟩, rfl, rfl, rfl⟩
  · rw [Cache.put, hlookup]
    show (c.setNode (i : Int) (fun node => { node with value := v }) >>= fun c =>
      promote c (i : Int)) = _
    rw [setNode_ok hi]
    exact hpromote
  · show itemsOf nodes₂ (i :: (a ++ b)) = _
    have hself : keyOf c.nodes = Function.update (keyOf c.nodes) i (keyOf c.nodes i) :=
      (Function.update_eq_self i _).symm
    rw [hdata₂.itemsOf, itemsOf_cons, itemsOf_update hnd (hkey₁.trans hself) hvalue₁,
      itemsOf_promoted hrep.keys_nodup, hkey₁, hvalue₁, Function.update_self]

/-- `put` of a new key: the last pair is dropped iff the cache is full. -/
theorem Holds.put_new (h : Holds hash cap c items) (hk : k ∉ keys items) :
    ∃ c', c.put hash k v = .ok c' ∧ Holds hash cap c' ((k, v) :: room cap items) ∧
      c'.hits = c.hits ∧ c'.misses = c.misses ∧
      c'.evictions = if items.length = cap then incr c.evictions else c.evictions := by
  rcases h with ⟨order, free, n, t, hrep, rfl⟩
  have hkey := keyOf_ne_of_notMem hk
  rcases hrep.lookup_empty hkey with ⟨idx, hidx, hlookup, hempty, hfirst⟩
  rcases hrep.makeRoom hidx hempty hfirst hkey with
    ⟨c₁, j, i, free₁, t₁, hroom, hrep₁, hdata₁, hj, hj_empty, hj_first, hhits, hmisses, hevict⟩
  have hitems₁ : itemsOf c₁.nodes (if order.length = cap then order.dropLast else order) =
      room cap (itemsOf c.nodes order) := by
    rw [hdata₁.itemsOf, room, length_itemsOf]
    split
    · exact itemsOf_dropLast
    · rfl
  -- what is left after an eviction still does not have the key
  have hkey₁ : ∀ i' ∈ (if order.length = cap then order.dropLast else order),
      keyOf c₁.nodes i' ≠ k := by
    refine keyOf_ne_of_notMem ?_
    rw [hitems₁]
    exact fun hmem => hk (((room_sublist cap _).map Prod.fst).subset hmem)
  rcases hrep₁.insertNode v hj hj_empty hj_first hkey₁ with
    ⟨nodes₂, head, tail, table, hinsert, hrep₂, hkey₂, hvalue₂⟩
  have hi : i ∉ (if order.length = cap then order.dropLast else order) :=
    fun hmem => hrep₁.lists.disjoint hmem List.mem_cons_self
  -- an old slot of the key is never used after an eviction: `makeRoom` has looked again
  refine ⟨_, ?_, ⟨_, _, _, _, hrep₂, ?_⟩, hhits, hmisses, ?_⟩
  · rw [Cache.put, hlookup]
    show (makeRoom hash c k idx >>= fun p => insertNode p.1 p.2 k v) = _
    rw [hroom]
    exact hinsert
  · show itemsOf nodes₂ (i :: _) = _
    rw [itemsOf_cons, itemsOf_update hi hkey₂ hvalue₂, hkey₂, hvalue₂, Function.update_self,
      Function.update_self, hitems₁]
  · rw [length_itemsOf]
    exact hevict

/-- `get` of a present key. -/
theorem Holds.get_hit (h : Holds hash cap c items) (hk : items.lookup k = some v) :
    ∃ c', c.get hash k = .ok ({ found := true, value := v }, c') ∧
      Holds hash cap c' ((k, v) :: erase k items) ∧
      c'.hits = incr c.hits ∧ c'.misses = c.misses ∧ c'.evictions = c.evictions := by
  rcases h with ⟨order, free, n, t, hrep, rfl⟩
  have hmem : k ∈ keys (itemsOf c.nodes order) := by
    rw [← lookup_isSome, hk]
    rfl
  rcases mem_keys_itemsOf.mp hmem with ⟨a, i, b, rfl, rfl⟩
  have hvalue : valueOf c.nodes i = v := by
    have hpair : (keyOf c.nodes i, valueOf c.nodes i) ∈ itemsOf c.nodes (a ++ i :: b) := by
      rw [itemsOf_append, itemsOf_cons]
      simp
    rw [lookup_of_mem hrep.keys_nodup hpair] at hk
    exact Option.some.inj hk
  rcases hrep.slot (i := i) (by simp) with ⟨j, hj, hj_eq⟩
  have hfind : findNode hash c (keyOf c.nodes i) = .ok (i : Int) :=
    hrep.table.findNode_found hj hj_eq rfl
  -- `++hits_` comes before the promotion, the value is read after it
  rcases (hrep.stats (incr c.hits) c.misses c.evictions).promote with
    ⟨nodes₁, head, tail, hpromote, hrep₁, hdata₁⟩
  refine ⟨_, ?_, ⟨_, _, _, _, hrep₁, ?_⟩, rfl, rfl, rfl⟩
  · have hread : readAt nodes₁ (i : Int) = .ok (nodeOf nodes₁ i) := by
      refine readAt_nodes ?_
      rw [hdata₁.length]
      exact hrep.lists.order_lt (by simp)
    have hvalue₁ : (nodeOf nodes₁ i).value = v := (congrFun hdata₁.value i).trans hvalue
    simp only [Cache.get, hfind, natCast_ne_neg_one, if_false, hpromote, hread, hvalue₁, bind,
      Except.bind]
    rfl
  · show itemsOf nodes₁ (i :: (a ++ b)) = _
    rw [hdata₁.itemsOf, itemsOf_cons, itemsOf_promoted hrep.keys_nodup, hvalue]

/-- `get` of a key that is not stored. -/
theorem Holds.get_miss (h : Holds hash cap c items) (hk : k ∉ keys items) :
    ∃ c', c.get hash k = .ok ({ found := false, value := 0 }, c') ∧ Holds hash cap c' items ∧
      c'.hits = c.hits ∧ c'.misses = incr c.misses ∧ c'.evictions = c.evictions := by
  rcases h with ⟨order, free, n, t, hrep, rfl⟩
  rcases hrep.lookup_empty (keyOf_ne_of_notMem hk) with ⟨j, _, hlookup, _⟩
  have hfind : findNode hash c k = .ok (-1) := by
    rw [findNode, hlookup]
    rfl
  refine ⟨_, ?_, ⟨_, _, _, _, hrep.stats c.hits (incr c.misses) c.evictions, rfl⟩, rfl, rfl, rfl⟩
  rw [Cache.get, hfind]
  rfl

/-- `remove` of a present key. -/
theorem Holds.remove_mem (h : Holds hash cap c items) (hk : k ∈ keys items) :
    ∃ c', c.remove hash k = .ok (true, c') ∧ Holds hash cap c' (erase k items) ∧
      c'.hits = c.hits ∧ c'.misses = c.misses ∧ c'.evictions = c.evictions := by
  rcases h with ⟨order, free, n, t, hrep, rfl⟩
  rcases mem_keys_itemsOf.mp hk with ⟨a, i, b, rfl, rfl⟩
  rcases hrep.remove_found with ⟨table, t', hrun, hrep'⟩
  refine ⟨_, hrun, ⟨_, _, _, _, hrep', ?_⟩, rfl, rfl, rfl⟩
  rw [(hrep.lists.detached_sameData table).itemsOf]
  exact itemsOf_promoted hrep.keys_nodup

/-- `remove` of a key that is not stored. -/
theorem Holds.remove_absent (h : Holds hash cap c items) (hk : k ∉ keys items) :
    c.remove hash k = .ok (false, c) := by
  rcases h with ⟨order, free, n, t, hrep, rfl⟩
  exact hrep.remove_absent (keyOf_ne_of_notMem hk)

/-- `clear` forgets the pairs and the statistics. -/
theorem Holds.clear (h : Holds hash cap c items) :
    ∃ c', c.clear = .ok c' ∧ Holds hash cap c' [] ∧
      c'.hits = 0 ∧ c'.misses = 0 ∧ c'.evictions = 0 := by
  rcases h with ⟨order, free, n, t, hrep, rfl⟩
  rcases hrep.clear with ⟨c', hrun, hhits, hmisses, hevict, hrep'⟩
  exact ⟨c', hrun, ⟨_, _, _, _, hrep', rfl⟩, hhits, hmisses, hevict⟩

end Holds

/-! ## Display -/

section Display

variable {formatter : Option (UInt64 → String)}

/-- The lines that `display` prints for the pairs from position `index` on. -/
def itemLines (formatter : Option (UInt64 → String)) : Nat → List (UInt64 × UInt64) → String
  | _, [] => ""
  | index, (key, value) :: items =>
      displayLine formatter index key value ++ itemLines formatter (index + 1) items

/-- The walk of `display` along a chain of nodes prints their pairs in order. -/
theorem displayLoop_chain {nodes : List Node} {order : List Nat} {fuel index : Nat}
    (hchain : LinkedPool.Chain ptr (nextOf nodes) order) (hlt : ∀ i ∈ order, i < nodes.length)
    (hfuel : order.length < fuel) :
    displayLoop formatter nodes fuel (ptr order.head?) index =
      .ok (itemLines formatter index (itemsOf nodes order)) := by
  -- on the chain; the fuel outlasts it, so the walk ends at `-1`
  induction order generalizing fuel index with
  | nil =>
    cases fuel with
    | zero => omega
    | succ fuel => rfl
  | cons i order ih =>
    cases fuel with
    | zero => omega
    | succ fuel =>
      have hlink := LinkedPool.chain_cons.mp hchain
      have hnode := readAt_nodes (hlt i List.mem_cons_self)
      have hnext : (nodeOf nodes i).next = ptr order.head? := hlink.1
      have hrest : displayLoop formatter nodes fuel (ptr order.head?) (index + 1) =
          .ok (itemLines formatter (index + 1) (itemsOf nodes order)) :=
        ih hlink.2 (fun j hj => hlt j (List.mem_cons_of_mem i hj)) (by simpa using hfuel)
      simp only [displayLoop, List.head?_cons, ptr_some, natCast_ne_neg_one, if_false, hnode, hnext,
        hrest, bind, Except.bind]
      rfl

/-- `display` prints the pairs from most to least recent. -/
theorem Holds.display {hash : UInt64 → Nat} {cap : Nat} {c : Cache}
    {items : List (UInt64 × UInt64)} (h : Holds hash cap c items) :
    c.display formatter = .ok (if items.length = 0 then "(cache is empty)\n" else
      "Cache (" ++ toString items.length ++ "/" ++ toString cap ++ ") [MRU -> LRU]:\n" ++
        itemLines formatter 1 items) := by
  have hsize := h.size_eq
  rcases h with ⟨order, free, n, t, hrep, rfl⟩
  have hlen : order.length < c.nodes.length + 1 := by
    have := hrep.cover
    rw [hrep.nodes_length]
    omega
  have hloop : displayLoop formatter c.nodes (c.nodes.length + 1) (ptr order.head?) 1 =
      .ok (itemLines formatter 1 (itemsOf c.nodes order)) :=
    displayLoop_chain hrep.lists.linked.chain (fun _ hi => hrep.lists.order_lt hi) hlen
  rw [← hrep.lists.head_eq] at hloop
  rw [Cache.display, hsize]
  split
  · rfl
  · rw [hloop, hrep.capacity_eq]
    rfl

end Display

end LruCache
