import LruCache.Cache.Refinement

/-!
# The loops end

No loop of the cache has a counter. In the embedding a loop that goes on for too long and an
access outside an array are faults, so that a loop ends within its arrays if and only if the
function with the loop has a result. `LoopsEnd` says this of each loop and of each member
function, for a cache in any reachable state.

Main results:

* `Sim.loopsEnd` — all loops end in a cache that simulates the reference.
* `loops_end` — so they do after any calls, for any hash function into the table.

Deliberate scope limits:

* The bounds are those of the embedding: a loop over the table that has not ended after a turn for
  each slot is a fault. How many slots are really read is counted in `LruCache.Cache.Probes`.
-/

namespace LruCache

open LinearProbing Recency Transition

/-- Every loop of the code ends, and reads and writes within its array. There is a field for each
loop, and one for the member functions. -/
structure LoopsEnd (hash : UInt64 → Nat) (c : Cache) : Prop where
  /-- The loop of `find_node`, of `put` and of `remove` stops at an empty slot or at the key. -/
  search : ∀ key,
    (∃ j, lookup hash c key = .ok (.empty j) ∧ c.hashTable[j]? = some (-1)) ∨
      ∃ (j i : Nat) (node : Node), lookup hash c key = .ok (.found j i) ∧
        c.hashTable[j]? = some (i : Int) ∧ c.nodes[i]? = some node ∧ node.key = key
  /-- The shift loop of `remove` and of `evict_lru`, from whatever occupied slot. -/
  shift : ∀ j i : Nat, c.hashTable[j]? = some (i : Int) → ∃ c', eraseSlot hash c j = .ok c'
  /-- The loop of `evict_lru`, which does not stop at empty slots, meets the last node. -/
  evictSearch : 0 < c.size → ∃ node j, readAt c.nodes c.tail = .ok node ∧
    probe c.hashMask (probeNode c c.tail) c.hashTable.length (hash node.key) = .ok j ∧
    c.hashTable[j]? = some c.tail
  /-- The second loop of `put`, after an eviction. -/
  reprobe : 0 < c.size → ∃ c', evictLru hash c = .ok c' ∧ ∀ key, ∃ j,
    probe c'.hashMask (probeEmpty c') c'.hashTable.length (hash key) = .ok j ∧
    c'.hashTable[j]? = some (-1)
  /-- The list walk of `display`. -/
  walk : ∀ formatter, ∃ text,
    displayLoop formatter c.nodes (c.nodes.length + 1) c.head 1 = .ok text
  findNode : ∀ key, ∃ i, findNode hash c key = .ok i
  put : ∀ key value, ∃ c', c.put hash key value = .ok c'
  get : ∀ key, ∃ r c', c.get hash key = .ok (r, c')
  remove : ∀ key, ∃ found c', c.remove hash key = .ok (found, c')
  clear : ∃ c', c.clear = .ok c'
  display : ∀ formatter, ∃ text, c.display formatter = .ok text

section Slots

variable {n : Nat} {table : List Int} {t : Nat → Option Nat}

/-- A slot that refers to a node is one of the table. -/
theorem Slots.of_get (h : Slots n table t) {j i : Nat} (hi : table[j]? = some (i : Int)) :
    j < n ∧ t j = some i := by
  rcases List.getElem?_eq_some_iff.mp hi with ⟨hj, _⟩
  rw [h.length] at hj
  refine ⟨hj, ptr_injective ?_⟩
  have hget := h.get j hj
  rw [hi] at hget
  exact (Option.some.inj hget).symm

/-- What the table has at an empty slot. -/
theorem Slots.get_none (h : Slots n table t) {j : Nat} (hj : j < n) (hempty : t j = none) :
    table[j]? = some (-1) := by
  rw [h.get j hj, hempty]
  rfl

/-- And at one that is occupied. -/
theorem Slots.get_some (h : Slots n table t) {j i : Nat} (hj : j < n) (hi : t j = some i) :
    table[j]? = some (i : Int) := by
  rw [h.get j hj, hi]
  rfl

end Slots

section Rep

variable {hash : UInt64 → Nat} {cap n : Nat} {c : Cache} {order free : List Nat}
variable {t : Nat → Option Nat}

/-- A search ends at an empty slot, or at a slot whose node has the key. -/
theorem Rep.search (h : Rep hash cap c order free n t) (key : UInt64) :
    (∃ j, lookup hash c key = .ok (.empty j) ∧ c.hashTable[j]? = some (-1)) ∨
      ∃ (j i : Nat) (node : Node), lookup hash c key = .ok (.found j i) ∧
        c.hashTable[j]? = some (i : Int) ∧ c.nodes[i]? = some node ∧ node.key = key := by
  by_cases hkey : ∃ i ∈ order, keyOf c.nodes i = key
  · right
    rcases hkey with ⟨i, hi, rfl⟩
    rcases h.lookup_found hi with ⟨j, hj, hj_eq, hrun⟩
    have hi_lt := h.lists.order_lt hi
    refine ⟨j, i, nodeOf c.nodes i, hrun, h.table.slots.get_some hj hj_eq, ?_, rfl⟩
    rw [List.getElem?_eq_getElem hi_lt, nodeOf, List.getD_eq_getElem _ _ hi_lt]
  · left
    rcases h.lookup_empty fun i hi hk => hkey ⟨i, hi, hk⟩ with ⟨j, hj, hrun, hempty, _⟩
    exact ⟨j, hrun, h.table.slots.get_none hj hempty⟩

/-- The backward shift ends at an empty slot. -/
theorem Rep.shift (h : Rep hash cap c order free n t) {j i : Nat}
    (hi : c.hashTable[j]? = some (i : Int)) : ∃ c', eraseSlot hash c j = .ok c' := by
  rcases h.table.slots.of_get hi with ⟨hj, hj_eq⟩
  rcases h.spare with ⟨spare, hspare, hempty⟩
  rcases h.table.eraseSlot hj hj_eq hspare hempty with ⟨table, _, hrun, _⟩
  exact ⟨_, hrun⟩

/-- A cache that is not empty has a last node. -/
theorem Rep.order_snoc (h : Rep hash cap c order free n t) (hsize : 0 < c.size) :
    ∃ a i, order = a ++ [i] := by
  rcases List.eq_nil_or_concat order with rfl | ⟨a, i, rfl⟩
  · rw [h.size_eq, List.length_nil] at hsize
    omega
  · exact ⟨a, i, List.concat_eq_append⟩

/-- The search of `evict_lru` for the node of the tail finds its slot. -/
theorem Rep.evictSearch (h : Rep hash cap c order free n t) (hsize : 0 < c.size) :
    ∃ node j, readAt c.nodes c.tail = .ok node ∧
      probe c.hashMask (probeNode c c.tail) c.hashTable.length (hash node.key) = .ok j ∧
      c.hashTable[j]? = some c.tail := by
  rcases h.order_snoc hsize with ⟨a, i, rfl⟩
  have hi : i ∈ a ++ [i] := List.mem_append_right a (List.mem_singleton_self i)
  have htail : c.tail = (i : Int) := by
    rw [h.lists.tail_eq]
    simp
  rcases h.slot hi with ⟨j, hj, hj_eq⟩
  refine ⟨nodeOf c.nodes i, j, ?_, ?_, ?_⟩
  · rw [htail]
    exact readAt_nodes (h.lists.order_lt hi)
  · rw [htail]
    exact h.table.probeNode_found hj hj_eq
  · rw [htail]
    exact h.table.slots.get_some hj hj_eq

/-- After an eviction there is a free slot, so that the second search of `put` ends. -/
theorem Rep.reprobe (h : Rep hash cap c order free n t) (hsize : 0 < c.size) :
    ∃ c', LruCache.evictLru hash c = .ok c' ∧ ∀ key, ∃ j,
      probe c'.hashMask (probeEmpty c') c'.hashTable.length (hash key) = .ok j ∧
      c'.hashTable[j]? = some (-1) := by
  rcases h.order_snoc hsize with ⟨a, i, rfl⟩
  rcases h.evictLru with ⟨table, t', hrun, hrep⟩
  refine ⟨_, hrun, ?_⟩
  intro key
  rcases hrep.spare with ⟨spare, hspare, hempty⟩
  rcases hrep.table.probeEmpty_found hspare hempty key with ⟨j, hj, hprobe, hj_empty, _⟩
  exact ⟨j, hprobe, hrep.table.slots.get_none hj hj_empty⟩

/-- `display` walks along the list to its end. -/
theorem Rep.walk (h : Rep hash cap c order free n t) (formatter : Option (UInt64 → String)) :
    ∃ text, displayLoop formatter c.nodes (c.nodes.length + 1) c.head 1 = .ok text := by
  rw [h.lists.head_eq]
  have hlen : order.length < c.nodes.length + 1 := by
    have := h.cover
    rw [h.nodes_length]
    omega
  exact ⟨_, displayLoop_chain h.lists.linked.chain (fun _ hi => h.lists.order_lt hi) hlen⟩

end Rep

/-- What the reference simulates has no endless loop. -/
theorem Sim.loopsEnd {hash : UInt64 → Nat} {c : Cache} {s : State UInt64 UInt64}
    (h : Sim hash c s) : LoopsEnd hash c := by
  rcases h.holds with ⟨order, free, n, t, hrep, _⟩
  refine
    { search := hrep.search
      shift := fun _ _ => hrep.shift
      evictSearch := hrep.evictSearch
      reprobe := hrep.reprobe
      walk := hrep.walk
      findNode := ?_
      put := ?_
      get := ?_
      remove := ?_
      clear := ?_
      display := fun _ => ⟨_, h.holds.display⟩ }
  · intro key
    rcases hrep.search key with ⟨j, hrun, _⟩ | ⟨j, i, _, hrun, _⟩
    · exact ⟨-1, by rw [LruCache.findNode, hrun]; rfl⟩
    · exact ⟨i, by rw [LruCache.findNode, hrun]; rfl⟩
  · intro key value
    rcases h.put key value with ⟨c', hrun, _⟩
    exact ⟨c', hrun⟩
  · intro key
    rcases h.get key with ⟨r, c', hrun, _⟩
    exact ⟨r, c', hrun⟩
  · intro key
    rcases h.remove key with ⟨c', hrun, _⟩
    exact ⟨_, c', hrun⟩
  · rcases h.clear with ⟨c', hrun, _⟩
    exact ⟨c', hrun⟩

/-- **Termination.** Whatever the hash function, in every reachable state every loop ends, and
no access is outside its array. -/
theorem loops_end {C : Nat} (hpos : 0 < C) (hlt : C < 2 ^ 31) :
    ∃ c₀, Cache.new C = .ok c₀ ∧ (∀ k, hashKey c₀.hashMask k < c₀.hashTable.length) ∧
      ∀ hash : UInt64 → Nat, (∀ k, hash k < c₀.hashTable.length) → ∀ ops : List Call,
        ∃ rs c, run (Cache.step hash) ops c₀ = .ok (rs, c) ∧ LoopsEnd hash c := by
  rcases Sim.new hpos hlt with ⟨c₀, hnew, hreal, hsim⟩
  refine ⟨c₀, hnew, hreal, ?_⟩
  intro hash hhash ops
  rcases (hsim hash hhash).run ops with ⟨c, hrun, hc⟩
  exact ⟨_, c, hrun, hc.loopsEnd⟩

/-- All keys collide, and the last slot of the table is their home. -/
theorem loops_end_two :
    ∃ c₀ rs c, Cache.new 2 = .ok c₀ ∧
      run (Cache.step fun _ => 3) [.put 1 10, .put 2 20, .put 3 30, .get 1] c₀ = .ok (rs, c) ∧
      LoopsEnd (fun _ => 3) c := by
  rcases loops_end (C := 2) (by decide) (by decide) with ⟨c₀, hnew, _, hall⟩
  have hlen : c₀.hashTable.length = 4 := by
    have hcheck : (Cache.new 2).map (fun c => c.hashTable.length) = .ok 4 := by decide +kernel
    rw [hnew] at hcheck
    exact Except.ok.inj hcheck
  rcases hall (fun _ => 3) (fun _ => by rw [hlen]; decide)
    [.put 1 10, .put 2 20, .put 3 30, .get 1] with ⟨rs, c, hrun, hc⟩
  exact ⟨c₀, rs, c, hnew, hrun, hc⟩

end LruCache
