import LruCache.Cache.ProbeChain
import LruCache.Cache.Refinement
import Mathlib.Data.Set.Function

/-!
# What every reachable cache looks like

`WellFormed` spells the representation invariant out on the fields of the cache: the two chains
that one reads off the pool from `head_` and from `free_head_`, the `prev` links, the slots of
the table. Every reachable cache is well formed, and on every reachable cache the two hand-written
ways of taking a node out, `remove` and `evict_lru`, agree.

Main results:

* `Rep.wellFormed` — the representation invariant says that the cache is well formed.
* `reachable_wellFormed` — every cache that calls lead to is, and no call faults.
* `evictLru_eq_remove_tail` — an eviction is a removal of the key at the tail, but for the counter.

Deliberate scope limits:

* Capacities are between 1 and 2^31 - 1.
-/

namespace LruCache

open LinearProbing LinkedPool Recency Transition

/-! ## Chains in the pool -/

/-- The `next` chain from the index `i` visits the nodes `l` and then ends in `-1`. -/
inductive Follows (nodes : List Node) : Int → List Nat → Prop
  | nil : Follows nodes (-1) []
  | cons {i : Nat} {l : List Nat} :
      i < nodes.length → Follows nodes (nextOf nodes i) l → Follows nodes i (i :: l)

/-- The nodes on the `next` chain from the index `i`, at most `fuel` of them. -/
def walk (nodes : List Node) : Nat → Int → List Nat
  | 0, _ => []
  | fuel + 1, i => if i = -1 then [] else i.toNat :: walk nodes fuel (nextOf nodes i.toNat)

/-- The recency chain, from `head_`. -/
def Cache.order (c : Cache) : List Nat := walk c.nodes c.nodes.length c.head

/-- The free chain, from `free_head_`. -/
def Cache.freeOrder (c : Cache) : List Nat := walk c.nodes c.nodes.length c.freeHead

/-- The stored pairs, from most to least recent. -/
def Cache.pairs (c : Cache) : List (UInt64 × UInt64) := itemsOf c.nodes c.order

section Chains

variable {nodes : List Node} {l : List Nat}

/-- A chain of the invariant can be followed in the pool. -/
theorem follows_of_chain (h : Chain ptr (nextOf nodes) l) (hlt : ∀ i ∈ l, i < nodes.length) :
    Follows nodes (ptr l.head?) l := by
  induction l with
  | nil => exact Follows.nil
  | cons i l ih =>
    have hlink := chain_cons.mp h
    refine Follows.cons (hlt i List.mem_cons_self) ?_
    rw [hlink.1]
    exact ih hlink.2 fun j hj => hlt j (List.mem_cons_of_mem i hj)

/-- And walked along to its end. -/
theorem walk_of_chain (h : Chain ptr (nextOf nodes) l) {fuel : Nat} (hfuel : l.length ≤ fuel) :
    walk nodes fuel (ptr l.head?) = l := by
  induction l generalizing fuel with
  | nil => cases fuel <;> rfl
  | cons i l ih =>
    cases fuel with
    | zero => simp at hfuel
    | succ fuel =>
      have hlink := chain_cons.mp h
      have hrest : walk nodes fuel (ptr l.head?) = l := ih hlink.2 (by simpa using hfuel)
      simp [walk, hlink.1, hrest]

end Chains

/-! ## The invariant on the fields -/

/-- The invariant as it can be checked on the fields of the cache. -/
structure WellFormed (hash : UInt64 → Nat) (C : Nat) (c : Cache) : Prop where
  /-- The chain from `head_` and the chain from `free_head_` end in `-1`. -/
  recency : Follows c.nodes c.head c.order
  free : Follows c.nodes c.freeHead c.freeOrder
  /-- Together they have every index of the pool exactly once. -/
  partition : (c.order ++ c.freeOrder).Perm (List.range C)
  order_length : c.order.length = c.size
  free_length : c.freeOrder.length = C - c.size
  /-- The recency chain ends at `tail_`. -/
  tail_last : c.tail = ptr c.order.getLast?
  /-- On the recency chain `prev` is the inverse of `next`. -/
  inverse : ∀ i ∈ c.order, ∀ j ∈ c.order,
    nextOf c.nodes i = (j : Int) ↔ prevOf c.nodes j = (i : Int)
  prev_head : ∀ i : Nat, c.head = (i : Int) → prevOf c.nodes i = -1
  head_iff : c.head = -1 ↔ c.size = 0
  tail_iff : c.tail = -1 ↔ c.size = 0
  /-- The occupied slots are in bijection with the nodes on the recency chain. -/
  slots : Set.BijOn (fun j => c.hashTable.getD j (-1))
    {j | j < c.hashTable.length ∧ c.hashTable.getD j (-1) ≠ -1} {x | ∃ i ∈ c.order, x = (i : Int)}
  keys : (c.order.map (keyOf c.nodes)).Nodup
  chain : ProbeChain hash c.nodes c.hashTable

section Rep

variable {hash : UInt64 → Nat} {cap n : Nat} {c : Cache} {order free : List Nat}
variable {t : Nat → Option Nat}

/-- The list that is read off from `head_` is the recency list. -/
theorem Rep.order_eq (h : Rep hash cap c order free n t) : c.order = order := by
  rw [Cache.order, h.lists.head_eq]
  refine walk_of_chain h.lists.linked.chain ?_
  have := h.cover
  rw [h.nodes_length]
  omega

/-- The one from `free_head_` is the free list. -/
theorem Rep.freeOrder_eq (h : Rep hash cap c order free n t) : c.freeOrder = free := by
  rw [Cache.freeOrder, h.lists.freeHead_eq]
  refine walk_of_chain h.lists.chain ?_
  have := h.cover
  rw [h.nodes_length]
  omega

/-- `cap` distinct indices below `cap` are all of them. -/
theorem Rep.partition (h : Rep hash cap c order free n t) :
    (order ++ free).Perm (List.range cap) := by
  have hsub : (order ++ free).Subperm (List.range cap) := by
    refine List.subperm_of_subset h.lists.nodup ?_
    intro i hi
    have hlt := h.lists.lt i hi
    rw [h.nodes_length] at hlt
    exact List.mem_range.mpr hlt
  refine hsub.perm_of_length_le ?_
  rw [List.length_range, List.length_append, h.cover]

/-- What a slot contains. -/
theorem getD_slot (h : Slots n c.hashTable t) {j : Nat} (hj : j < n) :
    c.hashTable.getD j (-1) = ptr (t j) := by
  rw [List.getD_eq_getElem?_getD, h.get j hj, Option.getD_some]

/-- Each node of the recency list is in exactly one slot. -/
theorem Rep.slots_bijOn (h : Rep hash cap c order free n t) :
    Set.BijOn (fun j => c.hashTable.getD j (-1))
      {j | j < c.hashTable.length ∧ c.hashTable.getD j (-1) ≠ -1}
      {x | ∃ i ∈ order, x = (i : Int)} := by
  have hslots := h.table.slots
  have hocc : ∀ j, j < c.hashTable.length ∧ c.hashTable.getD j (-1) ≠ -1 →
      ∃ i, j < n ∧ t j = some i ∧ c.hashTable.getD j (-1) = (i : Int) := by
    rintro j ⟨hj, hne⟩
    rw [hslots.length] at hj
    rw [getD_slot hslots hj] at hne ⊢
    cases hi : t j with
    | none => exact absurd (by rw [hi]; rfl) hne
    | some i => exact ⟨i, hj, rfl, rfl⟩
  refine ⟨?_, ?_, ?_⟩
  · intro j hj
    rcases hocc j hj with ⟨i, hjn, hi, hval⟩
    exact ⟨i, (h.mem i).mp ⟨j, hjn, hi⟩, hval⟩
  · intro j hj j' hj' heq
    rcases hocc j hj with ⟨i, hjn, hi, hval⟩
    rcases hocc j' hj' with ⟨i', hjn', hi', hval'⟩
    have hii' : i = i' := by
      have heq' : c.hashTable.getD j (-1) = c.hashTable.getD j' (-1) := heq
      rw [hval, hval'] at heq'
      exact Int.ofNat.inj heq'
    exact h.table.valid.inj j j' i i' hjn hjn' hi hi' (by rw [hii'])
  · rintro x ⟨i, hi, rfl⟩
    rcases h.slot hi with ⟨j, hj, hj_eq⟩
    have hval : c.hashTable.getD j (-1) = (i : Int) := by
      rw [getD_slot hslots hj, hj_eq, ptr_some]
    refine ⟨j, ⟨?_, ?_⟩, hval⟩
    · rw [hslots.length]
      exact hj
    · rw [hval]
      exact natCast_ne_neg_one i

/-- The invariant of the proofs gives the one on the fields. -/
theorem Rep.wellFormed (h : Rep hash cap c order free n t) : WellFormed hash cap c := by
  have horder := h.order_eq
  have hfree := h.freeOrder_eq
  have hcover := h.cover
  have hempty : order = [] ↔ c.size = 0 := by
    rw [h.size_eq, List.length_eq_zero_iff]
  refine
    { recency := ?_, free := ?_, partition := ?_, order_length := ?_, free_length := ?_
      tail_last := ?_, inverse := ?_, prev_head := ?_, head_iff := ?_, tail_iff := ?_
      slots := ?_, keys := ?_, chain := h.table.probeChain }
  · rw [horder, h.lists.head_eq]
    exact follows_of_chain h.lists.linked.chain fun _ hi => h.lists.order_lt hi
  · rw [hfree, h.lists.freeHead_eq]
    exact follows_of_chain h.lists.chain fun _ hi => h.lists.free_lt hi
  · rw [horder, hfree]
    exact h.partition
  · rw [horder, h.size_eq]
  · rw [hfree, h.size_eq]
    omega
  · rw [horder, h.lists.tail_eq]
  · intro i hi j hj
    rw [horder] at hi hj
    exact h.lists.linked.inverse ptr_injective hi hj
  · intro i hi
    rw [h.lists.head_eq] at hi
    cases order with
    | nil => exact absurd hi.symm (natCast_ne_neg_one i)
    | cons x l =>
      have hx : x = i := Int.ofNat.inj hi
      rw [← hx]
      exact (h.lists.linked [] x l rfl).2
  · rw [h.lists.head_eq, ptr_eq_neg_one, List.head?_eq_none_iff, hempty]
  · rw [h.lists.tail_eq, ptr_eq_neg_one, List.getLast?_eq_none_iff, hempty]
  · rw [horder]
    exact h.slots_bijOn
  · rw [horder, ← keys_itemsOf]
    exact h.keys_nodup

/-- `put` reaches `allocate_node` with a node on the free list. -/
theorem Rep.makeRoom_freeHead (h : Rep hash cap c order free n t) {key : UInt64} {idx : Nat}
    (hlookup : lookup hash c key = .ok (.empty idx)) :
    ∃ c' j, LruCache.makeRoom hash c key idx = .ok (c', j) ∧ c'.freeHead ≠ -1 := by
  have hkey : ∀ i ∈ order, keyOf c.nodes i ≠ key := by
    rintro i hi rfl
    rcases h.lookup_found hi with ⟨j, _, _, hfound⟩
    rw [hfound] at hlookup
    cases hlookup
  rcases h.lookup_empty hkey with ⟨idx', hidx, hrun, hempty, hfirst⟩
  have heq : idx' = idx := by
    rw [hrun] at hlookup
    cases hlookup
    rfl
  subst heq
  rcases h.makeRoom hidx hempty hfirst hkey with ⟨c', j, i, free', t', hroom, hrep, _⟩
  refine ⟨c', j, hroom, ?_⟩
  rw [hrep.lists.freeHead_eq]
  exact natCast_ne_neg_one i

/-- `evict_lru` and `remove` of the key at `tail_` lead to the same state. -/
theorem Rep.evictLru_eq_remove (h : Rep hash cap c order free n t) (hsize : 0 < c.size) :
    ∃ node c', readAt c.nodes c.tail = .ok node ∧ c.remove hash node.key = .ok (true, c') ∧
      LruCache.evictLru hash c = .ok { c' with evictions := incr c.evictions } ∧
      c'.evictions = c.evictions := by
  rcases List.eq_nil_or_concat order with rfl | ⟨a, i, rfl⟩
  · rw [h.size_eq, List.length_nil] at hsize
    omega
  · rw [List.concat_eq_append] at h
    have htail : c.tail = (i : Int) := by
      rw [h.lists.tail_eq]
      simp
    have hnode := readAt_nodes (h.lists.order_lt (i := i) (by simp))
    rcases h.detach with ⟨j, hj, hj_eq, table, t', herase, _⟩
    refine ⟨nodeOf c.nodes i, c.detached i a.getLast? none table, ?_,
      h.remove_run hj hj_eq herase, h.evictLru_run hj hj_eq herase, rfl⟩
    rw [htail]
    exact hnode

end Rep

/-! ## Reachable caches -/

/-- **Representation invariant.** Every run of calls on a new cache ends without a fault in a
well-formed cache; `allocate_node` is not called without a free node, nor `evict_lru` without a
last one. -/
theorem reachable_wellFormed {C : Nat} (hpos : 0 < C) (hlt : C < 2 ^ 31) :
    ∃ c₀, Cache.new C = .ok c₀ ∧ (∀ k, hashKey c₀.hashMask k < c₀.hashTable.length) ∧
      ∀ hash : UInt64 → Nat, (∀ k, hash k < c₀.hashTable.length) → ∀ ops : List Call,
        ∃ rs c, run (Cache.step hash) ops c₀ = .ok (rs, c) ∧ WellFormed hash C c ∧
          (∀ key idx, lookup hash c key = .ok (.empty idx) →
            ∃ c' j, makeRoom hash c key idx = .ok (c', j) ∧ c'.freeHead ≠ -1) ∧
          (c.size = c.capacity → c.tail ≠ -1) := by
  rcases Sim.new hpos hlt with ⟨c₀, hnew, hreal, hsim⟩
  refine ⟨c₀, hnew, hreal, ?_⟩
  intro hash hhash ops
  rcases (hsim hash hhash).run ops with ⟨c, hrun, hc⟩
  rcases hc.holds with ⟨order, free, n, t, hrep, _⟩
  rw [cap_reference] at hrep
  have hwf := hrep.wellFormed
  refine ⟨_, c, hrun, hwf, fun _ _ => hrep.makeRoom_freeHead, ?_⟩
  intro hfull htail
  have hzero := hwf.tail_iff.mp htail
  rw [hrep.capacity_eq] at hfull
  omega

/-- An eviction and a removal in a cache of two nodes. -/
theorem reachable_wellFormed_two :
    ∃ c₀ rs c, Cache.new 2 = .ok c₀ ∧
      run (Cache.step (hashKey c₀.hashMask)) [.put 1 10, .put 2 20, .put 3 30, .remove 2] c₀ =
        .ok (rs, c) ∧ WellFormed (hashKey c₀.hashMask) 2 c := by
  rcases reachable_wellFormed (C := 2) (by decide) (by decide) with ⟨c₀, hnew, hreal, hwf⟩
  rcases hwf _ hreal [.put 1 10, .put 2 20, .put 3 30, .remove 2] with ⟨rs, c, hrun, hc, _⟩
  exact ⟨c₀, rs, c, hnew, hrun, hc⟩

/-- **Two ways to take out the last node.** -/
theorem evictLru_eq_remove_tail {C : Nat} (hpos : 0 < C) (hlt : C < 2 ^ 31) :
    ∃ c₀, Cache.new C = .ok c₀ ∧ (∀ k, hashKey c₀.hashMask k < c₀.hashTable.length) ∧
      ∀ hash : UInt64 → Nat, (∀ k, hash k < c₀.hashTable.length) → ∀ ops rs c,
        run (Cache.step hash) ops c₀ = .ok (rs, c) → 0 < c.size →
          ∃ node c', readAt c.nodes c.tail = .ok node ∧
            c.remove hash node.key = .ok (true, c') ∧
            evictLru hash c = .ok { c' with evictions := incr c.evictions } ∧
            c'.evictions = c.evictions := by
  rcases Sim.new hpos hlt with ⟨c₀, hnew, hreal, hsim⟩
  refine ⟨c₀, hnew, hreal, ?_⟩
  intro hash hhash ops rs c hrun hsize
  -- a run has one result, so the given one is the one of the simulation
  rcases (hsim hash hhash).run ops with ⟨c', hrun', hc⟩
  rw [hrun'] at hrun
  cases hrun
  rcases hc.holds with ⟨order, free, n, t, hrep, _⟩
  exact hrep.evictLru_eq_remove hsize

/-- The least recently used of two keys. -/
theorem evictLru_eq_remove_tail_two :
    ∃ c₀ rs c c', Cache.new 2 = .ok c₀ ∧
      run (Cache.step (hashKey c₀.hashMask)) [.put 1 10, .put 2 20] c₀ = .ok (rs, c) ∧
      c.remove (hashKey c₀.hashMask) 1 = .ok (true, c') ∧
      evictLru (hashKey c₀.hashMask) c = .ok { c' with evictions := 1 } := by
  rcases evictLru_eq_remove_tail (C := 2) (by decide) (by decide) with ⟨c₀, hnew, hreal, hevict⟩
  let start : Cache :=
    { capacity := 2, size := 0, nodes := [⟨0, 0, 0, 1⟩, ⟨0, 0, 0, -1⟩], head := -1, tail := -1
      freeHead := 0, hashTable := [-1, -1, -1, -1], hashMask := 3, hits := 0, misses := 0
      evictions := 0 }
  have hstart : Cache.new 2 = .ok start := by decide +kernel
  have heq : start = c₀ := Except.ok.inj (hstart.symm.trans hnew)
  subst heq
  let c : Cache :=
    { capacity := 2, size := 2, nodes := [⟨1, 10, 1, -1⟩, ⟨2, 20, -1, 0⟩], head := 1, tail := 0
      freeHead := -1, hashTable := [0, -1, -1, 1], hashMask := 3, hits := 0, misses := 0
      evictions := 0 }
  have hrun : run (Cache.step (hashKey 3)) [.put 1 10, .put 2 20] start =
      .ok ([.void, .void], c) := by decide +kernel
  rcases hevict _ hreal _ _ _ hrun (by decide) with ⟨node, c', hnode, hremove, hrest, _⟩
  cases hnode
  exact ⟨start, _, c, c', hstart, hrun, hremove, hrest⟩

end LruCache
