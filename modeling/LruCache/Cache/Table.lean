import LruCache.Cache.Access
import LruCache.Lib.LinearProbing
import Mathlib.Data.List.Perm.Basic
import Mathlib.Data.Nat.Bitwise

/-!
# The hash table

`Table hash c n t` says that `hash_table_` of `c` has `n = 2^m` slots, that slot `j` holds the
node index `t j` (or `-1`), and that `t` is a valid linear-probing table for the keys of the
nodes. Under it each probe loop of the source stops with the answer one expects, and the erasure
of a slot leaves such a table again.

Main results:

* `Table.findNode_found`, `Table.findNode_empty` — the searches of the code stop where they should.
* `Table.eraseSlot` — the backward shift of the code is that of the theory, and leaves a valid
  table.

Deliberate scope limits:

* The hash function is any function into the table; the one of the code is an instance (`hashKey`).
-/

namespace LruCache

open LinearProbing

/-! ## Slots -/

/-- The table holds the entries `t`. -/
structure Slots (n : Nat) (table : List Int) (t : Nat → Option Nat) : Prop where
  length : table.length = n
  get : ∀ j < n, table[j]? = some (ptr (t j))

section Slots

variable {n j : Nat} {table : List Int} {t : Nat → Option Nat}

/-- A slot can be read, -/
theorem Slots.read (h : Slots n table t) (hj : j < n) :
    readAt table (j : Int) = .ok (ptr (t j)) :=
  readAt_of_get (h.get j hj)

/-- and written. -/
theorem Slots.write (h : Slots n table t) (hj : j < n) (o : Option Nat) :
    updateAt table (j : Int) (fun _ => ptr o) = .ok (table.set j (ptr o)) ∧
      Slots n (table.set j (ptr o)) (Function.update t j o) := by
  refine ⟨updateAt_of_get (h.get j hj), by simp [h.length], ?_⟩
  intro i hi
  by_cases hij : i = j
  · subst hij
    simp [h.length, hi]
  · rw [Function.update_of_ne hij, List.getElem?_set_ne (Ne.symm hij)]
    exact h.get i hi

/-- The table as the constructor fills it. -/
theorem slots_empty (n : Nat) : Slots n (List.replicate n (-1)) fun _ => none := by
  refine ⟨by simp, ?_⟩
  intro j hj
  simp [hj]

end Slots

/-! ## The table of a cache -/

/-- The table of a cache: a power of two of slots, the mask that goes with it, and a valid
linear-probing table of the nodes by their keys. -/
structure Table (hash : UInt64 → Nat) (c : Cache) (n : Nat) (t : Nat → Option Nat) : Prop where
  hash_lt : ∀ k, hash k < n
  pow : ∃ m, n = 2 ^ m
  mask_eq : c.hashMask = n - 1
  slots : Slots n c.hashTable t
  node_lt : ∀ j < n, ∀ i, t j = some i → i < c.nodes.length
  valid : Valid n (keyOf c.nodes) hash t

/-- Masking with `2^m - 1` wraps an index around. -/
theorem next_index {n mask j : Nat} (hpow : ∃ m, n = 2 ^ m) (hmask : mask = n - 1) (hj : j < n) :
    (j + 1) &&& mask = next n j := by
  rcases hpow with ⟨m, rfl⟩
  rw [hmask, Nat.and_two_pow_sub_one_eq_mod, next_eq_mod hj]

/-! ## Probe loops -/

/-- A probe loop whose body passes over every slot before `stop` and ends there returns what it
finds there. -/
theorem probe_stops {α : Type} {n mask start stop fuel : Nat}
    {body : Nat → Except Fault (Option α)} {r : α}
    (hmask : ∀ j < n, (j + 1) &&& mask = next n j) (hstart : start < n) (hstop : stop < n)
    (hpass : ∀ j < n, hops n start j < hops n start stop → body j = .ok none)
    (hhit : body stop = .ok (some r)) (hfuel : hops n start stop < fuel) :
    probe mask body fuel start = .ok r := by
  -- on the slots still allowed; the way to `stop` gets shorter with each turn
  induction fuel generalizing start with
  | zero => omega
  | succ fuel ih =>
    by_cases heq : start = stop
    · subst heq
      simp only [probe, hhit, bind, Except.bind]
      rfl
    · have hdist := hops_next_left hstart hstop heq
      have hbody : body start = .ok none := hpass start hstart (by rw [hops_self]; omega)
      simp only [probe, hbody, bind, Except.bind, hmask start hstart]
      refine ih (next_lt hstart) ?_ (by omega)
      intro j hj hlt
      by_cases hsj : start = j
      · rw [← hsj]
        exact hbody
      · have := hops_next_left hstart hj hsj
        exact hpass j hj (by omega)

section Lookup

variable {hash : UInt64 → Nat} {c : Cache} {n : Nat} {t : Nat → Option Nat}

/-- The table only depends on the keys of the pool, the slots and the mask. -/
theorem Table.congr {c' : Cache} (h : Table hash c n t) (hdata : SameData c.nodes c'.nodes)
    (htable : c'.hashTable = c.hashTable) (hmask : c'.hashMask = c.hashMask) :
    Table hash c' n t := by
  refine ⟨h.hash_lt, h.pow, hmask.trans h.mask_eq, ?_, ?_, ?_⟩
  · rw [htable]
    exact h.slots
  · rw [hdata.length]
    exact h.node_lt
  · rw [hdata.key]
    exact h.valid

/-- The mask takes the index after the last slot to the first one. -/
theorem Table.next_index (h : Table hash c n t) {j : Nat} (hj : j < n) :
    (j + 1) &&& c.hashMask = next n j :=
  LruCache.next_index h.pow h.mask_eq hj

/-- The probe loops have as many turns as there are slots, which is enough. -/
theorem Table.hops_lt_length (h : Table hash c n t) (key : UInt64) {j : Nat} (hj : j < n) :
    hops n (hash key) j < c.hashTable.length := by
  rw [h.slots.length]
  exact hops_lt (h.hash_lt key) hj

/-- What one turn of a key loop does at an occupied slot. -/
theorem Table.probeKey_some (h : Table hash c n t) {j i : Nat} (hj : j < n) (hi : t j = some i)
    (key : UInt64) :
    probeKey c key j = .ok (if keyOf c.nodes i = key then some (.found j i) else none) := by
  have hread := h.slots.read hj
  rw [hi] at hread
  have hnode := readAt_nodes (h.node_lt j hj i hi)
  simp only [probeKey, hread, ptr_some, hnode, natCast_ne_neg_one, if_false, bind, Except.bind]
  show (if keyOf c.nodes i = key then _ else _) = _
  split <;> rfl

/-- A probe stops at an empty slot, -/
theorem Table.probeKey_none (h : Table hash c n t) {j : Nat} (hj : j < n) (hj_empty : t j = none)
    (key : UInt64) : probeKey c key j = .ok (some (.empty j)) := by
  have hread := h.slots.read hj
  rw [hj_empty] at hread
  simp only [probeKey, hread, ptr_none, if_true, bind, Except.bind]
  rfl

/-- A stored key is found in its slot. -/
theorem Table.lookup_found (h : Table hash c n t) {j i : Nat} (hj : j < n) (hi : t j = some i)
    {key : UInt64} (hkey : keyOf c.nodes i = key) : lookup hash c key = .ok (.found j i) := by
  subst hkey
  refine probe_stops (fun _ => h.next_index) (h.hash_lt _) hj ?_ ?_ (h.hops_lt_length _ hj)
  · intro j' hj' hlt
    rcases h.valid.path_to hj hi hj' hlt with ⟨i', hi', hne⟩
    rw [h.probeKey_some hj' hi', if_neg hne]
  · rw [h.probeKey_some hj hi, if_pos rfl]

/-- The loop for a key that is not stored ends at the first empty slot. -/
theorem Table.lookup_empty (h : Table hash c n t) {spare : Nat} (hspare : spare < n)
    (hempty : t spare = none) {key : UInt64}
    (hkey : ∀ j < n, ∀ i, t j = some i → keyOf c.nodes i ≠ key) :
    ∃ j < n, lookup hash c key = .ok (.empty j) ∧ t j = none ∧
      ∀ i < n, hops n (hash key) i < hops n (hash key) j → t i ≠ none := by
  rcases exists_first_empty (hash key) hspare hempty with ⟨j, hj, hj_empty, _, hfirst⟩
  refine ⟨j, hj, ?_, hj_empty, hfirst⟩
  refine probe_stops (fun _ => h.next_index) (h.hash_lt _) hj ?_ ?_ (h.hops_lt_length _ hj)
  · intro j' hj' hlt
    rcases Option.ne_none_iff_exists'.mp (hfirst j' hj' hlt) with ⟨i', hi'⟩
    rw [h.probeKey_some hj' hi', if_neg (hkey j' hj' i' hi')]
  · exact h.probeKey_none hj hj_empty key

/-- `find_node` returns the node of a key that is stored, -/
theorem Table.findNode_found (h : Table hash c n t) {j i : Nat} (hj : j < n) (hi : t j = some i)
    {key : UInt64} (hkey : keyOf c.nodes i = key) : findNode hash c key = .ok (i : Int) := by
  rw [findNode, h.lookup_found hj hi hkey]
  rfl

/-- and -1 for any other key. -/
theorem Table.findNode_empty (h : Table hash c n t) {spare : Nat} (hspare : spare < n)
    (hempty : t spare = none) {key : UInt64}
    (hkey : ∀ j < n, ∀ i, t j = some i → keyOf c.nodes i ≠ key) :
    findNode hash c key = .ok (-1) := by
  rcases h.lookup_empty hspare hempty hkey with ⟨j, _, hrun, _⟩
  rw [findNode, hrun]
  rfl

/-- The loop of `evict_lru` finds the slot of a node that is in the table. -/
theorem Table.probeNode_found (h : Table hash c n t) {j i : Nat} (hj : j < n)
    (hi : t j = some i) :
    probe c.hashMask (probeNode c i) c.hashTable.length (hash (keyOf c.nodes i)) = .ok j := by
  have hturn : ∀ j' < n, probeNode c i j' = .ok (if t j' = some i then some j' else none) := by
    intro j' hj'
    simp only [probeNode, h.slots.read hj', bind, Except.bind]
    by_cases heq : t j' = some i
    · rw [if_pos heq, heq, ptr_some, if_pos rfl]
      rfl
    · have hne : ptr (t j') ≠ (i : Int) := fun hp => heq (ptr_injective hp)
      rw [if_neg heq, if_neg hne]
      rfl
  refine probe_stops (fun _ => h.next_index) (h.hash_lt _) hj ?_ ?_ (h.hops_lt_length _ hj)
  · intro j' hj' hlt
    rcases h.valid.path_to hj hi hj' hlt with ⟨i', hi', hne⟩
    -- a slot on the way holds another key, hence another node
    have hii' : t j' ≠ some i := by
      intro heq
      rw [hi'] at heq
      cases heq
      exact hne rfl
    rw [hturn j' hj', if_neg hii']
  · rw [hturn j hj, if_pos hi]

/-- The second loop of `put` ends at the first empty slot. -/
theorem Table.probeEmpty_found (h : Table hash c n t) {spare : Nat} (hspare : spare < n)
    (hempty : t spare = none) (key : UInt64) :
    ∃ j < n, probe c.hashMask (probeEmpty c) c.hashTable.length (hash key) = .ok j ∧ t j = none ∧
      ∀ i < n, hops n (hash key) i < hops n (hash key) j → t i ≠ none := by
  rcases exists_first_empty (hash key) hspare hempty with ⟨j, hj, hj_empty, _, hfirst⟩
  refine ⟨j, hj, ?_, hj_empty, hfirst⟩
  refine probe_stops (fun _ => h.next_index) (h.hash_lt _) hj ?_ ?_ (h.hops_lt_length _ hj)
  · intro j' hj' hlt
    simp only [probeEmpty, h.slots.read hj', bind, Except.bind, ne_eq, ptr_eq_neg_one,
      hfirst j' hj' hlt, not_false_eq_true, if_true]
    rfl
  · simp only [probeEmpty, h.slots.read hj, bind, Except.bind, hj_empty, ptr_none, ne_eq,
      not_true_eq_false, if_false]
    rfl

/-- A new key is entered in the first empty slot from its hash index, with a node that is not in
the table yet. -/
theorem Table.enter (h : Table hash c n t) {c' : Cache} {j i : Nat} {key : UInt64} (hj : j < n)
    (hi : i < c.nodes.length)
    (hfirst : ∀ j' < n, hops n (hash key) j' < hops n (hash key) j → t j' ≠ none)
    (hnew : ∀ j' < n, ∀ i', t j' = some i' → i' ≠ i ∧ keyOf c.nodes i' ≠ key)
    (hlength : c'.nodes.length = c.nodes.length)
    (hkey : keyOf c'.nodes = Function.update (keyOf c.nodes) i key)
    (hmask : c'.hashMask = c.hashMask) (htable : c'.hashTable = c.hashTable.set j i) :
    Table hash c' n (Function.update t j (some i)) := by
  have hkey_old : ∀ j' i', j' < n → t j' = some i' → keyOf c'.nodes i' = keyOf c.nodes i' := by
    intro j' i' hj' hi'
    rw [hkey, Function.update_of_ne (hnew j' hj' i' hi').1]
  have hkey_new : keyOf c'.nodes i = key := by
    rw [hkey, Function.update_self]
  refine ⟨h.hash_lt, h.pow, hmask.trans h.mask_eq, ?_, ?_, ?_⟩
  · rw [htable]
    exact (h.slots.write hj (some i)).2
  · intro j' hj' i' hi'
    rw [hlength]
    by_cases hjj : j' = j
    · rw [hjj, Function.update_self] at hi'
      exact Option.some.inj hi' ▸ hi
    · rw [Function.update_of_ne hjj] at hi'
      exact h.node_lt j' hj' i' hi'
  · refine (h.valid.congr hkey_old).insert ?_ ?_
    · rw [hkey_new]
      exact hfirst
    · intro j' i' hj' hi'
      rw [hkey_new, hkey_old j' i' hj' hi']
      exact (hnew j' hj' i' hi').2

end Lookup

/-! ## Backward shift -/

/-- `can_move` tests whether the way from an entry's home to the entry passes the hole. -/
theorem canMove_iff {n ideal idx nextIdx : Nat} (hideal : ideal < n) (hidx : idx < n)
    (hnext : nextIdx < n) :
    canMove ideal idx nextIdx = true ↔ hops n ideal idx < hops n ideal nextIdx := by
  unfold canMove hops
  split_ifs <;> simp only [Bool.and_eq_true, Bool.or_eq_true, decide_eq_true_eq] <;> omega

section Shift

variable {hash : UInt64 → Nat} {nodes : List Node} {mask n h₀ spare : Nat}
variable {t₀ : Nat → Option Nat}

/-- Moving an entry into the hole permutes the table. -/
theorem set_set_perm {table : List Int} {hole scan : Nat} {v : Int}
    (hhole : table[hole]? = some (-1)) (hscan : table[scan]? = some v) :
    ((table.set hole v).set scan (-1)).Perm table := by
  rcases List.getElem?_eq_some_iff.mp hhole with ⟨hhole_lt, hhole_eq⟩
  rcases List.getElem?_eq_some_iff.mp hscan with ⟨hscan_lt, hscan_eq⟩
  have hperm := List.set_set_perm hhole_lt hscan_lt
  rw [hhole_eq, hscan_eq] at hperm
  exact hperm

/-- The loop closes the hole: it ends before the spare slot, in a valid table that is a
permutation of the one it started with. -/
theorem shiftLoop_spec (hhash : ∀ k, hash k < n) (hmask : ∀ j < n, (j + 1) &&& mask = next n j)
    {fuel : Nat} {table : List Int} {t : Nat → Option Nat} {hole scan : Nat}
    (hslots : Slots n table t) (hlt : ∀ j < n, ∀ i, t j = some i → i < nodes.length)
    (hs : Hole n (keyOf nodes) hash t₀ h₀ spare t hole scan)
    (hfuel : hops n scan spare < fuel) :
    ∃ table' t', shiftLoop hash nodes mask fuel table hole scan = .ok table' ∧
      Slots n table' t' ∧ Valid n (keyOf nodes) hash t' ∧
      (∀ i, (∃ j < n, t' j = some i) ↔ ∃ j < n, t₀ j = some i ∧ j ≠ h₀) ∧
      table'.Perm table := by
  -- on the turns still allowed; the invariant is `Hole`, and the scan gets closer to the spare slot
  induction fuel generalizing table t hole scan with
  | zero => omega
  | succ fuel ih =>
    have hread := hslots.read hs.scan_lt
    cases hscan : t scan with
    | none =>
      refine ⟨table, t, ?_, hslots, hs.done hhash hscan, hs.entries, List.Perm.refl _⟩
      rw [hscan] at hread
      simp only [shiftLoop, hread, ptr_none, if_true, bind, Except.bind]
      rfl
    | some i =>
      rw [hscan] at hread
      have hnode := readAt_nodes (hlt scan hs.scan_lt i hscan)
      have hspare_ne : scan ≠ spare := by
        intro heq
        have := hs.spare_empty
        rw [← heq, hscan] at this
        cases this
      have hdist := hops_next_left hs.scan_lt hs.spare_lt hspare_ne
      have hcan := canMove_iff (hhash (keyOf nodes i)) hs.hole_lt hs.scan_lt
      by_cases hmove : canMove (hash (keyOf nodes i)) hole scan = true
      · -- the entry moves into the hole, and its slot is the next hole
        rcases hslots.write hs.hole_lt (some i) with ⟨hwrite₁, hslots₁⟩
        rcases hslots₁.write hs.scan_lt none with ⟨hwrite₂, hslots₂⟩
        have hs' := hs.move hscan (hcan.mp hmove)
        have hlt' : ∀ j < n, ∀ i', Function.update (Function.update t hole (some i)) scan none j =
            some i' → i' < nodes.length := by
          intro j hj i' hi'
          rcases (hs'.entries i').mp ⟨j, hj, hi'⟩ with h'
          rcases (hs.entries i').mpr h' with ⟨j₁, hj₁, hi₁⟩
          exact hlt j₁ hj₁ i' hi₁
        rcases ih hslots₂ hlt' hs' (by omega) with ⟨table', t', hrun, hslots', hvalid, hent, hperm⟩
        have hswap : ((table.set hole (ptr (some i))).set scan (ptr none)).Perm table := by
          refine set_set_perm ?_ ?_
          · rw [hslots.get hole hs.hole_lt, hs.empty, ptr_none]
          · rw [hslots.get scan hs.scan_lt, hscan]
        refine ⟨table', t', ?_, hslots', hvalid, hent, hperm.trans hswap⟩
        have hmove' : canMove (hash (nodeOf nodes i).key) hole scan = true := hmove
        simp only [ptr_some, ptr_none] at hwrite₁ hwrite₂ hrun
        simp only [shiftLoop, hread, ptr_some, natCast_ne_neg_one, if_false, hnode, hmove', if_true,
          hwrite₁, hwrite₂, hmask scan hs.scan_lt, bind, Except.bind]
        exact hrun
      · -- the entry stays, and the scan goes on
        have hstay : hops n (hash (keyOf nodes i)) scan ≤ hops n (hash (keyOf nodes i)) hole := by
          rw [hcan] at hmove
          omega
        rcases ih hslots hlt (hs.skip hscan hstay) (by omega) with ⟨table', t', hrun, hrest⟩
        refine ⟨table', t', ?_, hrest⟩
        have hmove' : ¬ canMove (hash (nodeOf nodes i).key) hole scan = true := hmove
        simp only [shiftLoop, hread, ptr_some, natCast_ne_neg_one, if_false, hnode, hmove',
          hmask scan hs.scan_lt, bind, Except.bind]
        exact hrun

/-- The keys that the loop reads are all it depends on in the pool. -/
theorem shiftLoop_congr {nodes' : List Node} (hdata : SameData nodes nodes') (fuel : Nat)
    (table : List Int) (hole scan : Nat) :
    shiftLoop hash nodes' mask fuel table hole scan =
      shiftLoop hash nodes mask fuel table hole scan := by
  induction fuel generalizing table hole scan with
  | zero => rfl
  | succ fuel ih =>
    simp only [shiftLoop]
    cases readAt table (scan : Int) with
    | error e => rfl
    | ok v =>
      simp only [bind, Except.bind]
      split
      · rfl
      -- inside the pool both read the same key, outside both fault
      · cases v with
        | negSucc v => rfl
        | ofNat i =>
          by_cases hi : i < nodes.length
          · have hi' : i < nodes'.length := by
              rw [hdata.length]
              exact hi
            have hkey : (nodeOf nodes' i).key = (nodeOf nodes i).key := congrFun hdata.key i
            have hread := readAt_nodes hi
            have hread' := readAt_nodes hi'
            simp only [Int.ofNat_eq_natCast, hread, hread', hkey, ih]
          · have hnone : nodes[i]? = none := List.getElem?_eq_none (by omega)
            have hnone' : nodes'[i]? = none :=
              List.getElem?_eq_none (by have := hdata.length; omega)
            simp only [readAt, hnone, hnone']

end Shift

section Erase

variable {hash : UInt64 → Nat} {c : Cache} {n : Nat} {t : Nat → Option Nat}

/-- The erasure of an occupied slot. -/
theorem Table.eraseSlot (h : Table hash c n t) {j i spare : Nat} (hj : j < n)
    (hi : t j = some i) (hspare : spare < n) (hempty : t spare = none) :
    ∃ table t', eraseSlot hash c j = .ok { c with hashTable := table } ∧
      Table hash { c with hashTable := table } n t' ∧
      (∀ i', (∃ j' < n, t' j' = some i') ↔ ∃ j' < n, t j' = some i' ∧ j' ≠ j) ∧
      table.Perm (c.hashTable.set j (-1)) := by
  rcases h.slots.write hj none with ⟨hwrite, hslots⟩
  have hs := Hole.start h.valid hj hi hspare hempty
  have hlt : ∀ j' < n, ∀ i', Function.update t j none j' = some i' → i' < c.nodes.length := by
    intro j' hj' i' hi'
    rcases (hs.entries i').mp ⟨j', hj', hi'⟩ with ⟨j₁, hj₁, hi₁, _⟩
    exact h.node_lt j₁ hj₁ i' hi₁
  have hfuel : hops n (next n j) spare < c.hashTable.length := by
    rw [h.slots.length]
    exact hops_lt hs.scan_lt hspare
  rcases shiftLoop_spec h.hash_lt (fun _ => h.next_index) hslots hlt hs hfuel with
    ⟨table, t', hrun, hslots', hvalid, hent, hperm⟩
  refine ⟨table, t', ?_, ?_, hent, hperm⟩
  · simp only [ptr_none] at hwrite hrun
    simp only [LruCache.eraseSlot, hwrite, h.next_index hj, hrun, bind, Except.bind]
    rfl
  · refine ⟨h.hash_lt, h.pow, h.mask_eq, hslots', ?_, hvalid⟩
    intro j' hj' i' hi'
    rcases (hent i').mp ⟨j', hj', hi'⟩ with ⟨j₁, hj₁, hi₁, _⟩
    exact h.node_lt j₁ hj₁ i' hi₁

/-- What the erasure does to a cache whose pool has the same keys. -/
theorem eraseSlot_congr {c' : Cache} {j : Nat} {table : List Int}
    (hrun : LruCache.eraseSlot hash c j = .ok { c with hashTable := table })
    (hdata : SameData c.nodes c'.nodes) (htable : c'.hashTable = c.hashTable)
    (hmask : c'.hashMask = c.hashMask) :
    LruCache.eraseSlot hash c' j = .ok { c' with hashTable := table } := by
  have hmap : LruCache.eraseSlot hash c' j =
      (LruCache.eraseSlot hash c j).map fun d => { c' with hashTable := d.hashTable } := by
    simp only [LruCache.eraseSlot, htable, hmask, shiftLoop_congr hdata, bind, Except.bind]
    cases updateAt c.hashTable (j : Int) (fun _ => -1) with
    | error e => rfl
    | ok table₁ =>
      simp only
      cases shiftLoop hash c.nodes c.hashMask c.hashTable.length table₁ j
        ((j + 1) &&& c.hashMask) <;> rfl
  rw [hmap, hrun]
  rfl

end Erase

end LruCache
