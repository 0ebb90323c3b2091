import LruCache.Cache.Occupancy
import LruCache.Lib.MeanFlow

/-!
# What a search costs

`find_node`, `put` and `remove` look at one slot of `hash_table_` after the other until they meet
the key or an empty slot; `Cache.slotsRead` counts these slots, and `Cache.removeReads` counts those
that the backward shift looks at as well.

Main results:

* `Rep.slotsRead_le`: never more slots than there are keys, and one;
* `Rep.removeReads_eq`: to remove a key is to look at the slots from its home to the first empty
  one, wherever on the way it is stored;
* `search_costs_of_keys`: what a search costs is decided by which keys are stored, whatever happened
  before.
-/

namespace LruCache

open LinearProbing Recency Transition

/-! ## Counting -/

/-- The turns of a probe loop. -/
def probeTurns {α : Type} (mask : Nat) (body : Nat → Except Fault (Option α)) : Nat → Nat → Nat
  | 0, _ => 0
  | fuel + 1, idx =>
      match body idx with
      | .ok none => probeTurns mask body fuel ((idx + 1) &&& mask) + 1
      | _ => 1

/-- How many slots the loop over the slots from `hash(key)` looks at. -/
def Cache.slotsRead (hash : UInt64 → Nat) (c : Cache) (key : UInt64) : Nat :=
  probeTurns c.hashMask (probeKey c key) c.hashTable.length (hash key)

/-- The slots that the loop of the erasure looks at, with its branches as in `shiftLoop`. -/
def shiftTurns (hash : UInt64 → Nat) (nodes : List Node) (mask : Nat) :
    Nat → List Int → Nat → Nat → Nat
  | 0, _, _, _ => 0
  | fuel + 1, table, idx, nextIdx =>
      match readAt table nextIdx with
      | .error _ => 1
      | .ok moveNodeIdx =>
          if moveNodeIdx = -1 then 1
          else
            match readAt nodes moveNodeIdx with
            | .error _ => 1
            | .ok node =>
                if canMove (hash node.key) idx nextIdx then
                  shiftTurns hash nodes mask fuel
                    ((table.set idx moveNodeIdx).set nextIdx (-1)) nextIdx
                    ((nextIdx + 1) &&& mask) + 1
                else shiftTurns hash nodes mask fuel table idx ((nextIdx + 1) &&& mask) + 1

/-- How many slots the erasure of the slot `idx` looks at. -/
def Cache.shiftReads (hash : UInt64 → Nat) (c : Cache) (idx : Nat) : Nat :=
  shiftTurns hash c.nodes c.hashMask c.hashTable.length (c.hashTable.set idx (-1)) idx
    ((idx + 1) &&& c.hashMask)

/-- How many slots `remove` looks at. -/
def Cache.removeReads (hash : UInt64 → Nat) (c : Cache) (key : UInt64) : Nat :=
  match lookup hash c key with
  | .ok (.found idx _) => c.slotsRead hash key + c.shiftReads hash idx
  | _ => c.slotsRead hash key

/-- Where the loop has stopped. -/
def Probed.slot : Probed → Nat
  | .empty idx => idx
  | .found idx _ => idx

theorem probeKey_slot {c : Cache} {key : UInt64} {idx : Nat} {p : Probed}
    (h : probeKey c key idx = .ok (some p)) : p.slot = idx := by
  rcases bind_eq_ok h with ⟨nodeIdx, _, h⟩
  by_cases hempty : nodeIdx = -1
  · rw [if_pos hempty] at h
    cases h
    rfl
  · rw [if_neg hempty] at h
    rcases bind_eq_ok h with ⟨node, _, h⟩
    by_cases hkey : node.key = key
    · rw [if_pos hkey] at h
      cases h
      rfl
    · rw [if_neg hkey] at h
      cases h

/-- A probe loop that ends has looked at every slot from its start to its end. -/
theorem probeTurns_of_probe {n mask start fuel : Nat} {c : Cache} {key : UInt64} {p : Probed}
    (hmask : ∀ j < n, (j + 1) &&& mask = next n j) (hstart : start < n) (hfuel : fuel ≤ n)
    (h : probe mask (probeKey c key) fuel start = .ok p) :
    ∃ m < fuel, probeTurns mask (probeKey c key) fuel start = m + 1 ∧
      p.slot = (start + m) % n := by
  induction fuel generalizing start with
  | zero => cases h
  | succ fuel ih =>
    rw [probe] at h
    rcases bind_eq_ok h with ⟨o, hbody, h⟩
    rw [probeTurns, hbody]
    cases o with
    | some r =>
      cases h
      refine ⟨0, Nat.zero_lt_succ fuel, rfl, ?_⟩
      rw [probeKey_slot hbody, Nat.add_zero, Nat.mod_eq_of_lt hstart]
    | none =>
      dsimp only at h ⊢
      rw [hmask start hstart] at h ⊢
      rcases ih (next_lt hstart) (by omega) h with ⟨m, hm, hturns, hslot⟩
      refine ⟨m + 1, by omega, by rw [hturns], ?_⟩
      rw [hslot, next_eq_mod hstart, Nat.mod_add_mod, Nat.add_assoc, Nat.add_comm 1 m]

section Searches

variable {hash : UInt64 → Nat} {cap n : Nat} {c : Cache} {order free : List Nat}
variable {t : Nat → Option Nat}

theorem Table.slotsRead_eq (h : Table hash c n t) {key : UInt64} {p : Probed}
    (hrun : lookup hash c key = .ok p) :
    c.slotsRead hash key = hops n (hash key) p.slot + 1 := by
  have hlen := h.slots.length
  rcases probeTurns_of_probe (fun _ => h.next_index) (h.hash_lt key) hlen.le hrun with
    ⟨m, hm, hturns, hslot⟩
  rw [Cache.slotsRead, hturns, hslot, hops_add_mod (h.hash_lt key) (by omega)]

/-- The keys of the table. -/
def storedKeys (c : Cache) : Finset UInt64 := (keys c.pairs).toFinset

theorem Rep.mem_storedKeys (h : Rep hash cap c order free n t) {k : UInt64} :
    k ∈ storedKeys c ↔ ∃ j < n, ∃ i, t j = some i ∧ keyOf c.nodes i = k := by
  rw [h.mem_table_iff, storedKeys, List.mem_toFinset, Cache.pairs, h.order_eq]

theorem Rep.card_storedKeys (h : Rep hash cap c order free n t) :
    (storedKeys c).card = c.size := by
  rw [storedKeys, Cache.pairs, h.order_eq, List.toFinset_card_of_nodup h.keys_nodup, keys_itemsOf,
    List.length_map, h.size_eq]

/-- A way through occupied slots is not longer than there are keys. -/
theorem Rep.hops_le_size (h : Rep hash cap c order free n t) {a j : Nat} (ha : a < n) (hj : j < n)
    (hpath : ∀ i < n, hops n a i < hops n a j → t i ≠ none) : hops n a j ≤ c.size := by
  have hway : ∀ s ∈ Finset.range (hops n a j), s < n ∧ ∃ i, t ((a + s) % n) = some i := by
    intro s hs
    rw [Finset.mem_range] at hs
    have hsn : s < n := Nat.lt_trans hs (hops_lt ha hj)
    refine ⟨hsn, Option.ne_none_iff_exists'.mp (hpath _ (Nat.mod_lt _ (by omega)) ?_)⟩
    rw [hops_add_mod ha hsn]
    exact hs
  choose! hlt node hnode using hway
  rw [← h.card_storedKeys]
  calc hops n a j
      = (Finset.range (hops n a j)).card := (Finset.card_range _).symm
    _ ≤ (storedKeys c).card := by
        refine Finset.card_le_card_of_injOn (fun s => keyOf c.nodes (node s)) ?_ ?_
        · intro s hs
          exact h.mem_storedKeys.mpr
            ⟨_, Nat.mod_lt _ (by omega), node s, hnode s hs, rfl⟩
        · intro s hs s' hs' heq
          have hslot := h.table.valid.inj _ _ _ _ (Nat.mod_lt _ (by omega))
            (Nat.mod_lt _ (by omega)) (hnode s hs) (hnode s' hs') heq
          have hhops := congrArg (hops n a) hslot
          rw [hops_add_mod ha (hlt s hs), hops_add_mod ha (hlt s' hs')] at hhops
          exact hhops

/-- Whatever the hash function, a search looks at no more slots than there are keys, and one. -/
theorem Rep.slotsRead_le (h : Rep hash cap c order free n t) (key : UInt64) :
    c.slotsRead hash key ≤ c.size + 1 := by
  by_cases hkey : ∃ i ∈ order, keyOf c.nodes i = key
  · rcases hkey with ⟨i, hi, rfl⟩
    rcases h.lookup_found hi with ⟨j, hj, hj_eq, hrun⟩
    rw [h.table.slotsRead_eq hrun]
    refine Nat.succ_le_succ (h.hops_le_size (h.table.hash_lt _) hj ?_)
    exact fun j' hj' hlt => h.table.valid.chain j i hj hj_eq j' hj' hlt
  · rcases h.lookup_empty fun i hi hk => hkey ⟨i, hi, hk⟩ with ⟨j, hj, hrun, _, hfirst⟩
    rw [h.table.slotsRead_eq hrun]
    exact Nat.succ_le_succ (h.hops_le_size (h.table.hash_lt _) hj hfirst)

/-- The searches for all stored keys. -/
theorem Rep.sum_slotsRead (h : Rep hash cap c order free n t) :
    ∑ key ∈ storedKeys c, c.slotsRead hash key =
      (storedKeys c).card + totalShift n hash (storedKeys c) := by
  have hfound : ∀ key ∈ storedKeys c, ∃ j < n, ∃ i, t j = some i ∧ keyOf c.nodes i = key :=
    fun key hkey => h.mem_storedKeys.mp hkey
  choose! slot hslot entry hentry hkey using hfound
  have hread : ∀ key ∈ storedKeys c,
      c.slotsRead hash key = 1 + hops n (hash key) (slot key) := by
    intro key hmem
    rw [h.table.slotsRead_eq (h.table.lookup_found (hslot key hmem) (hentry key hmem)
      (hkey key hmem)), Nat.add_comm]
    rfl
  rw [Finset.sum_congr rfl hread, Finset.sum_add_distrib, ← Finset.card_eq_sum_ones,
    h.table.valid.sum_ways_eq_totalShift h.table.hash_lt h.spare (fun _ => h.mem_storedKeys)
      fun key hmem => ⟨hslot key hmem, entry key, hentry key hmem, hkey key hmem⟩]

/-- The search for another key. -/
theorem Rep.slotsRead_absent (h : Rep hash cap c order free n t) {key : UInt64}
    (hkey : key ∉ storedKeys c) :
    c.slotsRead hash key = 1 + toFree n (loadOf hash (storedKeys c)) (hash key) := by
  have hother : ∀ i ∈ order, keyOf c.nodes i ≠ key := by
    rintro i hi rfl
    rcases h.slot hi with ⟨j, hj, hj_eq⟩
    exact hkey (h.mem_storedKeys.mpr ⟨j, hj, i, hj_eq, rfl⟩)
  rcases h.lookup_empty hother with ⟨j, hj, hrun, hempty, hfirst⟩
  rw [h.table.slotsRead_eq hrun, h.table.valid.toFree_eq_hops h.table.hash_lt
    (fun _ => h.mem_storedKeys) (h.table.hash_lt key) hj hempty hfirst, Nat.add_comm]
  rfl

/-- The shift looks at the slots up to the next empty one, whatever it moves on the way. -/
theorem shiftTurns_eq {nodes : List Node} {mask fuel hole scan e : Nat} {table : List Int}
    {t : Nat → Option Nat} (hmask : ∀ j < n, (j + 1) &&& mask = next n j)
    (hslots : Slots n table t) (hnodes : ∀ j < n, ∀ i, t j = some i → i < nodes.length)
    (hhole : hole < n) (hscan : scan < n) (he : e < n) (hne : e ≠ hole) (hempty : t e = none)
    (hpath : ∀ i < n, hops n scan i < hops n scan e → i ≠ hole ∧ t i ≠ none)
    (hfuel : hops n scan e < fuel) :
    shiftTurns hash nodes mask fuel table hole scan = hops n scan e + 1 := by
  induction fuel generalizing table t hole scan with
  | zero => omega
  | succ fuel ih =>
    have hread := hslots.read hscan
    by_cases hend : scan = e
    · rw [hend, hempty, ptr_none] at hread
      rw [hend, hops_self, shiftTurns, hread]
      rfl
    · have hleft := hops_next_left hscan he hend
      have hself : hops n scan scan < hops n scan e := by
        rw [hops_self]
        exact hops_pos hscan hend
      rcases hpath scan hscan hself with ⟨hsh, hocc⟩
      rcases Option.ne_none_iff_exists'.mp hocc with ⟨i, hi⟩
      rw [hi, ptr_some] at hread
      have hnode := readAt_nodes (hnodes scan hscan i hi)
      -- the slots in front are those that they were
      have hahead : ∀ j < n, hops n (next n scan) j < hops n (next n scan) e →
          j ≠ scan ∧ j ≠ hole ∧ t j ≠ none := by
        intro j hj hlt
        have hjs : j ≠ scan := by
          rintro rfl
          unfold next hops at hlt
          split_ifs at hlt <;> omega
        have hleft' := hops_next_left hscan hj (Ne.symm hjs)
        exact ⟨hjs, hpath j hj (by omega)⟩
      by_cases hmove : canMove (hash (nodeOf nodes i).key) hole scan = true
      · have hslots' := ((hslots.write hhole (some i)).2.write hscan none).2
        rw [ptr_some, ptr_none] at hslots'
        rw [shiftTurns, hread, hleft]
        dsimp only
        rw [if_neg (natCast_ne_neg_one i), hnode]
        dsimp only
        rw [if_pos hmove, hmask scan hscan, ih hslots' ?_ hscan (next_lt hscan) (Ne.symm hend) ?_ ?_
          (by omega)]
        · intro j hj i' hi'
          by_cases hjs : j = scan
          · rw [hjs, Function.update_self] at hi'
            cases hi'
          · rw [Function.update_of_ne hjs] at hi'
            by_cases hjh : j = hole
            · rw [hjh, Function.update_self] at hi'
              cases hi'
              exact hnodes scan hscan i hi
            · rw [Function.update_of_ne hjh] at hi'
              exact hnodes j hj i' hi'
        · rw [Function.update_of_ne (Ne.symm hend), Function.update_of_ne hne]
          exact hempty
        · intro j hj hlt
          rcases hahead j hj hlt with ⟨hjs, hjh, hocc⟩
          rw [Function.update_of_ne hjs, Function.update_of_ne hjh]
          exact ⟨hjs, hocc⟩
      · rw [shiftTurns, hread, hleft]
        dsimp only
        rw [if_neg (natCast_ne_neg_one i), hnode]
        dsimp only
        rw [if_neg hmove, hmask scan hscan, ih hslots hnodes hhole (next_lt hscan) hne hempty
          (fun j hj hlt => (hahead j hj hlt).2) (by omega)]

/-- The erasure of a slot looks at the slots behind it up to the first empty one. -/
theorem Rep.shiftReads_eq (h : Rep hash cap c order free n t) {j : Nat} (hj : j < n)
    (hocc : t j ≠ none) :
    c.shiftReads hash j = toFree n (loadOf hash (storedKeys c)) j := by
  rcases h.spare with ⟨spare, hspare, hspare_empty⟩
  rcases exists_first_empty j hspare hspare_empty with ⟨e, he, hempty, _, hfirst⟩
  have hne : j ≠ e := by
    rintro rfl
    exact hocc hempty
  have hleft := hops_next_left hj he hne
  rw [h.table.valid.toFree_eq_hops h.table.hash_lt (fun _ => h.mem_storedKeys) hj he hempty hfirst,
    hleft, Cache.shiftReads, h.table.next_index hj]
  have hslots := (h.table.slots.write hj none).2
  rw [ptr_none] at hslots
  refine shiftTurns_eq (fun _ => h.table.next_index) hslots ?_ hj (next_lt hj) he hne.symm ?_ ?_ ?_
  · intro i hi node hnode
    by_cases hij : i = j
    · rw [hij, Function.update_self] at hnode
      cases hnode
    · rw [Function.update_of_ne hij] at hnode
      exact h.table.node_lt i hi node hnode
  · rw [Function.update_of_ne hne.symm]
    exact hempty
  · intro i hi hlt
    have hij : i ≠ j := by
      rintro rfl
      unfold next hops at hlt
      split_ifs at hlt <;> omega
    have hleft' := hops_next_left hj hi (Ne.symm hij)
    rw [Function.update_of_ne hij]
    exact ⟨hij, hfirst i hi (by omega)⟩
  · rw [h.table.slots.length]
    exact hops_lt (next_lt hj) he

/-- The removal of a stored key looks at the slots from its home to the first empty one, wherever
on this way the key is. -/
theorem Rep.removeReads_stored (h : Rep hash cap c order free n t) {key : UInt64}
    (hkey : key ∈ storedKeys c) :
    c.removeReads hash key = 1 + toFree n (loadOf hash (storedKeys c)) (hash key) := by
  rcases h.mem_storedKeys.mp hkey with ⟨j, hj, i, hi, hki⟩
  have hocc : t j ≠ none := by
    rw [hi]
    exact Option.some_ne_none i
  have hhome := h.table.hash_lt key
  -- there is no empty slot between the home and the key, nor from there to the slot `e`
  have hchain : ∀ j' < n, hops n (hash key) j' < hops n (hash key) j → t j' ≠ none := by
    rw [← hki]
    exact fun j' hj' hlt => h.table.valid.chain j i hj hi j' hj' hlt
  rcases h.spare with ⟨spare, hspare, hspare_empty⟩
  rcases exists_first_empty j hspare hspare_empty with ⟨e, he, hempty, _, hfirst⟩
  have hway : hops n (hash key) j ≤ hops n (hash key) e :=
    Nat.le_of_not_lt fun hlt => hchain e he hlt hempty
  have hfree : ∀ s < n, hops n (hash key) s < hops n (hash key) e → t s ≠ none := by
    intro s hs hlt
    rcases Nat.lt_or_ge (hops n (hash key) s) (hops n (hash key) j) with hbefore | hbehind
    · exact hchain s hs hbefore
    · have hse := hops_add hhome hj hs hbehind
      have hje := hops_add hhome hj he hway
      exact hfirst s hs (by omega)
  have hlook := h.table.lookup_found hj hi hki
  rw [Cache.removeReads, hlook]
  dsimp only
  rw [h.table.slotsRead_eq hlook, h.shiftReads_eq hj hocc,
    h.table.valid.toFree_eq_hops h.table.hash_lt (fun _ => h.mem_storedKeys) hj he hempty hfirst,
    h.table.valid.toFree_eq_hops h.table.hash_lt (fun _ => h.mem_storedKeys) hhome he hempty hfree,
    hops_add hhome hj he hway]
  show hops n (hash key) j + 1 + hops n j e = _
  omega

/-- So does the removal of a key that is not there. -/
theorem Rep.removeReads_eq (h : Rep hash cap c order free n t) (key : UInt64) :
    c.removeReads hash key = 1 + toFree n (loadOf hash (storedKeys c)) (hash key) := by
  by_cases hkey : key ∈ storedKeys c
  · exact h.removeReads_stored hkey
  · rw [← h.slotsRead_absent hkey, Cache.removeReads]
    have hother : ∀ i ∈ order, keyOf c.nodes i ≠ key := by
      rintro i hi rfl
      rcases h.slot hi with ⟨j, hj, hj_eq⟩
      exact hkey (h.mem_storedKeys.mpr ⟨j, hj, i, hj_eq, rfl⟩)
    rcases h.lookup_empty hother with ⟨j, _, hrun, _⟩
    rw [hrun]

/-- The removal of each of the stored keys. -/
theorem Rep.sum_removeReads (h : Rep hash cap c order free n t) :
    ∑ key ∈ storedKeys c, c.removeReads hash key =
      (storedKeys c).card + totalShift n hash (storedKeys c) +
        ∑ i ∈ Finset.range n, toFree n (loadOf hash (storedKeys c)) i := by
  have hfound : ∀ key ∈ storedKeys c, ∃ j < n, ∃ i, t j = some i ∧ keyOf c.nodes i = key :=
    fun key hkey => h.mem_storedKeys.mp hkey
  choose! slot hslot entry hentry hkey using hfound
  have hread : ∀ key ∈ storedKeys c, c.removeReads hash key =
      c.slotsRead hash key + toFree n (loadOf hash (storedKeys c)) (slot key) := by
    intro key hmem
    rw [Cache.removeReads, h.table.lookup_found (hslot key hmem) (hentry key hmem)
      (hkey key hmem), ← h.shiftReads_eq (hslot key hmem)]
    rw [hentry key hmem]
    exact Option.some_ne_none _
  rw [Finset.sum_congr rfl hread, Finset.sum_add_distrib, h.sum_slotsRead,
    h.table.valid.sum_slots (fun _ => h.mem_storedKeys)
      fun key hmem => ⟨hslot key hmem, entry key, hentry key hmem, hkey key hmem⟩]
  intro j hj hempty
  rw [h.table.valid.toFree_eq_hops h.table.hash_lt (fun _ => h.mem_storedKeys) hj hj hempty,
    hops_self]
  intro i _ hlt
  rw [hops_self] at hlt
  exact absurd hlt (Nat.not_lt_zero _)

end Searches

/-- **Search costs.** Whatever the hash function and the history, no search looks at more slots
than there are keys, and one. Two histories that end with the same keys end with tables in which to
find the stored keys costs the same together, to look for another key costs the same, and to
remove costs the same for each key. -/
theorem search_costs_of_keys {C : Nat} (hpos : 0 < C) (hlt : C < 2 ^ 31) :
    ∃ c₀, Cache.new C = .ok c₀ ∧ (∀ k, hashKey c₀.hashMask k < c₀.hashTable.length) ∧
      ∀ hash : UInt64 → Nat, (∀ k, hash k < c₀.hashTable.length) → ∀ ops : List Call,
        ∃ rs c, run (Cache.step hash) ops c₀ = .ok (rs, c) ∧
          (∀ key, c.slotsRead hash key ≤ c.size + 1) ∧
          ∀ ops' rs' c', run (Cache.step hash) ops' c₀ = .ok (rs', c') →
            storedKeys c = storedKeys c' →
            ∑ key ∈ storedKeys c, c.slotsRead hash key =
              ∑ key ∈ storedKeys c', c'.slotsRead hash key ∧
            (∀ key, c.removeReads hash key = c'.removeReads hash key) ∧
            ∀ key ∉ storedKeys c, c.slotsRead hash key = c'.slotsRead hash key := by
  rcases Sim.new hpos hlt with ⟨c₀, hnew, hreal, hsim⟩
  refine ⟨c₀, hnew, hreal, ?_⟩
  intro hash hhash ops
  rcases (hsim hash hhash).run ops with ⟨c, hrun, hc⟩
  rcases hc.holds with ⟨order, free, n, t, hrep, _⟩
  refine ⟨_, c, hrun, hrep.slotsRead_le, ?_⟩
  intro ops' rs' c' hrun' hkeys
  rcases (hsim hash hhash).run ops' with ⟨c₁, hrun₁, hc₁⟩
  rw [hrun'] at hrun₁
  cases hrun₁
  rcases hc₁.holds with ⟨order', free', n', t', hrep', _⟩
  have hn : n = n' := by
    rw [← hrep.table.slots.length, ← hrep'.table.slots.length, (run_shape hrun).table,
      (run_shape hrun').table]
  subst hn
  refine ⟨?_, ?_, ?_⟩
  · rw [hrep.sum_slotsRead, hrep'.sum_slotsRead, hkeys]
  · intro key
    rw [hrep.removeReads_eq key, hrep'.removeReads_eq key, hkeys]
  · intro key hkey
    have hkey' := hkey
    rw [hkeys] at hkey'
    rw [hrep.slotsRead_absent hkey, hrep'.slotsRead_absent hkey', hkeys]

/-- The stored keys of a run that has been computed. -/
theorem storedKeys_of_check {C : Nat} {h : Cache → UInt64 → Nat} {c₀ c : Cache} {ops : List Call}
    {rs : List Returned} {r : List UInt64} (hnew : Cache.new C = .ok c₀)
    (hrun : run (Cache.step (h c₀)) ops c₀ = .ok (rs, c))
    (hcheck : ((Cache.new C).bind fun c₀ => run (Cache.step (h c₀)) ops c₀).map
      (fun out => keys out.2.pairs) = .ok r) : storedKeys c = r.toFinset := by
  have hkeys : ((Cache.new C).bind fun c₀ => run (Cache.step (h c₀)) ops c₀).map
      (fun out => keys out.2.pairs) = .ok (keys c.pairs) := by
    rw [hnew]
    exact congrArg (Except.map fun out => keys out.2.pairs) hrun
  rw [storedKeys, Except.ok.inj (hkeys.symm.trans hcheck)]

/-- The histories of `occupied_of_keys_two`: in the first table the key 5 has its home and the key
4 not, in the second it is the other way around. To remove the key 5 costs the same. -/
theorem search_costs_of_keys_two :
    ∃ c₀ rs c rs' c', Cache.new 2 = .ok c₀ ∧
      run (Cache.step (hashKey c₀.hashMask))
        [.put 4 10, .put 7 30, .put 5 20, .remove 7, .put 4 40] c₀ = .ok (rs, c) ∧
      run (Cache.step (hashKey c₀.hashMask)) [.put 4 1, .put 5 2] c₀ = .ok (rs', c') ∧
      ∑ key ∈ storedKeys c, c.slotsRead (hashKey c₀.hashMask) key =
        ∑ key ∈ storedKeys c', c'.slotsRead (hashKey c₀.hashMask) key ∧
      c.removeReads (hashKey c₀.hashMask) 5 = c'.removeReads (hashKey c₀.hashMask) 5 := by
  rcases search_costs_of_keys (C := 2) (by decide) (by decide) with ⟨c₀, hnew, hreal, hall⟩
  rcases hall _ hreal [.put 4 10, .put 7 30, .put 5 20, .remove 7, .put 4 40] with
    ⟨rs, c, hrun, _, hsame⟩
  rcases hall _ hreal [.put 4 1, .put 5 2] with ⟨rs', c', hrun', _⟩
  have hkeys : storedKeys c = storedKeys c' := by
    rw [storedKeys_of_check (h := fun c => hashKey c.hashMask) (r := [4, 5]) hnew hrun
        (by decide +kernel),
      storedKeys_of_check (h := fun c => hashKey c.hashMask) (r := [5, 4]) hnew hrun'
        (by decide +kernel)]
    decide
  rcases hsame _ rs' c' hrun' hkeys with ⟨hfind, hremove, _⟩
  exact ⟨c₀, rs, c, rs', c', hnew, hrun, hrun', hfind, hremove 5⟩

end LruCache
