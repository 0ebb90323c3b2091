import LruCache.Cache.Table

/-!
# Erasure on any table

The erasure of the source, stated on the array alone: `ProbeChain` is the probe-chain condition
of `hash_table_`, with no mention of how the table came about. Decoding the array into the
entries of a linear-probing table (`entryAt`) gives the result from that of the invariant.

Main results:

* `eraseSlot_correct` — on any table with the probe-chain condition, the backward shift ends,
  removes the entry and no other one, and keeps the condition.

Deliberate scope limits:

* Nothing is assumed of the lists in the pool, nor of how the table came about; there has to be an
  empty slot.
-/

namespace LruCache

open LinearProbing

/-- Every slot met cyclically from the hash index of an entry's key up to the entry is
occupied. -/
def ProbeChain (hash : UInt64 → Nat) (nodes : List Node) (table : List Int) : Prop :=
  ∀ j i : Nat, table[j]? = some (i : Int) →
    ∀ s, (∀ s' ≤ s, (hash (keyOf nodes i) + s') % table.length ≠ j) →
      table[(hash (keyOf nodes i) + s) % table.length]? ≠ some (-1)

/-- Every slot is empty or holds the index of a node. -/
def Entries (nodes : List Node) (table : List Int) : Prop :=
  ∀ x ∈ table, x = -1 ∨ ∃ i < nodes.length, x = (i : Int)

/-- Entries in different slots have different keys. -/
def DistinctKeys (nodes : List Node) (table : List Int) : Prop :=
  ∀ j j' i i' : Nat, table[j]? = some (i : Int) → table[j']? = some (i' : Int) →
    keyOf nodes i = keyOf nodes i' → j = j'

/-! ## Decoding -/

/-- The entry in a slot. -/
def entryAt (table : List Int) (j : Nat) : Option Nat :=
  match table[j]? with
  | some (.ofNat i) => some i
  | _ => none

section Decode

variable {hash : UInt64 → Nat} {nodes : List Node} {table : List Int} {n : Nat}
variable {t : Nat → Option Nat}

/-- Every table whose entries are nodes can be decoded. -/
theorem entries_slots (hentries : Entries nodes table) :
    Slots table.length table (entryAt table) := by
  refine ⟨rfl, ?_⟩
  intro j hj
  have hget : table[j]? = some table[j] := List.getElem?_eq_getElem hj
  rw [entryAt, hget]
  rcases hentries table[j] (List.getElem_mem hj) with hneg | ⟨i, _, hi⟩
  · rw [hneg]
    rfl
  · rw [hi]
    rfl

/-- An entry of the array is one of the decoded table, -/
theorem Slots.some_iff (h : Slots n table t) {j : Nat} (hj : j < n) {i : Nat} :
    table[j]? = some (i : Int) ↔ t j = some i := by
  rw [h.get j hj, ← ptr_some i, Option.some.injEq]
  exact ptr_injective.eq_iff

/-- and an empty slot is empty. -/
theorem Slots.none_iff (h : Slots n table t) {j : Nat} (hj : j < n) :
    table[j]? = some (-1) ↔ t j = none := by
  rw [h.get j hj, Option.some.injEq, ptr_eq_neg_one]

/-- An access that succeeds is within the table. -/
theorem Slots.lt_of_get (h : Slots n table t) {j : Nat} {x : Int} (hx : table[j]? = some x) :
    j < n := by
  rcases List.getElem?_eq_some_iff.mp hx with ⟨hlt, _⟩
  rw [← h.length]
  exact hlt

/-- The probe-chain condition is the one of linear probing. -/
theorem probeChain_iff (hslots : Slots n table t) (hhash : ∀ k, hash k < n) :
    ProbeChain hash nodes table ↔
      ∀ j i, j < n → t j = some i → ∀ j' < n,
        hops n (hash (keyOf nodes i)) j' < hops n (hash (keyOf nodes i)) j → t j' ≠ none := by
  have hmod : ∀ i s, (hash (keyOf nodes i) + s) % n < n := fun i s =>
    Nat.mod_lt _ (Nat.zero_lt_of_lt (hhash 0))
  constructor
  · intro h j i hj hi
    rw [forall_nearer_iff (hhash _) hj]
    intro s hs
    have hocc := h j i ((hslots.some_iff hj).mpr hi) s (by rw [hslots.length]; exact hs)
    rw [hslots.length, ne_eq, hslots.none_iff (hmod i s)] at hocc
    exact hocc
  -- conversely, slots met before the entry are nearer to its home than the entry is
  · intro h j i hi s hs
    have hj := hslots.lt_of_get hi
    have hnear := h j i hj ((hslots.some_iff hj).mp hi)
    rw [forall_nearer_iff (hhash _) hj] at hnear
    rw [hslots.length] at hs ⊢
    rw [ne_eq, hslots.none_iff (hmod i s)]
    exact hnear s hs

/-- The invariant of the cache implies the probe-chain condition. -/
theorem Table.probeChain {c : Cache} (h : Table hash c n t) :
    ProbeChain hash c.nodes c.hashTable :=
  (probeChain_iff h.slots h.hash_lt).mpr h.valid.chain

/-- An array that meets the conditions is a valid table. -/
theorem Table.of_entries {c : Cache} (hpow : ∃ m, c.hashTable.length = 2 ^ m)
    (hmask : c.hashMask = c.hashTable.length - 1) (hhash : ∀ k, hash k < c.hashTable.length)
    (hentries : Entries c.nodes c.hashTable) (hkeys : DistinctKeys c.nodes c.hashTable)
    (hchain : ProbeChain hash c.nodes c.hashTable) :
    Table hash c c.hashTable.length (entryAt c.hashTable) := by
  have hslots := entries_slots hentries
  refine ⟨hhash, hpow, hmask, hslots, ?_, ?_, ?_⟩
  · intro j hj i hi
    have hmem := List.mem_of_getElem? ((hslots.some_iff hj).mpr hi)
    rcases hentries _ hmem with hneg | ⟨i', hi', heq⟩
    · exact absurd hneg (natCast_ne_neg_one i)
    · rw [Int.ofNat.inj heq]
      exact hi'
  · intro j j' i i' hj hj' hi hi' hkey
    exact hkeys j j' i i' ((hslots.some_iff hj).mpr hi) ((hslots.some_iff hj').mpr hi') hkey
  · exact (probeChain_iff hslots hhash).mp hchain

end Decode

/-! ## The erasure loop -/

/-- **Backward shift.** The erasure of an occupied slot ends, changes nothing but the table, and
leaves exactly the other entries, again on unbroken probe chains: every remaining key is found
at its node, and the erased key is not found. -/
theorem eraseSlot_correct {hash : UInt64 → Nat} {c : Cache} {m : Nat}
    (hlen : c.hashTable.length = 2 ^ m) (hmask : c.hashMask = 2 ^ m - 1)
    (hhash : ∀ k, hash k < 2 ^ m) (hempty : -1 ∈ c.hashTable)
    (hentries : Entries c.nodes c.hashTable) (hkeys : DistinctKeys c.nodes c.hashTable)
    (hchain : ProbeChain hash c.nodes c.hashTable) {idx i : Nat}
    (hocc : c.hashTable[idx]? = some (i : Int)) :
    ∃ table, eraseSlot hash c idx = .ok { c with hashTable := table } ∧
      table.Perm (c.hashTable.set idx (-1)) ∧
      DistinctKeys c.nodes table ∧ ProbeChain hash c.nodes table ∧
      (∀ i' : Nat, (i' : Int) ∈ table →
        findNode hash { c with hashTable := table } (keyOf c.nodes i') = .ok (i' : Int)) ∧
      findNode hash { c with hashTable := table } (keyOf c.nodes i) = .ok (-1) := by
  rw [← hlen] at hmask hhash
  have htable := Table.of_entries ⟨m, hlen⟩ hmask hhash hentries hkeys hchain
  have hidx := htable.slots.lt_of_get hocc
  have hi := (htable.slots.some_iff hidx).mp hocc
  rcases List.getElem?_of_mem hempty with ⟨spare, hspare_get⟩
  have hspare := htable.slots.lt_of_get hspare_get
  have hspare_empty := (htable.slots.none_iff hspare).mp hspare_get
  rcases htable.eraseSlot hidx hi hspare hspare_empty with
    ⟨table, t', hrun, htable', hent, hperm⟩
  refine ⟨table, hrun, hperm, ?_, htable'.probeChain, ?_, ?_⟩
  · intro j j' i₁ i₂ h₁ h₂ hkey
    have hj := htable'.slots.lt_of_get h₁
    have hj' := htable'.slots.lt_of_get h₂
    exact htable'.valid.inj j j' i₁ i₂ hj hj' ((htable'.slots.some_iff hj).mp h₁)
      ((htable'.slots.some_iff hj').mp h₂) hkey
  -- every remaining node is in a slot of a valid table
  · intro i' hmem
    rcases List.getElem?_of_mem hmem with ⟨j, hj_get⟩
    have hj := htable'.slots.lt_of_get hj_get
    exact htable'.findNode_found hj ((htable'.slots.some_iff hj).mp hj_get) rfl
  · -- the table is a permutation of one with an empty slot, and the key's only entry is gone
    have hempty' : -1 ∈ table := by
      refine hperm.symm.subset ?_
      exact List.mem_iff_getElem?.mpr ⟨idx, by simp [hidx]⟩
    rcases List.getElem?_of_mem hempty' with ⟨spare', hspare_get'⟩
    have hspare' := htable'.slots.lt_of_get hspare_get'
    refine htable'.findNode_empty hspare' ((htable'.slots.none_iff hspare').mp hspare_get') ?_
    intro j hj i' hi' hkey
    rcases (hent i').mp ⟨j, hj, hi'⟩ with ⟨j', hj', hj'_eq, hne⟩
    exact hne (htable.valid.inj j' idx i' i hj' hidx hj'_eq hi hkey)

/-- A chain that runs over the end of the table. -/
theorem eraseSlot_correct_wrapped :
    ∃ table, eraseSlot (fun _ => 3)
        { capacity := 3, size := 3, nodes := [⟨10, 0, -1, -1⟩, ⟨11, 0, -1, -1⟩, ⟨12, 0, -1, -1⟩]
          head := -1, tail := -1, freeHead := -1, hashTable := [1, 2, -1, 0], hashMask := 3
          hits := 0, misses := 0, evictions := 0 } 3 =
      .ok { capacity := 3, size := 3
            nodes := [⟨10, 0, -1, -1⟩, ⟨11, 0, -1, -1⟩, ⟨12, 0, -1, -1⟩]
            head := -1, tail := -1, freeHead := -1, hashTable := table, hashMask := 3
            hits := 0, misses := 0, evictions := 0 } ∧ table.Perm [1, 2, -1, -1] := by
  let c : Cache :=
    { capacity := 3, size := 3, nodes := [⟨10, 0, -1, -1⟩, ⟨11, 0, -1, -1⟩, ⟨12, 0, -1, -1⟩]
      head := -1, tail := -1, freeHead := -1, hashTable := [1, 2, -1, 0], hashMask := 3
      hits := 0, misses := 0, evictions := 0 }
  have hentries : Entries c.nodes c.hashTable := by
    intro x hx
    simp only [c, List.mem_cons, List.not_mem_nil, or_false] at hx
    rcases hx with rfl | rfl | rfl | rfl
    · exact Or.inr ⟨1, by decide, rfl⟩
    · exact Or.inr ⟨2, by decide, rfl⟩
    · exact Or.inl rfl
    · exact Or.inr ⟨0, by decide, rfl⟩
  have hslots := entries_slots hentries
  have hcases : ∀ j i : Nat, c.hashTable[j]? = some (i : Int) →
      (j = 0 ∧ i = 1) ∨ (j = 1 ∧ i = 2) ∨ (j = 3 ∧ i = 0) := by
    intro j i h
    have hj : j < 4 := hslots.lt_of_get h
    have hj' : j = 0 ∨ j = 1 ∨ j = 2 ∨ j = 3 := by omega
    rcases hj' with rfl | rfl | rfl | rfl <;> simp [c] at h ⊢ <;> omega
  have hkeys : DistinctKeys c.nodes c.hashTable := by
    intro j j' i i' hi hi' hkey
    rcases hcases j i hi with ⟨rfl, rfl⟩ | ⟨rfl, rfl⟩ | ⟨rfl, rfl⟩ <;>
      rcases hcases j' i' hi' with ⟨rfl, rfl⟩ | ⟨rfl, rfl⟩ | ⟨rfl, rfl⟩ <;>
      first | rfl | exact absurd hkey (by decide)
  have hchain : ProbeChain (fun _ => 3) c.nodes c.hashTable := by
    rw [probeChain_iff hslots fun _ => by decide]
    intro j i hj hi
    rcases hcases j i ((hslots.some_iff hj).mpr hi) with ⟨rfl, rfl⟩ | ⟨rfl, rfl⟩ | ⟨rfl, rfl⟩ <;>
      decide
  have hlen : c.hashTable.length = 2 ^ 2 := rfl
  have hocc : c.hashTable[3]? = some ((0 : Nat) : Int) := rfl
  rcases eraseSlot_correct hlen rfl (fun _ => by decide) (by decide) hentries hkeys hchain
    hocc with ⟨table, hrun, hperm, _⟩
  exact ⟨table, hrun, hperm⟩

end LruCache
