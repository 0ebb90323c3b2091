import LruCache.Lib.LinearProbing
import Mathlib.Algebra.BigOperators.Ring.Finset
import Mathlib.Combinatorics.Enumerative.DoubleCounting
import Mathlib.Tactic.Linarith
import Mathlib.Tactic.Ring

/-!
# The flow through a linear-probing table

A slot of a linear-probing table keeps one of the entries that come to it, be it from the slot
before or as their home, and passes the others on. How many entries pass from each slot to the
next one is its `Flow`. The homes alone decide it (`Flow.unique`), so that what the entries cost
together is the same in all tables of the same keys: the sum of the flow is the sum of the ways
from home (`Valid.flow`, `sum_crossing`).

Main results:

* `Flow.unique` — the homes alone decide how many entries pass from slot to slot.
* `Valid.flow`, `sum_crossing` — the flow of a table, and what it adds up to.
* `Flow.balance` — how it changes with one key more.

Deliberate scope limits:

* There is an empty slot, or no flow could stop.
-/

namespace LinearProbing

open Finset

/-! ## Around the table -/

section Around

variable {n a b : ℕ} {P : ℕ → Prop}

/-- What is passed on from slot to slot, except by `a`, reaches `a`. -/
theorem reach_of_next (ha : a < n) (hb : b < n) (hP : P b)
    (hstep : ∀ i < n, i ≠ a → P i → P (next n i)) : P a := by
  -- on the way that is left
  induction hm : hops n b a generalizing b with
  | zero =>
    by_cases hba : b = a
    · exact hba ▸ hP
    · have := hops_pos hb hba
      omega
  | succ m ih =>
    have hba : b ≠ a := by
      rintro rfl
      rw [hops_self] at hm
      omega
    have hleft := hops_next_left hb ha hba
    exact ih (next_lt hb) (hstep b hb hba hP) (by omega)

/-- What holds of a slot, and of the next one wherever it holds, holds all around. -/
theorem forall_of_next (ha : a < n) (hP : P a) (hstep : ∀ i < n, P i → P (next n i)) :
    ∀ i < n, P i :=
  fun _ hi => reach_of_next hi ha hP fun j hj _ => hstep j hj

/-- A sum over the slots is one over the slots after them. -/
theorem sum_next (n : ℕ) (f : ℕ → ℕ) : ∑ i ∈ range n, f (next n i) = ∑ i ∈ range n, f i := by
  cases n with
  | zero => rfl
  | succ m =>
    have hlast : next (m + 1) m = 0 := by rw [next, if_pos rfl]
    have hinit : ∀ i ∈ range m, f (next (m + 1) i) = f (i + 1) := by
      intro i hi
      rw [mem_range] at hi
      rw [next, if_neg (by omega)]
    rw [sum_range_succ, sum_range_succ', hlast, sum_congr rfl hinit]

/-- The slots that a walk of `m` hops from `a` enters. -/
theorem card_entered (ha : a < n) {m : ℕ} (hm : m < n) :
    #{i ∈ range n | i ≠ a ∧ hops n a i ≤ m} = m := by
  have himage : {i ∈ range n | i ≠ a ∧ hops n a i ≤ m} =
      (range m).image fun s => (a + (s + 1)) % n := by
    ext i
    rw [mem_filter, mem_image, mem_range]
    constructor
    · rintro ⟨hi, hne, hle⟩
      have hpos := hops_pos ha (Ne.symm hne)
      refine ⟨hops n a i - 1, mem_range.mpr (by omega), ?_⟩
      rw [Nat.sub_add_cancel hpos]
      exact add_hops_mod ha hi
    · rintro ⟨s, hs, rfl⟩
      rw [mem_range] at hs
      have hhops : hops n a ((a + (s + 1)) % n) = s + 1 := hops_add_mod ha (by omega)
      refine ⟨Nat.mod_lt _ (by omega), ?_, by omega⟩
      intro heq
      rw [heq, hops_self] at hhops
      omega
  rw [himage, card_image_of_injOn, card_range]
  intro s hs s' hs' heq
  rw [coe_range, Set.mem_Iio] at hs hs'
  have hhops := congrArg (hops n a) heq
  dsimp only at hhops
  rw [hops_add_mod ha (by omega), hops_add_mod ha (by omega)] at hhops
  omega

end Around

/-! ## Flows -/

/-- `load i` entries have their home in slot `i`, and `c i` come to it from the slot before. Some
slot gets nothing from before. -/
structure Flow (n : ℕ) (load c : ℕ → ℕ) : Prop where
  step : ∀ i < n, c (next n i) = c i + load i - 1
  idle : ∃ i < n, c i = 0

section Flow

variable {n a e : ℕ} {load load' c c' : ℕ → ℕ}

/-- Nothing flows in an empty table. -/
theorem flow_zero (hn : 0 < n) : Flow n (fun _ => 0) fun _ => 0 :=
  ⟨fun _ _ => rfl, 0, hn, rfl⟩

/-- More load, more flow. -/
theorem Flow.mono (h : Flow n load c) (h' : Flow n load' c') (hload : ∀ i < n, load i ≤ load' i) :
    ∀ i < n, c i ≤ c' i := by
  rcases h.idle with ⟨z, hz, hzero⟩
  refine forall_of_next hz (by omega) ?_
  intro i hi hle
  rw [h.step i hi, h'.step i hi]
  have := hload i hi
  omega

/-- The loads decide the flow. -/
theorem Flow.unique (h : Flow n load c) (h' : Flow n load' c') (hload : ∀ i < n, load i = load' i) :
    ∀ i < n, c i = c' i := by
  intro i hi
  exact le_antisymm (h.mono h' (fun i hi => (hload i hi).le) i hi)
    (h'.mono h (fun i hi => (hload i hi).ge) i hi)

/-- An entry does not change how many come to its home from before. -/
theorem Flow.eq_home (h : Flow n load c) (h' : Flow n load' c') (ha : a < n)
    (hmore : load a ≤ load' a) (hload : ∀ i < n, i ≠ a → load i = load' i) : c a = c' a := by
  have hle := h.mono h' (by
    intro i hi
    by_cases hia : i = a
    · rw [hia]
      exact hmore
    · exact (hload i hi hia).le)
  -- where the larger flow has nothing, both are equal, and so they are up to `a`
  rcases h'.idle with ⟨z, hz, hzero⟩
  refine reach_of_next (P := fun i => c i = c' i) ha hz ?_ ?_
  · have := hle z hz
    omega
  · intro i hi hia heq
    rw [h.step i hi, h'.step i hi, heq, hload i hi hia]

/-- A slot keeps an entry exactly if one comes to it; so the flow, summed up, gives back all of
the load. -/
theorem Flow.sum_free (h : Flow n load c) :
    ∑ i ∈ range n, load i + #{i ∈ range n | c i + load i = 0} = n := by
  have hstep : ∀ i ∈ range n,
      c (next n i) + 1 = c i + load i + if c i + load i = 0 then 1 else 0 := by
    intro i hi
    rw [h.step i (mem_range.mp hi)]
    split <;> omega
  have hsum := sum_congr rfl hstep
  rw [sum_add_distrib, sum_add_distrib, sum_add_distrib, sum_next, ← card_filter, sum_const,
    card_range, nsmul_one, Nat.cast_id] at hsum
  omega

/-- As long as there are fewer entries than slots, one is free. -/
theorem Flow.exists_free (h : Flow n load c) (hload : ∑ i ∈ range n, load i < n) :
    ∃ e < n, c e + load e = 0 := by
  have hsum := h.sum_free
  have hpos : 0 < #{i ∈ range n | c i + load i = 0} := by omega
  rcases card_pos.mp hpos with ⟨e, he⟩
  rw [mem_filter, mem_range] at he
  exact ⟨e, he⟩

/-- From every slot there is a first one that is free. -/
theorem Flow.exists_first_free (h : Flow n load c) (hload : ∑ i ∈ range n, load i < n) (a : ℕ) :
    ∃ e < n, c e + load e = 0 ∧ ∀ i < n, hops n a i < hops n a e → c i + load i ≠ 0 := by
  rcases h.exists_free hload with ⟨e₀, he₀, hfree₀⟩
  have hne : {i ∈ range n | c i + load i = 0}.Nonempty :=
    ⟨e₀, mem_filter.mpr ⟨mem_range.mpr he₀, hfree₀⟩⟩
  rcases exists_min_image _ (hops n a) hne with ⟨e, he, hmin⟩
  rw [mem_filter, mem_range] at he
  refine ⟨e, he.1, he.2, ?_⟩
  intro i hi hlt hfree
  have hle := hmin i (mem_filter.mpr ⟨mem_range.mpr hi, hfree⟩)
  omega

/-- One more entry goes from its home to the first free slot. -/
theorem Flow.push (h : Flow n load c) (ha : a < n) (he : e < n) (hfree : c e + load e = 0)
    (hfirst : ∀ i < n, hops n a i < hops n a e → c i + load i ≠ 0)
    (hload : ∀ i < n, load' i = load i + if i = a then 1 else 0) :
    Flow n load' (fun i => c i + if i ≠ a ∧ hops n a i ≤ hops n a e then 1 else 0) ∧
      ∑ i ∈ range n, (c i + if i ≠ a ∧ hops n a i ≤ hops n a e then 1 else 0) =
        ∑ i ∈ range n, c i + hops n a e := by
  -- of the slots on the way each passes it on to the next one, up to `e`
  have hpassed : ∀ i < n, (next n i ≠ a ∧ hops n a (next n i) ≤ hops n a e) ↔
      hops n a i < hops n a e := by
    intro i hi
    by_cases hnext : next n i = a
    · have hlast : hops n a i + 1 = n := by
        have hleft := hops_next_left hi ha
        rw [hnext, hops_self] at hleft
        unfold next at hnext
        unfold hops
        split_ifs at hnext ⊢ <;> omega
      have := hops_lt ha he
      constructor
      · rintro ⟨hne, _⟩
        exact absurd hnext hne
      · intro hlt
        omega
    · have hright := hops_next_right ha hnext
      constructor
      · rintro ⟨_, hle⟩
        omega
      · intro hlt
        exact ⟨hnext, by omega⟩
  refine ⟨⟨?_, ?_⟩, ?_⟩
  · intro i hi
    rw [h.step i hi, hload i hi, if_congr (hpassed i hi) rfl rfl]
    have hself := hops_self n a
    rcases lt_trichotomy (hops n a i) (hops n a e) with hlt | heq | hgt
    · have hpos := hfirst i hi hlt
      by_cases hia : i = a
      · rw [if_pos hlt, if_pos hia, if_neg (fun hand => hand.1 hia)]
        omega
      · rw [if_pos hlt, if_neg hia, if_pos ⟨hia, hlt.le⟩]
        omega
    · have hie : i = e := hops_inj ha hi he heq
      rw [hie] at heq ⊢
      by_cases hea : e = a
      · rw [if_neg (lt_irrefl _), if_pos hea, if_neg (fun hand => hand.1 hea)]
        omega
      · rw [if_neg (lt_irrefl _), if_neg hea, if_pos ⟨hea, le_rfl⟩]
        omega
    · have hia : i ≠ a := by
        rintro rfl
        omega
      rw [if_neg (by omega), if_neg hia, if_neg (by omega)]
      omega
  · refine ⟨next n e, next_lt he, ?_⟩
    rw [h.step e he, if_neg]
    · omega
    · rw [hpassed e he]
      exact lt_irrefl _
  · rw [sum_add_distrib, ← card_filter, card_entered ha (hops_lt ha he)]

/-- How much flows is decided by how much meets in the slots. -/
theorem Flow.balance (h : Flow n load c) :
    2 * ∑ i ∈ range n, c i + ∑ i ∈ range n, load i =
      2 * ∑ i ∈ range n, c i * load i + ∑ i ∈ range n, load i * load i := by
  have hstep : ∀ i ∈ range n,
      c (next n i) * c (next n i) + c (next n i) + (c i + load i) =
        (c i + load i) * (c i + load i) := by
    intro i hi
    rw [h.step i (mem_range.mp hi)]
    generalize c i + load i = s
    cases s with
    | zero => rfl
    | succ s =>
      rw [Nat.add_sub_cancel]
      ring
  have hsum := sum_congr rfl hstep
  have hsquare : ∀ i ∈ range n, (c i + load i) * (c i + load i) =
      c i * c i + 2 * (c i * load i) + load i * load i := by
    intro i _
    ring
  rw [sum_congr rfl hsquare, sum_add_distrib, sum_add_distrib, sum_add_distrib, sum_add_distrib,
    sum_add_distrib, sum_next n fun i => c i * c i, sum_next, ← mul_sum] at hsum
  omega

end Flow

/-! ## The flow of a table -/

section Table

open Classical

variable {ε κ : Type*} {n : ℕ} {keyOf : ε → κ} {home : κ → ℕ} {t : ℕ → Option ε} {i j g : ℕ}

/-- The home of the entry in a slot. -/
def homeAt (keyOf : ε → κ) (home : κ → ℕ) (t : ℕ → Option ε) (j : ℕ) : Option ℕ :=
  (t j).map fun x => home (keyOf x)

/-- The slots of the entries that come to the slot `i`, with the one that it keeps. -/
noncomputable def through (n : ℕ) (keyOf : ε → κ) (home : κ → ℕ) (t : ℕ → Option ε) (i : ℕ) :
    Finset ℕ :=
  {j ∈ range n | ∃ g, homeAt keyOf home t j = some g ∧ hops n g i ≤ hops n g j}

/-- How many entries have their home in the slot `i`. -/
noncomputable def homed (n : ℕ) (keyOf : ε → κ) (home : κ → ℕ) (t : ℕ → Option ε) (i : ℕ) : ℕ :=
  #{j ∈ range n | homeAt keyOf home t j = some i}

/-- How many entries come to the slot `i` from the slot before. -/
noncomputable def crossing (n : ℕ) (keyOf : ε → κ) (home : κ → ℕ) (t : ℕ → Option ε) (i : ℕ) : ℕ :=
  #{j ∈ range n | ∃ g, homeAt keyOf home t j = some g ∧ i ≠ g ∧ hops n g i ≤ hops n g j}

/-- Homes are slots. -/
theorem homeAt_lt (hhome : ∀ k, home k < n) (h : homeAt keyOf home t j = some g) : g < n := by
  rcases Option.map_eq_some_iff.mp h with ⟨x, _, rfl⟩
  exact hhome _

/-- There is no home at an empty slot. -/
theorem homeAt_none (h : t j = none) : homeAt keyOf home t j = none := by
  rw [homeAt, h]
  rfl

/-- What comes to a slot comes from the slot before, or has its home there. -/
theorem card_through (i : ℕ) :
    #(through n keyOf home t i) = crossing n keyOf home t i + homed n keyOf home t i := by
  rw [crossing, homed, ← card_union_of_disjoint]
  · congr 1
    ext j
    rw [through, mem_union, mem_filter, mem_filter, mem_filter]
    constructor
    · rintro ⟨hj, g, hg, hle⟩
      by_cases hig : i = g
      · exact Or.inr ⟨hj, hig ▸ hg⟩
      · exact Or.inl ⟨hj, g, hg, hig, hle⟩
    · rintro (⟨hj, g, hg, _, hle⟩ | ⟨hj, hg⟩)
      · exact ⟨hj, g, hg, hle⟩
      · refine ⟨hj, i, hg, ?_⟩
        rw [hops_self]
        exact Nat.zero_le _
  · rw [disjoint_filter]
    rintro j _ ⟨g, hg, hne, _⟩ hi
    rw [hg] at hi
    exact hne (Option.some.inj hi).symm

/-- Who comes to the next slot came to this one, and is not kept by it. -/
theorem crossing_next (hhome : ∀ k, home k < n) (hi : i < n) :
    crossing n keyOf home t (next n i) = #((through n keyOf home t i).erase i) := by
  rw [crossing]
  congr 1
  ext j
  rw [mem_erase, through, mem_filter, mem_filter, mem_range]
  constructor
  · rintro ⟨hj, g, hg, hne, hle⟩
    have hright := hops_next_right (homeAt_lt hhome hg) hne
    refine ⟨?_, hj, g, hg, by omega⟩
    rintro rfl
    omega
  · rintro ⟨hji, hj, g, hg, hle⟩
    have hgn := homeAt_lt hhome hg
    have hlt : hops n g i < hops n g j := by
      rcases Nat.lt_or_eq_of_le hle with hlt | heq
      · exact hlt
      · exact absurd (hops_inj hgn hi hj heq).symm hji
    have hne : next n i ≠ g := by
      -- the slot before `g` is the last one on the way around
      intro heq
      have hjn := hops_lt hgn hj
      unfold next at heq
      unfold hops at hlt hjn
      split_ifs at heq hlt hjn <;> omega
    refine ⟨hj, g, hg, hne, ?_⟩
    rw [hops_next_right hgn hne]
    exact hlt

/-- The entry of a slot has come to it. -/
theorem self_mem_through (hi : i < n) : i ∈ through n keyOf home t i ↔ t i ≠ none := by
  rw [through, mem_filter, mem_range]
  constructor
  · rintro ⟨_, g, hg, _⟩ hnone
    rw [homeAt_none hnone] at hg
    cases hg
  · intro hocc
    rcases Option.ne_none_iff_exists'.mp hocc with ⟨x, hx⟩
    exact ⟨hi, home (keyOf x), by rw [homeAt, hx]; rfl, le_rfl⟩

/-- Nothing comes to an empty slot. -/
theorem Valid.through_eq_empty (hv : Valid n keyOf home t) (hhome : ∀ k, home k < n) (hi : i < n)
    (hnone : t i = none) : through n keyOf home t i = ∅ := by
  rw [through, filter_eq_empty_iff]
  rintro j hj ⟨g, hg, hle⟩
  rw [mem_range] at hj
  rcases Option.map_eq_some_iff.mp hg with ⟨x, hx, rfl⟩
  rcases Nat.lt_or_eq_of_le hle with hlt | heq
  · exact hv.chain j x hj hx i hi hlt hnone
  · rw [hops_inj (hhome _) hi hj heq, hx] at hnone
    cases hnone

/-- A slot is free in the flow exactly if it is empty. -/
theorem Valid.free_iff (hv : Valid n keyOf home t) (hhome : ∀ k, home k < n) (hi : i < n) :
    crossing n keyOf home t i + homed n keyOf home t i = 0 ↔ t i = none := by
  rw [← card_through, card_eq_zero]
  constructor
  · intro hempty
    by_contra hocc
    have hself := (@self_mem_through _ _ n keyOf home t i hi).mpr hocc
    rw [hempty] at hself
    exact notMem_empty _ hself
  · exact hv.through_eq_empty hhome hi

/-- The flow of a table with an empty slot. -/
theorem Valid.flow (hv : Valid n keyOf home t) (hhome : ∀ k, home k < n)
    (hspare : ∃ e < n, t e = none) :
    Flow n (homed n keyOf home t) (crossing n keyOf home t) := by
  refine ⟨?_, ?_⟩
  · intro i hi
    rw [crossing_next hhome hi, ← card_through]
    by_cases hocc : t i = none
    · rw [hv.through_eq_empty hhome hi hocc]
      rfl
    · exact card_erase_of_mem ((self_mem_through hi).mpr hocc)
  · rcases hspare with ⟨e, he, hnone⟩
    have hfree := (hv.free_iff hhome he).mpr hnone
    exact ⟨e, he, by omega⟩

/-- The ways of the entries from their homes, taken together. -/
theorem sum_crossing (hhome : ∀ k, home k < n) :
    ∑ i ∈ range n, crossing n keyOf home t i =
      ∑ j ∈ range n, ((homeAt keyOf home t j).map fun g => hops n g j).getD 0 := by
  have hcount := sum_card_bipartiteAbove_eq_sum_card_bipartiteBelow (s := range n) (t := range n)
    fun i j => ∃ g, homeAt keyOf home t j = some g ∧ i ≠ g ∧ hops n g i ≤ hops n g j
  refine hcount.trans (sum_congr rfl ?_)
  intro j hj
  rw [mem_range] at hj
  rw [bipartiteBelow]
  cases hg : homeAt keyOf home t j with
  | none =>
    rw [Option.map_none, Option.getD_none, card_eq_zero, filter_eq_empty_iff]
    rintro i _ ⟨g, hg', _⟩
    cases hg'
  | some g =>
    have hgn := homeAt_lt hhome hg
    rw [Option.map_some, Option.getD_some, ← card_entered hgn (hops_lt hgn hj)]
    congr 1
    ext i
    rw [mem_filter, mem_filter]
    refine and_congr_right fun _ => ?_
    constructor
    · rintro ⟨g', hg', hentered⟩
      cases hg'
      exact hentered
    · intro hentered
      exact ⟨g, rfl, hentered⟩

/-- How many of the keys have their home in the slot `i`. -/
def loadOf (home : κ → ℕ) (K : Finset κ) (i : ℕ) : ℕ := #{k ∈ K | home k = i}

/-- The entries with a home are the stored keys with this home. -/
theorem Valid.homed_eq (hv : Valid n keyOf home t) {K : Finset κ}
    (hstored : ∀ k, k ∈ K ↔ ∃ j < n, ∃ x, t j = some x ∧ keyOf x = k) (i : ℕ) :
    homed n keyOf home t i = loadOf home K i := by
  rw [homed, loadOf]
  -- from the slots to the keys in them
  have hkey : ∀ j ∈ (range n).filter fun j => homeAt keyOf home t j = some i,
      ∃ x, t j = some x ∧ home (keyOf x) = i := by
    intro j hj
    exact Option.map_eq_some_iff.mp (mem_filter.mp hj).2
  choose entry hentry hhomed using hkey
  refine card_bij (fun j hj => keyOf (entry j hj)) ?_ ?_ ?_
  · intro j hj
    refine mem_filter.mpr ⟨(hstored _).mpr ⟨j, ?_, _, hentry j hj, rfl⟩, hhomed j hj⟩
    exact mem_range.mp (mem_filter.mp hj).1
  · intro j hj j' hj' heq
    exact hv.inj j j' _ _ (mem_range.mp (mem_filter.mp hj).1) (mem_range.mp (mem_filter.mp hj').1)
      (hentry j hj) (hentry j' hj') heq
  · intro k hk
    rcases (hstored k).mp (mem_filter.mp hk).1 with ⟨j, hj, x, hx, rfl⟩
    have hmem : j ∈ (range n).filter fun j => homeAt keyOf home t j = some i := by
      refine mem_filter.mpr ⟨mem_range.mpr hj, ?_⟩
      rw [homeAt, hx, Option.map_some, (mem_filter.mp hk).2]
    refine ⟨j, hmem, ?_⟩
    have hsame := hentry j hmem
    rw [hx] at hsame
    rw [← Option.some.inj hsame]

/-- A sum over the slots of the keys is one over all slots, if empty slots count for nothing. -/
theorem Valid.sum_slots (hv : Valid n keyOf home t) {K : Finset κ}
    (hstored : ∀ k, k ∈ K ↔ ∃ j < n, ∃ x, t j = some x ∧ keyOf x = k) {slot : κ → ℕ}
    (hslot : ∀ k ∈ K, slot k < n ∧ ∃ x, t (slot k) = some x ∧ keyOf x = k) {f : ℕ → ℕ}
    (hf : ∀ j < n, t j = none → f j = 0) :
    ∑ k ∈ K, f (slot k) = ∑ j ∈ range n, f j := by
  have hinj : Set.InjOn slot K := by
    intro k hk k' hk' heq
    rcases hslot k hk with ⟨_, x, hx, rfl⟩
    rcases hslot k' hk' with ⟨_, x', hx', rfl⟩
    rw [heq, hx'] at hx
    rw [Option.some.inj hx]
  rw [← sum_image hinj]
  refine sum_subset ?_ ?_
  · intro j hj
    rcases mem_image.mp hj with ⟨k, hk, rfl⟩
    exact mem_range.mpr (hslot k hk).1
  · intro j hj hother
    rw [mem_range] at hj
    -- the slot of a key that is not one of them is empty
    cases hx : t j with
    | none => exact hf j hj hx
    | some x =>
      exfalso
      have hmem := (hstored (keyOf x)).mpr ⟨j, hj, x, hx, rfl⟩
      rcases hslot _ hmem with ⟨hlt, x', hx', hkey⟩
      have hsame := hv.inj _ j x' x hlt hj hx' hx hkey
      exact hother (mem_image.mpr ⟨_, hmem, hsame⟩)

/-- The ways from home, by the keys. -/
theorem Valid.sum_ways (hv : Valid n keyOf home t) {K : Finset κ}
    (hstored : ∀ k, k ∈ K ↔ ∃ j < n, ∃ x, t j = some x ∧ keyOf x = k) {slot : κ → ℕ}
    (hslot : ∀ k ∈ K, slot k < n ∧ ∃ x, t (slot k) = some x ∧ keyOf x = k) :
    ∑ k ∈ K, hops n (home k) (slot k) =
      ∑ j ∈ range n, ((homeAt keyOf home t j).map fun g => hops n g j).getD 0 := by
  rw [← hv.sum_slots hstored hslot]
  · refine sum_congr rfl ?_
    intro k hk
    rcases hslot k hk with ⟨_, x, hx, hkey⟩
    rw [homeAt, hx, ← hkey]
    rfl
  · intro j _ hnone
    rw [homeAt_none hnone, Option.map_none, Option.getD_none]

end Table

end LinearProbing
