import LruCache.Cache.Workloads
import LruCache.Lib.Draws

/-!
# The stress test

`benchmark_extreme_stress_test` fills the cache and then draws, for each turn, one of `10 C + 1`
keys and whether it is put or asked for. Whatever was drawn before, the cache is full of keys that
can be drawn again; so each turn is a hit, a miss, an eviction or none of these with chances that
do not depend on the others, and the counters over all sequences of draws are those of independent
throws (`stress_test_counts`). Of the gets, not quite one in ten hits.

Main results:

* `Stressed.sum_turn` — what one turn contributes, whatever the cache holds.
* `stress_test_counts` — the joint distribution of the counters over all sequences of draws, and
  the number of hits.

Deliberate scope limits:

* Capacities are between 1 and 2^31 - 1, and there are fewer than 2^64 turns.
* A draw is any key and any of the 101 values of `op`, all of them equally likely. The generator of
  the benchmark and its seed are not modelled.
-/

namespace LruCache

open Recency Transition
open Finset (univ)
open Polynomial (X)

/-- What is drawn for a turn: by `dist`, and by `op_dist`. -/
abbrev StressDraw (capacity : Nat) := Fin (capacity * 10 + 1) × Fin 101

/-- One turn: the key is put, with itself as value, or asked for. -/
def stressTurn {capacity : Nat} (draw : StressDraw capacity) : Call :=
  if draw.2.val < 50 then .put (.ofNat draw.1) (.ofNat draw.1) else .get (.ofNat draw.1)

/-- `benchmark_extreme_stress_test`: the cache is filled, and the turns follow. -/
def benchmarkExtremeStressTest (capacity : Nat) (draws : List (StressDraw capacity)) : List Call :=
  putLoop .ofNat capacity ++ draws.map stressTurn

/-! ## The full cache -/

/-- The cache is full of pairs that a turn can put. -/
structure Stressed (C : Nat) (s : State UInt64 UInt64) : Prop where
  cap : s.store.cap = C
  length : s.store.items.length = C
  drawn : ∀ p ∈ s.store.items, ∃ i ≤ C * 10, p = (.ofNat i, .ofNat i)

section Stressed

variable {C i : Nat} {s : State UInt64 UInt64}

/-- The cache is full, and stays full. -/
theorem Stressed.length_put (h : Stressed C s) (k v : UInt64) :
    (s.put k v).store.items.length = C := by
  show (s.store.put k v).items.length = C
  by_cases hk : k ∈ keys s.store.items
  · rw [Store.items_put_of_mem hk, List.length_cons, length_erase hk s.store.nodup, h.length]
  · rw [Store.items_put_of_notMem hk, List.length_cons, room, if_pos (h.length.trans h.cap.symm),
      List.length_dropLast, h.length]
    have := s.store.cap_pos
    have := h.cap
    omega

/-- The key that is put has itself as value. -/
theorem Stressed.put (h : Stressed C s) (hi : i ≤ C * 10) :
    Stressed C (s.put (.ofNat i) (.ofNat i)) := by
  refine ⟨?_, h.length_put _ _, ?_⟩
  · rw [State.put, Store.cap_put, h.cap]
  · intro p hp
    rcases State.mem_put hp with rfl | hmem
    · exact ⟨i, hi, rfl⟩
    · exact h.drawn p hmem

/-- A get changes the order only. -/
theorem Stressed.get (h : Stressed C s) (k : UInt64) : Stressed C (s.get k).2 := by
  refine ⟨?_, ?_, fun p hp => h.drawn p (State.mem_get hp)⟩
  · rw [← h.cap]
    exact State.cap_step (.get k) s
  · cases hv : s.store.items.lookup k with
    | none => rw [State.get_of_none hv, h.length]
    | some v =>
      have hk := lookup_isSome.mp (Option.isSome_iff_exists.mpr ⟨v, hv⟩)
      rw [State.get_of_some hv, Store.items_touch_of_some hv, List.length_cons,
        length_erase hk s.store.nodup, h.length]

/-- So every turn keeps this. -/
theorem Stressed.turn (draw : StressDraw C) (h : Stressed C s) :
    Stressed C (State.step (stressTurn draw) s).2 := by
  rw [stressTurn]
  split
  · exact h.put (Nat.lt_succ_iff.mp draw.1.isLt)
  · exact h.get _

/-- And the filled cache begins with it. -/
theorem Filled.stressed (h : Filled C .ofNat C s) : Stressed C s := by
  refine ⟨h.cap, h.full.length, ?_⟩
  intro p hp
  rw [h.items] at hp
  rcases List.mem_map.mp hp with ⟨i, hi, rfl⟩
  have hi := List.mem_of_mem_take hi
  rw [List.mem_reverse, List.mem_range] at hi
  exact ⟨i, by omega, rfl⟩

/-- How many of the keys that can be drawn are in the cache. -/
theorem Stressed.card_stored (h : Stressed C s) (hC : C < 2 ^ 31) :
    (univ.filter fun k : Fin (C * 10 + 1) => .ofNat k ∈ keys s.store.items).card = C := by
  have hinj : Function.Injective fun k : Fin (C * 10 + 1) => UInt64.ofNat k := by
    intro k k' heq
    exact Fin.ext (ofNat_injOn (by omega) (by omega) heq)
  have himage : (univ.filter fun k : Fin (C * 10 + 1) => .ofNat k ∈ keys s.store.items).image
      (fun k : Fin (C * 10 + 1) => UInt64.ofNat k) = (keys s.store.items).toFinset := by
    ext x
    simp only [Finset.mem_image, Finset.mem_filter, Finset.mem_univ, true_and, List.mem_toFinset]
    constructor
    · rintro ⟨k, hk, rfl⟩
      exact hk
    · intro hx
      rcases List.mem_map.mp hx with ⟨p, hp, rfl⟩
      rcases h.drawn p hp with ⟨i, hi, rfl⟩
      exact ⟨⟨i, by omega⟩, hx, rfl⟩
  rw [← Finset.card_image_of_injective _ hinj, himage,
    List.toFinset_card_of_nodup s.store.nodup, keys, List.length_map, h.length]

end Stressed

/-! ## One turn -/

section Turn

variable {R : Type*} [CommSemiring R] {C : Nat} {s : State UInt64 UInt64} {x y z : R}

/-- The counters, as powers of the variables of a generating function. -/
def counterWeight (x y z : R) (s : State UInt64 UInt64) : R :=
  x ^ s.hits * y ^ s.misses * z ^ s.evictions

/-- The operations drawn: 50 of the 101 are puts. -/
theorem sum_ops (a b : R) : ∑ op : Fin 101, (if op.val < 50 then a else b) = 50 * a + 51 * b := by
  have hputs : (univ.filter fun op : Fin 101 => op.val < 50).card = 50 := by decide
  have hgets : (univ.filter fun op : Fin 101 => ¬ op.val < 50).card = 51 := by decide
  rw [Finset.sum_ite, Finset.sum_const, Finset.sum_const, hputs, hgets, nsmul_eq_mul, nsmul_eq_mul]
  norm_num

/-- A put of a key that is not stored evicts, as the cache is full. -/
theorem Stressed.weight_put (h : Stressed C s) (k v : UInt64) :
    counterWeight x y z (s.put k v) =
      counterWeight x y z s * if k ∈ keys s.store.items then 1 else z := by
  have hfull := h.length.trans h.cap.symm
  by_cases hk : k ∈ keys s.store.items
  · rw [if_pos hk, mul_one, counterWeight, State.put, if_neg fun hev => hev.1 hk]
    rfl
  · rw [if_neg hk, counterWeight, State.put, if_pos ⟨hk, hfull⟩]
    show _ * _ * z ^ (s.evictions + 1) = _
    rw [pow_succ, ← mul_assoc]
    rfl

/-- A get counts a hit or a miss. -/
theorem weight_get (k : UInt64) :
    counterWeight x y z (s.get k).2 =
      counterWeight x y z s * if k ∈ keys s.store.items then x else y := by
  cases hv : s.store.items.lookup k with
  | none =>
    rw [State.get_of_none hv, if_neg (lookup_eq_none.mp hv), counterWeight, counterWeight]
    show _ * y ^ (s.misses + 1) * _ = _
    ring
  | some v =>
    have hk := lookup_isSome.mp (Option.isSome_iff_exists.mpr ⟨v, hv⟩)
    rw [State.get_of_some hv, if_pos hk, counterWeight, counterWeight]
    show x ^ (s.hits + 1) * _ * _ = _
    ring

/-- The turns from a state, by what they count. -/
theorem Stressed.sum_turn (h : Stressed C s) (hC : C < 2 ^ 31) :
    ∑ draw : StressDraw C, counterWeight x y z (State.step (stressTurn draw) s).2 =
      counterWeight x y z s *
        (51 * C * x + 51 * (9 * C + 1) * y + 50 * (9 * C + 1) * z + 50 * C) := by
  -- one key, with all the operations
  have hkey : ∀ k : Fin (C * 10 + 1),
      ∑ op : Fin 101, counterWeight x y z (State.step (stressTurn (k, op)) s).2 =
        if .ofNat k ∈ keys s.store.items then counterWeight x y z s * (50 + 51 * x)
        else counterWeight x y z s * (50 * z + 51 * y) := by
    intro k
    have hop : ∀ op : Fin 101, counterWeight x y z (State.step (stressTurn (k, op)) s).2 =
        if op.val < 50 then counterWeight x y z (s.put (.ofNat k) (.ofNat k))
        else counterWeight x y z (s.get (.ofNat k)).2 := by
      intro op
      rw [stressTurn]
      split <;> rfl
    rw [Finset.sum_congr rfl fun op _ => hop op, sum_ops, h.weight_put, weight_get]
    split <;> ring
  have hothers : (univ.filter fun k : Fin (C * 10 + 1) =>
      ¬ .ofNat k ∈ keys s.store.items).card = 9 * C + 1 := by
    have hall := Finset.card_filter_add_card_filter_not (s := (univ : Finset (Fin (C * 10 + 1))))
      fun k => .ofNat k ∈ keys s.store.items
    rw [h.card_stored hC, Finset.card_univ, Fintype.card_fin] at hall
    omega
  rw [Fintype.sum_prod_type, Finset.sum_congr rfl fun k _ => hkey k, Finset.sum_ite,
    Finset.sum_const, Finset.sum_const, h.card_stored hC, hothers, nsmul_eq_mul, nsmul_eq_mul]
  push_cast
  ring

end Turn

/-! ## All sequences of draws -/

section Runs

variable {C n : Nat}

/-- The reference after the stress test. -/
def afterStress (C : Nat) (hpos : 0 < C) (draws : List (StressDraw C)) : State UInt64 UInt64 :=
  afterCalls C hpos (benchmarkExtremeStressTest C draws)

/-- The turns follow the filling. -/
theorem afterStress_eq (hpos : 0 < C) (draws : List (StressDraw C)) :
    afterStress C hpos draws =
      (runTotal State.step (draws.map stressTurn) (afterCalls C hpos (putLoop .ofNat C))).2 :=
  runTotal_append State.step ..

/-- After any draws the cache is full of keys that can be drawn. -/
theorem stressed_afterStress (hpos : 0 < C) (hC : C < 2 ^ 31) (draws : List (StressDraw C)) :
    Stressed C (afterStress C hpos draws) := by
  rw [afterStress_eq]
  induction draws using List.reverseRecOn with
  | nil => exact (filled_putLoop hpos _ (by omega)).stressed
  | append_singleton draws draw ih =>
    rw [List.map_append, runTotal_append]
    exact ih.turn draw

/-- By induction on the turns: the sum over all sequences of draws is a power, since each turn
contributes the same factor. -/
theorem sum_afterStress {R : Type*} [CommSemiring R] (hpos : 0 < C) (hC : C < 2 ^ 31) (x y z : R) :
    ∑ draws : Fin n → StressDraw C, counterWeight x y z (afterStress C hpos (List.ofFn draws)) =
      (51 * C * x + 51 * (9 * C + 1) * y + 50 * (9 * C + 1) * z + 50 * C) ^ n := by
  have hfilled : Filled C .ofNat C (afterCalls C hpos (putLoop .ofNat C)) :=
    filled_putLoop hpos _ (by omega)
  have hone : counterWeight x y z (afterCalls C hpos (putLoop .ofNat C)) = 1 := by
    rw [counterWeight, hfilled.hits, hfilled.misses, hfilled.evictions]
    simp
  simp only [afterStress_eq]
  rw [sum_runTotal (I := Stressed C) (fun draw _ h => h.turn draw)
    (fun _ h => h.sum_turn hC) n hfilled.stressed, hone, one_mul]

/-- The gets among the turns. -/
def stressGets (draws : List (StressDraw C)) : Nat :=
  draws.countP fun draw => decide (50 ≤ draw.2.val)

/-- Each get is counted as a hit or as a miss; the other turns evict one pair at most. -/
theorem counters_afterStress (hpos : 0 < C) (hC : C < 2 ^ 31) (draws : List (StressDraw C)) :
    (afterStress C hpos draws).hits + (afterStress C hpos draws).misses = stressGets draws ∧
      (afterStress C hpos draws).evictions + stressGets draws ≤ draws.length := by
  rw [afterStress_eq]
  induction draws using List.reverseRecOn with
  | nil =>
    have hfilled : Filled C .ofNat C (afterCalls C hpos (putLoop .ofNat C)) :=
      filled_putLoop hpos _ (by omega)
    have hhits := hfilled.hits
    have hmisses := hfilled.misses
    have hevictions := hfilled.evictions
    simp only [stressGets, List.map_nil, runTotal, List.countP_nil, List.length_nil]
    omega
  | append_singleton draws draw ih =>
    rw [List.map_append, runTotal_append]
    generalize (runTotal State.step (draws.map stressTurn) _).2 = s at ih
    rcases ih with ⟨hgets, hevictions⟩
    rw [stressGets, List.countP_append, List.length_append, ← stressGets]
    show (State.step (stressTurn draw) s).2.hits + (State.step (stressTurn draw) s).2.misses = _ ∧
      (State.step (stressTurn draw) s).2.evictions + _ ≤ _
    rw [stressTurn]
    by_cases hop : draw.2.val < 50
    · have hnot : ([draw].countP fun draw => decide (50 ≤ draw.2.val)) = 0 := by
        simp only [List.countP_singleton]
        rw [decide_eq_false (by omega)]
        rfl
      rw [if_pos hop, hnot]
      show s.hits + s.misses = _ ∧
        s.evictions + (if s.evicts (.ofNat draw.1) then 1 else 0) + _ ≤ _
      rw [List.length_singleton]
      refine ⟨hgets, ?_⟩
      split <;> omega
    · have hone : ([draw].countP fun draw => decide (50 ≤ draw.2.val)) = 1 := by
        simp only [List.countP_singleton]
        rw [decide_eq_true (by omega)]
        rfl
      rw [if_neg hop, hone, List.length_singleton]
      show (s.get (.ofNat draw.1)).2.hits + (s.get (.ofNat draw.1)).2.misses = _ ∧
        (s.get (.ofNat draw.1)).2.evictions + _ ≤ _
      cases hv : s.store.items.lookup (.ofNat draw.1) with
      | none =>
        rw [State.get_of_none hv]
        exact ⟨by simp only; omega, by simp only; omega⟩
      | some v =>
        rw [State.get_of_some hv]
        exact ⟨by simp only; omega, by simp only; omega⟩

/-- Every run of the stress test ends with a full cache that has each key with itself as value.
Over all sequences of draws the hits, the misses and the evictions are distributed as in `n`
independent throws, with chances `51 C`, `51 (9 C + 1)` and `50 (9 C + 1)` in `101 (10 C + 1)`; so
the number of hits is binomially distributed. -/
theorem stress_test_counts (hpos : 0 < C) (hC : C < 2 ^ 31) (hn : n < 2 ^ 64) :
    ∃ final : (Fin n → StressDraw C) → Cache,
      (∀ draws,
        runBenchmark C (benchmarkExtremeStressTest C (List.ofFn draws)) = .ok (final draws) ∧
        (final draws).size = C ∧ (∀ p ∈ (final draws).pairs, p.1 = p.2) ∧
        (final draws).hits + (final draws).misses = stressGets (List.ofFn draws)) ∧
      (∀ x y z : Nat,
        ∑ draws, x ^ (final draws).hits * y ^ (final draws).misses * z ^ (final draws).evictions =
          (51 * C * x + 51 * (9 * C + 1) * y + 50 * (9 * C + 1) * z + 50 * C) ^ n) ∧
      ∀ k, (univ.filter fun draws => (final draws).hits = k).card =
        n.choose k * (51 * C) ^ k * (51 * (9 * C + 1) + 50 * (10 * C + 1)) ^ (n - k) := by
  have hruns : ∀ draws : Fin n → StressDraw C, ∃ c,
      runBenchmark C (benchmarkExtremeStressTest C (List.ofFn draws)) = .ok c ∧
      (∀ p ∈ c.pairs, p.1 = p.2) ∧ Totals c C (afterStress C hpos (List.ofFn draws)).hits
        (afterStress C hpos (List.ofFn draws)).misses
        (afterStress C hpos (List.ofFn draws)).evictions := by
    intro draws
    rcases runBenchmark_sim hpos hC (benchmarkExtremeStressTest C (List.ofFn draws)) with
      ⟨hash, c, hrun, hc⟩
    have hstressed := stressed_afterStress hpos hC (List.ofFn draws)
    have hcounters := counters_afterStress hpos hC (List.ofFn draws)
    rw [List.length_ofFn] at hcounters
    have hwrap : ∀ m ≤ n, wrap m = m := fun m hm => Nat.mod_eq_of_lt (by omega)
    refine ⟨c, hrun, ?_, hc.holds.size_eq.trans hstressed.length, ?_, ?_, ?_⟩
    · intro p hp
      rw [hc.holds.pairs_eq] at hp
      rcases hstressed.drawn p hp with ⟨i, _, rfl⟩
      rfl
    · rw [hc.hits, ← afterStress, hwrap _ (by omega)]
    · rw [hc.misses, ← afterStress, hwrap _ (by omega)]
    · rw [hc.evictions, ← afterStress, hwrap _ (by omega)]
  choose final hrun hpairs htotals using hruns
  refine ⟨final, ?_, ?_, ?_⟩
  · intro draws
    refine ⟨hrun draws, (htotals draws).size, hpairs draws, ?_⟩
    rw [(htotals draws).hits, (htotals draws).misses]
    exact (counters_afterStress hpos hC (List.ofFn draws)).1
  · intro x y z
    simp only [(htotals _).hits, (htotals _).misses, (htotals _).evictions]
    exact_mod_cast sum_afterStress (n := n) hpos hC x y z
  · refine card_count ?_
    have hsum := sum_afterStress (n := n) hpos hC (X : Polynomial Nat) 1 1
    simp only [counterWeight, one_pow, mul_one] at hsum
    simp only [(htotals _).hits]
    have hcast : ∀ m : Nat, Polynomial.C m = (m : Polynomial Nat) := by
      intro m
      rw [← Polynomial.C_eq_natCast, Nat.cast_id]
    rw [hsum, hcast, hcast]
    push_cast
    ring

/-- Two turns on a cache of one pair. Of the `1111 ^ 2` draws, these hit twice. -/
theorem stress_test_counts_two : ∃ final : (Fin 2 → StressDraw 1) → Cache,
    (∀ draws,
      runBenchmark 1 (benchmarkExtremeStressTest 1 (List.ofFn draws)) = .ok (final draws)) ∧
    (univ.filter fun draws => (final draws).hits = 2).card = 51 ^ 2 := by
  rcases stress_test_counts (C := 1) (n := 2) (by decide) (by decide) (by decide) with
    ⟨final, hrun, _, hcount⟩
  exact ⟨final, fun draws => (hrun draws).1, hcount 2⟩

end Runs

end LruCache
