import LruCache.Cache.Workloads
import Mathlib.Order.Interval.Finset.Nat

/-!
# The mixed benchmark

Of the gets of `benchmark_mixed_workload`, which are two out of three calls, about `2 C / 3` find
their key, no matter how many there are (`mixed_hits`): what is put is asked for twice as many
turns later, and after so many turns it has been evicted. With the capacity of 1000 and the
500000 operations of `main`, that is 667 gets out of 333333.

Main results:

* `card_touchedSince_mixed` — the number of keys that come between the put of a key and the get of
  it.
* `mixed_hits` — the exact number of gets that hit, for every capacity and every number of turns.

Deliberate scope limits:

* Capacities are between 1 and 2^31 - 1, and there are at most 2^64 turns.
-/

namespace LruCache

open Recency Transition

/-! ## The turns -/

/-- How many keys are asked for before so many others have been used that they are gone. -/
def foundAgain (C : Nat) : Nat := (2 * C + 2) / 3

/-- The call of turn `i`, and whether it is a `get` that hits: key `3 j` is put in turn `3 j`, and
asked for in turn `6 j + 1`. The keys that the other turns ask for are never put. -/
def mixedEvent (C i : Nat) : Event UInt64 UInt64 :=
  if i % 3 = 0 then (.put (.ofNat i) (.ofNat i), false)
  else (.get (.ofNat (i / 2)), decide (i % 6 = 1 ∧ i / 6 < foundAgain C))

section Mixed

variable {C n i j : Nat}

/-- Every third turn puts its index, a new key. -/
theorem mixedEvent_put (hi : i % 3 = 0) :
    mixedEvent C i = (.put (.ofNat i) (.ofNat i), false) := by
  rw [mixedEvent, if_pos hi]

/-- The others ask for half of their index, which finds its key only if that is a multiple of 3 and
not too long ago. -/
theorem mixedEvent_get (hi : i % 3 ≠ 0) : mixedEvent C i =
    (.get (.ofNat (i / 2)), decide (i % 6 = 1 ∧ i / 6 < foundAgain C)) := by
  rw [mixedEvent, if_neg hi]

/-- A key is written once, by the turn with its number. -/
theorem writes_mixedEvent {k : Nat} (hk : k < 2 ^ 64) (hi : i < 2 ^ 64) :
    writes (UInt64.ofNat k) (mixedEvent C i).1 = decide (i % 3 = 0 ∧ i = k) := by
  by_cases hput : i % 3 = 0
  · rw [mixedEvent_put hput]
    show decide (UInt64.ofNat i = UInt64.ofNat k) = _
    congr 1
    apply propext
    constructor
    · intro heq
      exact ⟨hput, ofNat_injOn hi hk heq⟩
    · rintro ⟨_, rfl⟩
      rfl
  · have hno : decide (i % 3 = 0 ∧ i = k) = false := decide_eq_false fun h => hput h.1
    rw [hno, mixedEvent_get hput]
    rfl

/-- The keys that are touched are multiples of three. -/
theorem touched_mixedEvent {x : UInt64} : touched? (mixedEvent C i) = some x ↔
    ∃ m, x = .ofNat (3 * m) ∧ (i = 3 * m ∨ i = 6 * m + 1 ∧ m < foundAgain C) := by
  by_cases hput : i % 3 = 0
  · rw [mixedEvent_put hput]
    show some (UInt64.ofNat i) = some x ↔ _
    rw [Option.some.injEq]
    constructor
    · rintro rfl
      exact ⟨i / 3, by congr 1; omega, Or.inl (by omega)⟩
    · rintro ⟨m, rfl, rfl | ⟨rfl, _⟩⟩
      · rfl
      · omega
  · rw [mixedEvent_get hput]
    by_cases hhit : i % 6 = 1 ∧ i / 6 < foundAgain C
    · rw [decide_eq_true hhit]
      show some (UInt64.ofNat (i / 2)) = some x ↔ _
      rw [Option.some.injEq]
      constructor
      · rintro rfl
        refine ⟨i / 6, by congr 1; omega, Or.inr ⟨by omega, hhit.2⟩⟩
      · rintro ⟨m, rfl, rfl | ⟨rfl, _⟩⟩
        · omega
        · congr 1
          omega
    · rw [decide_eq_false hhit]
      constructor
      · intro h
        cases h
      · rintro ⟨m, rfl, rfl | ⟨rfl, hm⟩⟩
        · omega
        · exact absurd ⟨by omega, by omega⟩ hhit

/-- Nothing is removed. -/
theorem noErase_mixed (C n : Nat) : NoErase ((List.range n).map (mixedEvent C)) := by
  intro e he
  rcases List.mem_map.mp he with ⟨i, _, rfl⟩
  by_cases hput : i % 3 = 0
  · rw [mixedEvent_put hput]
    exact ⟨nofun, nofun⟩
  · rw [mixedEvent_get hput]
    exact ⟨nofun, nofun⟩

/-- The numbers of the keys that are touched between turn `3 j` and turn `6 j + 1`: those that are
put, and those before `3 j` that are found. -/
def touchedBetween (C j : Nat) : Finset Nat :=
  Finset.Ioc j (2 * j) ∪ Finset.Ico ((j + 1) / 2) (min j (foundAgain C))

/-- The keys that are touched between the put of `3 j` and the turn that asks for it. -/
theorem touchedSince_mixed (hn : 6 * j + 1 ≤ 2 ^ 64) :
    touchedSince (.ofNat (3 * j)) ((List.range (6 * j + 1)).map (mixedEvent C)) =
      (touchedBetween C j).image fun m => UInt64.ofNat (3 * m) := by
  ext x
  rw [mem_touchedSince_range (a := 3 * j) (by omega)]
  · simp only [touched_mixedEvent, touchedBetween, Finset.mem_image, Finset.mem_union,
      Finset.mem_Ioc, Finset.mem_Ico]
    constructor
    · rintro ⟨i, hlow, hhigh, m, rfl, rfl | ⟨rfl, hm⟩⟩
      · exact ⟨m, Or.inl (by omega), rfl⟩
      · exact ⟨m, Or.inr (by omega), rfl⟩
    · rintro ⟨m, hm | hm, rfl⟩
      · exact ⟨3 * m, by omega, by omega, m, rfl, Or.inl rfl⟩
      · exact ⟨6 * m + 1, by omega, by omega, m, rfl, Or.inr ⟨rfl, by omega⟩⟩
  · exact touched_mixedEvent.mpr ⟨j, rfl, Or.inl rfl⟩
  · intro i hlow hhigh htouch
    rcases touched_mixedEvent.mp htouch with ⟨m, hm, rfl | ⟨rfl, _⟩⟩
    · have := ofNat_injOn (by omega) (by omega) hm
      omega
    · have := ofNat_injOn (by omega) (by omega) hm
      omega

/-- How many they are. -/
theorem card_touchedSince_mixed (hn : 6 * j + 1 ≤ 2 ^ 64) :
    (touchedSince (.ofNat (3 * j)) ((List.range (6 * j + 1)).map (mixedEvent C))).card =
      j + (min j (foundAgain C) - (j + 1) / 2) := by
  have hdisjoint : Disjoint (Finset.Ioc j (2 * j))
      (Finset.Ico ((j + 1) / 2) (min j (foundAgain C))) := by
    rw [Finset.disjoint_left]
    intro m hm hm'
    rw [Finset.mem_Ioc] at hm
    rw [Finset.mem_Ico] at hm'
    omega
  have hinj : Set.InjOn (fun m => UInt64.ofNat (3 * m)) (touchedBetween C j) := by
    intro m hm m' hm' heq
    simp only [touchedBetween, Finset.coe_union, Finset.coe_Ioc, Finset.coe_Ico, Set.mem_union,
      Set.mem_Ioc, Set.mem_Ico] at hm hm'
    have := ofNat_injOn (by omega) (by omega) heq
    omega
  rw [touchedSince_mixed hn, Finset.card_image_of_injOn hinj, touchedBetween,
    Finset.card_union_of_disjoint hdisjoint, Nat.card_Ioc, Nat.card_Ico]
  omega

/-- The cache after `n` turns. -/
structure MixedInv (C n : Nat) (s : State UInt64 UInt64) : Prop where
  cap : s.store.cap = C
  remembers : Remembers ((List.range n).map (mixedEvent C)) s.store
  hits : s.hits = min (foundAgain C) ((n + 4) / 6)
  requests : s.hits + s.misses = n - (n + 2) / 3

variable {s : State UInt64 UInt64}

/-- Which of the gets find their key. -/
theorem MixedInv.lookup (h : MixedInv C n s) (hn : n < 2 ^ 64) (hget : n % 3 ≠ 0) :
    (s.store.items.lookup (.ofNat (n / 2))).isSome =
      decide (n % 6 = 1 ∧ n / 6 < foundAgain C) := by
  by_cases hturn : n % 6 = 1
  · -- key `3 j` in turn `6 j + 1`
    have hj : n = 6 * (n / 6) + 1 := by omega
    generalize n / 6 = j at hj
    subst hj
    have hkey : (6 * j + 1) / 2 = 3 * j := by omega
    have hcard := card_touchedSince_mixed (C := C) (j := j) (by omega)
    rw [hkey]
    by_cases hfound : j < foundAgain C
    · have hwrite : lastWrite (.ofNat (3 * j)) ((List.range (6 * j + 1)).map (mixedEvent C)) =
          some (.put (.ofNat (3 * j)) (.ofNat (3 * j))) := by
        rw [lastWrite_range (a := 3 * j) (by omega), mixedEvent_put (by omega)]
        · rw [writes_mixedEvent (by omega) (by omega)]
          exact decide_eq_true ⟨by omega, rfl⟩
        · intro i hlow hhigh
          rw [writes_mixedEvent (by omega) (by omega)]
          exact decide_eq_false fun hi => by omega
      have hfew : (touchedSince (.ofNat (3 * j))
          ((List.range (6 * j + 1)).map (mixedEvent C))).card < s.store.cap := by
        rw [hcard, h.cap]
        unfold foundAgain at *
        omega
      rw [h.remembers.lookup_fresh hwrite hfew, decide_eq_true ⟨by omega, hfound⟩]
      rfl
    · have hmany : s.store.cap ≤ (touchedSince (.ofNat (3 * j))
          ((List.range (6 * j + 1)).map (mixedEvent C))).card := by
        rw [hcard, h.cap]
        unfold foundAgain at *
        omega
      rw [h.remembers.lookup_evicted (noErase_mixed C _) hmany,
        decide_eq_false fun hj => hfound hj.2]
      rfl
  · -- a key that is not a multiple of three
    rw [decide_eq_false fun hj => hturn hj.1]
    cases hlookup : s.store.items.lookup (.ofNat (n / 2)) with
    | none => rfl
    | some v =>
      have hwrite := h.remembers.lookup_some hlookup
      rw [lastWrite_range_none] at hwrite
      · cases hwrite
      · intro i hi
        rw [writes_mixedEvent (by omega) (by omega)]
        exact decide_eq_false fun hi' => by omega

/-- So the next turn does what is foretold of it: by the history of the calls, a key is stored
exactly if fewer than `C` other keys were touched since. -/
theorem MixedInv.step (h : MixedInv C n s) (hn : n < 2 ^ 64) :
    MixedInv C (n + 1) (State.step (mixedEvent C n).1 s).2 := by
  have hhits := h.hits
  have hrequests := h.requests
  have hstep := h.remembers.step (mixedEvent C n).1
  have hcap := (State.cap_step (mixedEvent C n).1 s).trans h.cap
  by_cases hput : n % 3 = 0
  · rw [mixedEvent_put hput] at hstep hcap ⊢
    refine ⟨hcap, ?_, ?_, ?_⟩
    · rw [map_range_succ, mixedEvent_put hput]
      exact hstep
    · show s.hits = _
      omega
    · show s.hits + s.misses = _
      omega
  · have hlookup := h.lookup hn hput
    cases hv : s.store.items.lookup (.ofNat (n / 2)) with
    | none =>
      rw [hv] at hlookup
      have hevent : mixedEvent C n = (.get (.ofNat (n / 2)), false) := by
        rw [mixedEvent_get hput, ← hlookup]
        rfl
      have hmiss := of_decide_eq_false hlookup.symm
      rw [hevent] at hstep hcap ⊢
      simp only [State.step, State.get_of_none hv] at hstep hcap ⊢
      refine ⟨hcap, ?_, ?_, ?_⟩
      · rw [map_range_succ, hevent]
        exact hstep
      · dsimp only
        omega
      · dsimp only
        omega
    | some v =>
      rw [hv] at hlookup
      have hevent : mixedEvent C n = (.get (.ofNat (n / 2)), true) := by
        rw [mixedEvent_get hput, ← hlookup]
        rfl
      have hhit := of_decide_eq_true hlookup.symm
      rw [hevent] at hstep hcap ⊢
      simp only [State.step, State.get_of_some hv] at hstep hcap ⊢
      refine ⟨hcap, ?_, ?_, ?_⟩
      · rw [map_range_succ, hevent]
        exact hstep
      · dsimp only
        omega
      · dsimp only
        omega

end Mixed

/-- The mixed benchmark makes `n - (n + 2) / 3` gets in `n` turns, of which no more than
`(2 C + 2) / 3` hit, however large `n` is. -/
theorem mixed_hits {C n : Nat} (hpos : 0 < C) (hlt : C < 2 ^ 31) (hn : n ≤ 2 ^ 64) :
    ∃ c, runBenchmark C (benchmarkMixedWorkload n) = .ok c ∧
      c.hits = min ((2 * C + 2) / 3) ((n + 4) / 6) ∧ c.hits + c.misses = n - (n + 2) / 3 := by
  have hcalls : benchmarkMixedWorkload n = (List.range n).map fun i => (mixedEvent C i).1 := by
    refine List.map_congr_left ?_
    intro i _
    rw [mixedEvent]
    split <;> rfl
  have hinit : MixedInv C 0 (State.init C hpos) :=
    ⟨rfl, Remembers.init C hpos, (Nat.min_zero _).symm, rfl⟩
  have h : MixedInv C n (afterCalls C hpos (benchmarkMixedWorkload n)) := by
    rw [hcalls]
    refine runTotal_loop (I := MixedInv C) ?_ hinit
    intro i s hi h
    exact h.step (by omega)
  have hhits := h.hits
  have hrequests := h.requests
  rcases runBenchmark_sim hpos hlt (benchmarkMixedWorkload n) with ⟨hash, c, hrun, hc⟩
  refine ⟨c, hrun, ?_, ?_⟩
  · rw [hc.hits, wrap, Nat.mod_eq_of_lt (by omega)]
    exact hhits
  · rw [hc.hits, hc.misses, wrap, wrap, Nat.mod_eq_of_lt (by omega), Nat.mod_eq_of_lt (by omega)]
    exact hrequests

/-- Ten turns on a cache of one pair: six gets, of which only that of the second turn hits; the
later ones ask for keys that were never put or have been evicted. -/
theorem mixed_hits_two :
    ∃ c, runBenchmark 1 (benchmarkMixedWorkload 10) = .ok c ∧ c.hits = 1 ∧
      c.hits + c.misses = 6 :=
  mixed_hits (C := 1) (n := 10) (by decide) (by decide) (by decide)

end LruCache
