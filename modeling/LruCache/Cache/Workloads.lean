import LruCache.Cache.Histories
import LruCache.Cache.Serves

/-!
# What the benchmarks measure

The loops of `benchmarks/benchmark_lru_cache.cpp`, without the clock: which calls they make, and
what becomes of them, for every capacity and every number of operations. Four of them do what
they are called (`labels_true`).

Main results:

* `runBenchmark_totals` — what a benchmark leaves behind is what the reference machine counts.
* `full_loop` — a loop over a full cache, of calls that all hit or all miss.
* `labels_true` — the four benchmarks do what they are called.

Deliberate scope limits:

* Capacities are between 1 and 2^31 - 1; capacity and turns together are at most 2^64, so that
  no index of a loop comes back as a key.
* The clock is left out: nothing is said of how long a call takes.
-/

namespace LruCache

open Recency Transition

/-! ## The loops -/

/-- `for (i = 0; i < n; ++i) cache.put(i, value(i))`. -/
def putLoop (value : Nat → UInt64) (n : Nat) : List Call :=
  (List.range n).map fun i => .put (.ofNat i) (value i)

/-- `benchmark_put_new_keys`: every turn puts another key. -/
def benchmarkPutNewKeys (numOps : Nat) : List Call := putLoop (fun i => .ofNat (i * 10)) numOps

/-- `benchmark_put_existing_keys`: the cache is filled, and its keys are put again in turn. -/
def benchmarkPutExistingKeys (capacity numOps : Nat) : List Call :=
  putLoop .ofNat capacity ++
    (List.range numOps).map fun i => .put (.ofNat (i % capacity)) (.ofNat i)

/-- `benchmark_get_hit`: the cache is filled, and its keys are asked for in turn. -/
def benchmarkGetHit (capacity numOps : Nat) : List Call :=
  putLoop (fun i => .ofNat (i * 10)) capacity ++
    (List.range numOps).map fun i => .get (.ofNat (i % capacity))

/-- `benchmark_get_miss`: the cache is filled, and other keys are asked for. -/
def benchmarkGetMiss (capacity numOps : Nat) : List Call :=
  putLoop .ofNat capacity ++ (List.range numOps).map fun i => .get (.ofNat (capacity + i))

/-- `benchmark_mixed_workload`: every third turn puts, the others ask. -/
def benchmarkMixedWorkload (numOps : Nat) : List Call :=
  (List.range numOps).map fun i =>
    if i % 3 = 0 then .put (.ofNat i) (.ofNat i) else .get (.ofNat (i / 2))

/-- The calls of a benchmark on a new cache. -/
def runBenchmark (capacity : Nat) (calls : List Call) : Except Fault Cache := do
  let cache ← Cache.new capacity
  let (_, cache) ← run (Cache.step (hashKey cache.hashMask)) calls cache
  return cache

/-- The size and the counters of a cache. -/
structure Totals (c : Cache) (size hits misses evictions : Nat) : Prop where
  size : c.size = size
  hits : c.hits = hits
  misses : c.misses = misses
  evictions : c.evictions = evictions

/-! ## The reference machine -/

/-- What the calls make of a new reference machine. -/
def afterCalls (C : Nat) (hpos : 0 < C) (calls : List Call) : State UInt64 UInt64 :=
  (runTotal State.step calls (State.init C hpos)).2

/-- A benchmark ends with a cache that has what the reference has. -/
theorem runBenchmark_sim {C : Nat} (hpos : 0 < C) (hlt : C < 2 ^ 31) (calls : List Call) :
    ∃ hash c, runBenchmark C calls = .ok c ∧ Sim hash c (afterCalls C hpos calls) := by
  rcases Sim.new hpos hlt with ⟨c₀, hnew, hreal, hsim⟩
  rcases (hsim _ hreal).run calls with ⟨c, hrun, hc⟩
  rw [runTotal_reference] at hrun hc
  refine ⟨_, c, ?_, hc⟩
  simp only [runBenchmark, hnew, hrun, bind, Except.bind]
  rfl

/-- The totals are those of the reference, as long as they are 64-bit numbers. -/
theorem runBenchmark_totals {C : Nat} (hpos : 0 < C) (hlt : C < 2 ^ 31) (calls : List Call)
    (hhits : (afterCalls C hpos calls).hits < 2 ^ 64)
    (hmisses : (afterCalls C hpos calls).misses < 2 ^ 64)
    (hevictions : (afterCalls C hpos calls).evictions < 2 ^ 64) :
    ∃ c, runBenchmark C calls = .ok c ∧
      Totals c (afterCalls C hpos calls).store.items.length (afterCalls C hpos calls).hits
        (afterCalls C hpos calls).misses (afterCalls C hpos calls).evictions := by
  rcases runBenchmark_sim hpos hlt calls with ⟨hash, c, hrun, hc⟩
  refine ⟨c, hrun, hc.holds.size_eq, ?_, ?_, ?_⟩
  · rw [hc.hits, wrap, Nat.mod_eq_of_lt hhits]
  · rw [hc.misses, wrap, Nat.mod_eq_of_lt hmisses]
  · rw [hc.evictions, wrap, Nat.mod_eq_of_lt hevictions]

/-- The indices of the loops are below 2^64, so they are different keys. -/
theorem ofNat_injOn {i j : Nat} (hi : i < 2 ^ 64) (hj : j < 2 ^ 64)
    (heq : UInt64.ofNat i = UInt64.ofNat j) : i = j := by
  have hnat := congrArg UInt64.toNat heq
  rw [UInt64.toNat_ofNat_of_lt' hi, UInt64.toNat_ofNat_of_lt' hj] at hnat
  exact hnat

/-! ## Filling the cache -/

/-- The state after `n` puts of new keys. -/
structure Filled (C : Nat) (value : Nat → UInt64) (n : Nat) (s : State UInt64 UInt64) : Prop where
  cap : s.store.cap = C
  items : s.store.items = ((List.range n).reverse.take C).map fun i => (.ofNat i, value i)
  hits : s.hits = 0
  misses : s.misses = 0
  evictions : s.evictions = n - C

section Filled

variable {C n : Nat} {value : Nat → UInt64} {s : State UInt64 UInt64}

/-- The cache holds as many of the keys as fit. -/
theorem Filled.length (h : Filled C value n s) : s.store.items.length = min C n := by
  rw [h.items, List.length_map, List.length_take, List.length_reverse, List.length_range]

/-- No other keys are stored. -/
theorem Filled.mem_keys (h : Filled C value n s) {k : UInt64} (hk : k ∈ keys s.store.items) :
    ∃ i < n, k = .ofNat i := by
  rw [h.items, keys, List.map_map] at hk
  rcases List.mem_map.mp hk with ⟨i, hi, rfl⟩
  have hi := List.mem_of_mem_take hi
  rw [List.mem_reverse, List.mem_range] at hi
  exact ⟨i, hi, rfl⟩

/-- The next key of the loop is a new one. -/
theorem Filled.put (h : Filled C value n s) (hpos : 0 < C) (hn : n < 2 ^ 64) :
    Filled C value (n + 1) (s.put (.ofNat n) (value n)) := by
  have hnew : UInt64.ofNat n ∉ keys s.store.items := by
    intro hmem
    rcases h.mem_keys hmem with ⟨i, hi, heq⟩
    have := ofNat_injOn hn (by omega) heq
    omega
  have hlen := h.length
  -- what is left of the old pairs
  have hroom : room s.store.cap s.store.items =
      ((List.range n).reverse.take (C - 1)).map fun i => (.ofNat i, value i) := by
    rw [h.cap, room]
    by_cases hfull : s.store.items.length = C
    · rw [if_pos hfull, h.items, ← List.map_dropLast, List.dropLast_eq_take, List.take_take,
        List.length_take, List.length_reverse, List.length_range]
      congr 2
      omega
    · rw [if_neg hfull, h.items, List.take_of_length_le, List.take_of_length_le]
      · rw [List.length_reverse, List.length_range]
        omega
      · rw [List.length_reverse, List.length_range]
        omega
  refine ⟨?_, ?_, h.hits, h.misses, ?_⟩
  · rw [State.put, Store.cap_put, h.cap]
  · show (s.store.put _ _).items = _
    rw [Store.items_put_of_notMem hnew, hroom, List.range_succ, List.reverse_append,
      List.reverse_singleton, List.singleton_append]
    rcases C with _ | C
    · omega
    · rw [List.take_succ_cons, Nat.add_sub_cancel, List.map_cons]
  · show s.evictions + (if s.evicts (.ofNat n) then 1 else 0) = n + 1 - C
    rw [h.evictions]
    by_cases hfull : s.store.items.length = s.store.cap
    · rw [if_pos ⟨hnew, hfull⟩]
      rw [h.cap] at hfull
      omega
    · rw [if_neg fun hev => hfull hev.2]
      rw [h.cap] at hfull
      omega

/-- The first loop of every benchmark. -/
theorem filled_putLoop (hpos : 0 < C) (value : Nat → UInt64) (hn : n ≤ 2 ^ 64) :
    Filled C value n (afterCalls C hpos (putLoop value n)) := by
  have hinit : Filled C value 0 (State.init C hpos) := by
    constructor <;> simp [State.init, Store.empty]
  refine runTotal_loop (I := Filled C value) ?_ hinit
  intro i s hi h
  exact h.put hpos (by omega)

end Filled

/-! ## Full caches -/

/-- The cache has the keys `0, …, C - 1`, and has evicted nothing. -/
structure Full (C hits misses : Nat) (s : State UInt64 UInt64) : Prop where
  cap : s.store.cap = C
  length : s.store.items.length = C
  mem : ∀ k, k ∈ keys s.store.items ↔ ∃ i < C, k = .ofNat i
  hits : s.hits = hits
  misses : s.misses = misses
  evictions : s.evictions = 0

section Full

variable {C hits misses : Nat} {value : Nat → UInt64} {s : State UInt64 UInt64} {i : Nat}

/-- A cache that has been filled to its capacity is full. -/
theorem Filled.full (h : Filled C value C s) : Full C 0 0 s where
  cap := h.cap
  length := by rw [h.length, Nat.min_self]
  mem := by
    intro k
    constructor
    · exact h.mem_keys
    · rintro ⟨i, hi, rfl⟩
      rw [h.items, List.take_of_length_le (by simp), keys, List.map_map]
      exact List.mem_map.mpr ⟨i, by simpa using hi, rfl⟩
  hits := h.hits
  misses := h.misses
  evictions := by rw [h.evictions, Nat.sub_self]

/-- Moving a pair to the front changes none of the keys. -/
theorem mem_keys_refresh {k k' v : UInt64} {items : List (UInt64 × UInt64)} (hk : k ∈ keys items) :
    k' ∈ keys ((k, v) :: erase k items) ↔ k' ∈ keys items := by
  rw [keys, List.map_cons, List.mem_cons]
  show k' = k ∨ k' ∈ keys (erase k items) ↔ _
  rw [mem_keys_erase]
  constructor
  · rintro (rfl | ⟨hmem, _⟩)
    · exact hk
    · exact hmem
  · intro hmem
    by_cases heq : k' = k
    · exact Or.inl heq
    · exact Or.inr ⟨hmem, heq⟩

/-- A put of a stored key evicts nothing. -/
theorem Full.put (h : Full C hits misses s) (hi : i < C) (v : UInt64) :
    Full C hits misses (s.put (.ofNat i) v) := by
  have hmem : UInt64.ofNat i ∈ keys s.store.items := (h.mem _).mpr ⟨i, hi, rfl⟩
  have hitems : (s.put (.ofNat i) v).store.items =
      (.ofNat i, v) :: erase (.ofNat i) s.store.items := Store.items_put_of_mem hmem
  refine ⟨?_, ?_, ?_, h.hits, h.misses, ?_⟩
  · rw [State.put, Store.cap_put, h.cap]
  · rw [hitems, List.length_cons, length_erase hmem s.store.nodup, h.length]
  · intro k
    rw [hitems, mem_keys_refresh hmem, h.mem]
  · show s.evictions + (if s.evicts (.ofNat i) then 1 else 0) = 0
    rw [if_neg fun hev => hev.1 hmem, h.evictions]

/-- A get of a stored key hits. -/
theorem Full.get_hit (h : Full C hits misses s) (hi : i < C) :
    Full C (hits + 1) misses (s.get (.ofNat i)).2 := by
  have hmem : UInt64.ofNat i ∈ keys s.store.items := (h.mem _).mpr ⟨i, hi, rfl⟩
  rcases Option.isSome_iff_exists.mp (lookup_isSome.mpr hmem) with ⟨v, hv⟩
  rw [State.get_of_some hv]
  have hitems := Store.items_touch_of_some hv
  refine ⟨?_, ?_, ?_, ?_, h.misses, h.evictions⟩
  · rw [Store.cap_touch, h.cap]
  · rw [hitems, List.length_cons, length_erase hmem s.store.nodup, h.length]
  · intro k
    rw [hitems, mem_keys_refresh hmem, h.mem]
  · rw [h.hits]

/-- A get of any other key misses. -/
theorem Full.get_miss (h : Full C hits misses s) (hi : C ≤ i) (hlt : i < 2 ^ 64) :
    Full C hits (misses + 1) (s.get (.ofNat i)).2 := by
  have hnone : s.store.items.lookup (.ofNat i) = none := by
    rw [lookup_eq_none, h.mem]
    rintro ⟨j, hj, heq⟩
    have := ofNat_injOn hlt (by omega) heq
    omega
  rw [State.get_of_none hnone]
  refine ⟨h.cap, h.length, h.mem, h.hits, ?_, h.evictions⟩
  rw [h.misses]

/-- A loop on a full cache: `hit` and `miss` are what a turn adds to the counters. -/
theorem full_loop (value : Nat → UInt64) (call : Nat → Call) (hit miss : Nat) {n : Nat}
    (hpos : 0 < C) (hC : C < 2 ^ 31)
    (hstep : ∀ i s hits misses, i < n → Full C hits misses s →
      Full C (hits + hit) (misses + miss) (State.step (call i) s).2) :
    Full C (n * hit) (n * miss)
      (afterCalls C hpos (putLoop value C ++ (List.range n).map call)) := by
  have hfull := (filled_putLoop hpos value (n := C) (by omega)).full
  rw [afterCalls, runTotal_append]
  refine runTotal_loop (I := fun i s => Full C (i * hit) (i * miss) s) ?_ ?_
  · intro i s hi h
    rw [Nat.succ_mul, Nat.succ_mul]
    exact hstep i s _ _ hi h
  · rw [Nat.zero_mul, Nat.zero_mul]
    exact hfull

end Full

/-- Four benchmarks do what they are called: all keys are new and the old ones are evicted; all
keys are there, and nothing is evicted; all gets hit; all gets miss. -/
theorem labels_true {C n : Nat} (hpos : 0 < C) (hlt : C < 2 ^ 31) (hn : C + n ≤ 2 ^ 64) :
    (∃ c, runBenchmark C (benchmarkPutNewKeys n) = .ok c ∧ Totals c (min C n) 0 0 (n - C)) ∧
      (∃ c, runBenchmark C (benchmarkPutExistingKeys C n) = .ok c ∧ Totals c C 0 0 0) ∧
      (∃ c, runBenchmark C (benchmarkGetHit C n) = .ok c ∧ Totals c C n 0 0) ∧
      ∃ c, runBenchmark C (benchmarkGetMiss C n) = .ok c ∧ Totals c C 0 n 0 := by
  have hbound : n < 2 ^ 64 := by omega
  -- three of them start with a full cache
  have htotals : ∀ {calls : List Call} {hits misses : Nat},
      Full C hits misses (afterCalls C hpos calls) → hits < 2 ^ 64 → misses < 2 ^ 64 →
      ∃ c, runBenchmark C calls = .ok c ∧ Totals c C hits misses 0 := by
    intro calls hits misses hfull hhits hmisses
    rw [← hfull.hits] at hhits
    rw [← hfull.misses] at hmisses
    have hevictions : (afterCalls C hpos calls).evictions < 2 ^ 64 := by
      rw [hfull.evictions]
      decide
    rcases runBenchmark_totals hpos hlt calls hhits hmisses hevictions with ⟨c, hrun, hc⟩
    rw [hfull.length, hfull.hits, hfull.misses, hfull.evictions] at hc
    exact ⟨c, hrun, hc⟩
  refine ⟨?_, ?_, ?_, ?_⟩
  · have hfilled : Filled C _ n (afterCalls C hpos (benchmarkPutNewKeys n)) :=
      filled_putLoop hpos _ (by omega)
    have hhits := hfilled.hits
    have hmisses := hfilled.misses
    have hevictions := hfilled.evictions
    rcases runBenchmark_totals hpos hlt (benchmarkPutNewKeys n) (by omega) (by omega) (by omega)
      with ⟨c, hrun, hc⟩
    rw [hfilled.length, hhits, hmisses, hevictions] at hc
    exact ⟨c, hrun, hc⟩
  · have hfull := full_loop .ofNat (fun i => .put (.ofNat (i % C)) (.ofNat i)) 0 0 (n := n) hpos hlt
      fun i s _ _ _ h => h.put (Nat.mod_lt i hpos) _
    rw [Nat.mul_zero] at hfull
    exact htotals hfull (by decide) (by decide)
  · have hfull := full_loop (fun i => .ofNat (i * 10)) (fun i => .get (.ofNat (i % C))) 1 0 (n := n)
      hpos hlt
      fun i s _ _ _ h => h.get_hit (Nat.mod_lt i hpos)
    rw [Nat.mul_zero, Nat.mul_one] at hfull
    exact htotals hfull hbound (by decide)
  · have hfull := full_loop .ofNat (fun i => .get (.ofNat (C + i))) 0 1 (n := n) hpos hlt
      fun i s _ _ hi h => h.get_miss (Nat.le_add_right C i) (by omega)
    rw [Nat.mul_zero, Nat.mul_one] at hfull
    exact htotals hfull (by decide) hbound

/-- A cache of two pairs and three turns of each loop: one eviction, none, three hits, three
misses. -/
theorem labels_true_two :
    (∃ c, runBenchmark 2 (benchmarkPutNewKeys 3) = .ok c ∧ Totals c 2 0 0 1) ∧
      (∃ c, runBenchmark 2 (benchmarkPutExistingKeys 2 3) = .ok c ∧ Totals c 2 0 0 0) ∧
      (∃ c, runBenchmark 2 (benchmarkGetHit 2 3) = .ok c ∧ Totals c 2 3 0 0) ∧
      ∃ c, runBenchmark 2 (benchmarkGetMiss 2 3) = .ok c ∧ Totals c 2 0 3 0 :=
  labels_true (C := 2) (n := 3) (by decide) (by decide) (by decide)

end LruCache
