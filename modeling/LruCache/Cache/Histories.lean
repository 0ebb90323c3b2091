import LruCache.Cache.WellFormed
import LruCache.Lib.History
import LruCache.Lib.Inclusion

/-!
# Capacities and histories

Two results about the recency list, carried over to the cache by the refinement: a cache with
more capacity never misses where one with less hits (`more_capacity_never_costs`), and what `get`
returns is decided by the history of the calls (`get_by_history`).

Main results:

* `more_capacity_never_costs` — at every point of a run, what the smaller cache holds the larger
  one holds as well, in the same order; so the larger one has at least as many hits.
* `get_by_history` — what `get` returns can be told from the calls before it.

Deliberate scope limits:

* The two caches may have different hash functions, and get the same calls.
* The counts of hits are compared as the code keeps them, so before they wrap around.
-/

namespace LruCache

open Recency Transition

/-! ## The reference machine again -/

/-- The reference with the answers of the code runs as the one with its own. -/
theorem runTotal_reference (ops : List Call) (s : State UInt64 UInt64) :
    runTotal referenceStep ops s =
      ((runTotal State.step ops s).1.map returned, (runTotal State.step ops s).2) :=
  runTotal_map returned State.step ops s

/-- A cache that holds a list of pairs shows it. -/
theorem Holds.pairs_eq {hash : UInt64 → Nat} {cap : Nat} {c : Cache}
    {items : List (UInt64 × UInt64)} (h : Holds hash cap c items) : c.pairs = items := by
  rcases h with ⟨order, free, n, t, hrep, rfl⟩
  rw [Cache.pairs, hrep.order_eq]

section Get

variable {hash : UInt64 → Nat} {c : Cache} {s : State UInt64 UInt64} {k v : UInt64}

/-- `get` hits with the value that the reference has. -/
theorem Sim.get_hit_iff (h : Sim hash c s) :
    (∃ c', c.get hash k = .ok ({ found := true, value := v }, c')) ↔
      s.store.items.lookup k = some v := by
  rcases h.get k with ⟨r, c', hrun, hr, _⟩
  rw [State.get_fst] at hr
  constructor
  · rintro ⟨c'', hrun'⟩
    rw [hrun] at hrun'
    cases hrun'
    cases hv : s.store.items.lookup k with
    | none =>
      rw [hv] at hr
      cases hr
    | some v' =>
      rw [hv] at hr
      cases hr
      rfl
  · intro hv
    rw [hv] at hr
    refine ⟨c', ?_⟩
    rw [hrun, Returned.got.inj hr]

/-- `get` misses where the reference does. -/
theorem Sim.get_miss (h : Sim hash c s) (hv : s.store.items.lookup k = none) :
    ∃ c', c.get hash k = .ok ({ found := false, value := 0 }, c') := by
  rcases h.get k with ⟨r, c', hrun, hr, _⟩
  rw [State.get_fst, hv] at hr
  refine ⟨c', ?_⟩
  rw [hrun, Returned.got.inj hr]

end Get

/-! ## More capacity -/

/-- **Inclusion.** The same calls on caches of capacities `C₁ ≤ C₂`, with a hash function for
each. The pairs of the smaller cache are pairs of the larger one, in the same order of recency;
a `get` that hits in the smaller cache returns the same from the larger one; and as long as the
counters do not wrap around, the larger cache counts no fewer hits and no more evictions. -/
theorem more_capacity_never_costs {C₁ C₂ : Nat} (hpos₁ : 0 < C₁) (hpos₂ : 0 < C₂) (hle : C₁ ≤ C₂)
    (hlt : C₂ < 2 ^ 31) :
    ∃ c₁ c₂, Cache.new C₁ = .ok c₁ ∧ Cache.new C₂ = .ok c₂ ∧
      (∀ k, hashKey c₁.hashMask k < c₁.hashTable.length) ∧
      (∀ k, hashKey c₂.hashMask k < c₂.hashTable.length) ∧
      ∀ hash₁ hash₂ : UInt64 → Nat, (∀ k, hash₁ k < c₁.hashTable.length) →
        (∀ k, hash₂ k < c₂.hashTable.length) → ∀ ops : List Call,
        ∃ rs₁ rs₂ d₁ d₂, run (Cache.step hash₁) ops c₁ = .ok (rs₁, d₁) ∧
          run (Cache.step hash₂) ops c₂ = .ok (rs₂, d₂) ∧
          d₁.pairs.Sublist d₂.pairs ∧
          (∀ k v, (∃ d, d₁.get hash₁ k = .ok ({ found := true, value := v }, d)) →
            ∃ d, d₂.get hash₂ k = .ok ({ found := true, value := v }, d)) ∧
          ((reference C₂ hpos₂ ops).hits < 2 ^ 64 → d₁.hits ≤ d₂.hits) ∧
          ((reference C₁ hpos₁ ops).evictions < 2 ^ 64 → d₂.evictions ≤ d₁.evictions) := by
  rcases Sim.new hpos₁ (by omega) with ⟨c₁, hnew₁, hreal₁, hsim₁⟩
  rcases Sim.new hpos₂ hlt with ⟨c₂, hnew₂, hreal₂, hsim₂⟩
  refine ⟨c₁, c₂, hnew₁, hnew₂, hreal₁, hreal₂, ?_⟩
  intro hash₁ hash₂ hhash₁ hhash₂ ops
  rcases (hsim₁ hash₁ hhash₁).run ops with ⟨d₁, hrun₁, h₁⟩
  rcases (hsim₂ hash₂ hhash₂).run ops with ⟨d₂, hrun₂, h₂⟩
  -- the two references are compared; each cache holds what its reference does
  have hinc : Includes (reference C₁ hpos₁ ops) (reference C₂ hpos₂ ops) := by
    simp only [reference, runTotal_reference]
    exact Includes.run hpos₁ hpos₂ hle ops
  refine ⟨_, _, d₁, d₂, hrun₁, hrun₂, ?_, ?_, ?_, ?_⟩
  · rw [h₁.holds.pairs_eq, h₂.holds.pairs_eq]
    exact hinc.sublist
  · intro k v hget
    exact h₂.get_hit_iff.mpr (hinc.lookup (h₁.get_hit_iff.mp hget))
  · intro hbound
    have hhits := hinc.hits
    rw [h₁.hits, h₂.hits]
    show wrap (reference C₁ hpos₁ ops).hits ≤ wrap (reference C₂ hpos₂ ops).hits
    rw [wrap, wrap, Nat.mod_eq_of_lt (by omega), Nat.mod_eq_of_lt hbound]
    exact hhits
  · intro hbound
    have hevict := hinc.evictions
    rw [h₁.evictions, h₂.evictions]
    show wrap (reference C₂ hpos₂ ops).evictions ≤ wrap (reference C₁ hpos₁ ops).evictions
    rw [wrap, wrap, Nat.mod_eq_of_lt (by omega), Nat.mod_eq_of_lt hbound]
    exact hevict

/-- With room for one pair the first get misses, with room for two it hits. -/
theorem more_capacity_never_costs_two :
    ∃ c₁ c₂ rs₁ rs₂ d₁ d₂, Cache.new 1 = .ok c₁ ∧ Cache.new 2 = .ok c₂ ∧
      run (Cache.step (hashKey c₁.hashMask)) [.put 1 10, .put 2 20, .get 1, .get 2] c₁ =
        .ok (rs₁, d₁) ∧
      run (Cache.step (hashKey c₂.hashMask)) [.put 1 10, .put 2 20, .get 1, .get 2] c₂ =
        .ok (rs₂, d₂) ∧
      d₁.pairs.Sublist d₂.pairs ∧ d₁.hits ≤ d₂.hits ∧ d₂.evictions ≤ d₁.evictions := by
  have hle : 1 ≤ 2 := by decide
  rcases more_capacity_never_costs (by decide) (by decide) hle (by decide) with
    ⟨c₁, c₂, hnew₁, hnew₂, hreal₁, hreal₂, h⟩
  rcases h _ _ hreal₁ hreal₂ [.put 1 10, .put 2 20, .get 1, .get 2] with
    ⟨rs₁, rs₂, d₁, d₂, hrun₁, hrun₂, hsub, _, hhits, hevict⟩
  exact ⟨c₁, c₂, rs₁, rs₂, d₁, d₂, hnew₁, hnew₂, hrun₁, hrun₂, hsub, hhits (by decide +kernel),
    hevict (by decide +kernel)⟩

/-! ## Histories -/

/-- Was the call a `get` that found its key? -/
def Returned.hit : Returned → Bool
  | .got r => r.found
  | _ => false

/-- The history of a run: its calls, and whether each hit. -/
def eventsOf (ops : List Call) (rs : List Returned) : List (Event UInt64 UInt64) :=
  (ops.zip rs).map fun e => (e.1, e.2.hit)

/-- Translating an answer leaves it a hit or a miss. -/
theorem hit_returned (a : Answer UInt64) : (returned a).hit = a.hit := by
  rcases a with _ | (_ | v) | b <;> rfl

/-- The events that can be read off the answers are those of the history. -/
theorem eventsOf_reference (ops : List Call) (s : State UInt64 UInt64) :
    eventsOf ops (runTotal referenceStep ops s).1 = history ops s := by
  rw [runTotal_reference, eventsOf, history, List.zip_map_right, List.map_map]
  refine List.map_congr_left ?_
  intro e _
  simp only [Function.comp_apply, Prod.map_fst, Prod.map_snd, id_eq, hit_returned]

/-- **Histories.** After any run, `get` of a key is decided by the events of the run: a value
that it returns is that of the latest write, which is a `put`; a key that was written last by a
`put` is found while fewer than `C` other keys were touched since its own last touch; and without
`remove` and `clear` it is not found once `C` or more were. -/
theorem get_by_history {C : Nat} (hpos : 0 < C) (hlt : C < 2 ^ 31) :
    ∃ c₀, Cache.new C = .ok c₀ ∧ (∀ k, hashKey c₀.hashMask k < c₀.hashTable.length) ∧
      ∀ hash : UInt64 → Nat, (∀ k, hash k < c₀.hashTable.length) → ∀ ops : List Call,
        ∃ rs c, run (Cache.step hash) ops c₀ = .ok (rs, c) ∧ ∀ k,
          (∀ v, (∃ c', c.get hash k = .ok ({ found := true, value := v }, c')) →
            lastWrite k (eventsOf ops rs) = some (.put k v)) ∧
          (∀ v, lastWrite k (eventsOf ops rs) = some (.put k v) →
            (touchedSince k (eventsOf ops rs)).card < C →
            ∃ c', c.get hash k = .ok ({ found := true, value := v }, c')) ∧
          (NoErase (eventsOf ops rs) → C ≤ (touchedSince k (eventsOf ops rs)).card →
            ∃ c', c.get hash k = .ok ({ found := false, value := 0 }, c')) := by
  rcases Sim.new hpos hlt with ⟨c₀, hnew, hreal, hsim⟩
  refine ⟨c₀, hnew, hreal, ?_⟩
  intro hash hhash ops
  rcases (hsim hash hhash).run ops with ⟨c, hrun, hc⟩
  have hcap := cap_reference hpos ops
  have hR : Remembers (eventsOf ops (runTotal referenceStep ops (State.init C hpos)).1)
      (runTotal referenceStep ops (State.init C hpos)).2.store := by
    rw [eventsOf_reference, runTotal_reference]
    exact Remembers.run hpos ops
  refine ⟨_, c, hrun, ?_⟩
  intro k
  refine ⟨?_, ?_, ?_⟩
  · intro v hget
    exact hR.lookup_some (hc.get_hit_iff.mp hget)
  · intro v hput hfew
    refine hc.get_hit_iff.mpr (hR.lookup_fresh hput ?_)
    rw [hcap]
    exact hfew
  · intro hno hmany
    refine hc.get_miss (hR.lookup_evicted hno ?_)
    rw [hcap]
    exact hmany

/-- Of two values that were put under a key, the last one is found. -/
theorem get_by_history_two :
    ∃ c₀ rs c c', Cache.new 2 = .ok c₀ ∧
      run (Cache.step (hashKey c₀.hashMask)) [.put 1 10, .put 2 20, .put 1 11, .get 2] c₀ =
        .ok (rs, c) ∧
      c.get (hashKey c₀.hashMask) 1 = .ok ({ found := true, value := 11 }, c') := by
  rcases get_by_history (C := 2) (by decide) (by decide) with ⟨c₀, hnew, hreal, h⟩
  rcases h _ hreal [.put 1 10, .put 2 20, .put 1 11, .get 2] with ⟨rs, c, hrun, hget⟩
  let start : Cache :=
    { capacity := 2, size := 0, nodes := [⟨0, 0, 0, 1⟩, ⟨0, 0, 0, -1⟩], head := -1, tail := -1
      freeHead := 0, hashTable := [-1, -1, -1, -1], hashMask := 3, hits := 0, misses := 0
      evictions := 0 }
  have hstart : Cache.new 2 = .ok start := by decide +kernel
  have heq : start = c₀ := Except.ok.inj (hstart.symm.trans hnew)
  subst heq
  have hresults : (run (Cache.step (hashKey 3)) [.put 1 10, .put 2 20, .put 1 11, .get 2]
      start).map Prod.fst = .ok [.void, .void, .void, .got { found := true, value := 20 }] := by
    decide +kernel
  have hrun' : run (Cache.step (hashKey 3)) [.put 1 10, .put 2 20, .put 1 11, .get 2] start =
    .ok (rs, c) := hrun
  rw [hrun'] at hresults
  have hrs : rs = _ := Except.ok.inj hresults
  subst hrs
  rcases (hget 1).2.1 11 (by decide +kernel) (by decide +kernel) with ⟨c', hget'⟩
  exact ⟨start, _, c, c', hstart, hrun, hget'⟩

end LruCache
