import LruCache.Cache.Refinement
import LruCache.Lib.Competitive

/-!
# How often a cache misses

What eviction of the least recently used pair is worth: clients that load what `get` does not
find, and `put` it, load at most `C / (C - h + 1)` times as often as with any other way to use
room for `h ≤ C` pairs, even one that knows the requests to come; and they never get anything but
what they would have loaded.

Main results:

* `Sim.readThrough`: a request of such a client against the reference;
* `lru_competitive`: the bound.

Deliberate scope limits: the other strategy holds the requested pair after each request
(`Feasible`), as a cache that is read through does. One that may answer without keeping the pair can
fetch less than the bound says.
-/

namespace LruCache

open Recency Transition

/-- A `get`, and a `put` of what is loaded if it misses. -/
def readThrough (hash : UInt64 → Nat) (load : UInt64 → UInt64) (key : UInt64) (c : Cache) :
    Except Fault (UInt64 × Cache) := do
  let (result, c) ← c.get hash key
  if result.found then
    return (result.value, c)
  let c ← c.put hash key (load key)
  return (load key, c)

theorem Sim.readThrough {hash : UInt64 → Nat} {c : Cache} {s : State UInt64 UInt64}
    (h : Sim hash c s) (load : UInt64 → UInt64) (key : UInt64) :
    ∃ c', readThrough hash load key c = .ok ((s.read load key).1, c') ∧
      Sim hash c' (s.read load key).2 := by
  rcases h.get key with ⟨r, c₁, hget, hr, h₁⟩
  rw [State.get_fst] at hr
  cases hv : s.store.items.lookup key with
  | some v =>
    rw [hv] at hr
    cases hr
    rw [State.get_of_some hv] at h₁
    rw [State.read_of_some hv]
    refine ⟨c₁, ?_, h₁⟩
    simp only [LruCache.readThrough, hget, bind, Except.bind]
    rfl
  | none =>
    rw [hv] at hr
    cases hr
    rw [State.get_of_none hv] at h₁
    rcases h₁.put key (load key) with ⟨c₂, hput, h₂⟩
    rw [State.read_of_none hv]
    refine ⟨c₂, ?_, h₂⟩
    simp only [LruCache.readThrough, hget, bind, Except.bind]
    rw [if_neg Bool.false_ne_true, hput]
    rfl

/-- **Competitiveness.** A cache of capacity `C`, read through for any requests: each is answered
with what is loaded for its key, and the misses are bounded by what any strategy with room for
`h ≤ C` pairs that holds the requested pair after each request fetches for the same requests,
whatever else it keeps and drops. -/
theorem lru_competitive {C : Nat} (hpos : 0 < C) (hlt : C < 2 ^ 31) :
    ∃ c, Cache.new C = .ok c ∧ (∀ k, hashKey c.hashMask k < c.hashTable.length) ∧
      ∀ hash : UInt64 → Nat, (∀ k, hash k < c.hashTable.length) →
        ∀ (load : UInt64 → UInt64) (requests : List UInt64), requests.length < 2 ^ 64 →
        ∃ d, run (readThrough hash load) requests c = .ok (requests.map load, d) ∧
          ∀ h ≤ C, ∀ schedule : List (UInt64 × Finset UInt64),
            schedule.map Prod.fst = requests → Feasible h schedule →
            (C - h + 1) * d.misses ≤ C * fetches ∅ schedule + (C - h + 1) * C := by
  rcases Sim.new hpos hlt with ⟨c, hnew, hreal, hsim⟩
  refine ⟨c, hnew, hreal, ?_⟩
  intro hash hhash load requests hlen
  rcases run_simulation (R := Sim hash) (fun k _ _ h => h.readThrough load k) requests
    (hsim hash hhash) with ⟨d, hrun, hd⟩
  have hanswers : (runTotal (State.read load) requests (State.init C hpos)).1 =
      requests.map load := by
    apply answers_read
    intro p hp
    cases hp
  rw [hanswers] at hrun
  refine ⟨d, hrun, ?_⟩
  intro h hle schedule hrequests hfeasible
  have hmisses : (runTotal (State.read load) requests (State.init C hpos)).2.misses ≤
      0 + requests.length := misses_le_length requests (State.init C hpos)
  have hbound := misses_le load hpos hle hfeasible
  rw [hrequests] at hbound
  rw [hd.misses, wrap, Nat.mod_eq_of_lt (by omega)]
  exact hbound

/-- Room for one key against room for two. -/
theorem lru_competitive_two :
    ∃ c d, Cache.new 2 = .ok c ∧
      run (readThrough (hashKey c.hashMask) (· + 1)) [1, 2, 1, 3] c = .ok ([2, 3, 2, 4], d) ∧
      2 * d.misses ≤ 2 * 4 + 2 * 2 := by
  rcases lru_competitive (C := 2) (by decide) (by decide) with ⟨c, hnew, hreal, h⟩
  rcases h (hashKey c.hashMask) hreal (· + 1) [1, 2, 1, 3] (by decide) with ⟨d, hrun, hbound⟩
  have hfeasible : Feasible 1 [((1 : UInt64), {1}), (2, {2}), (1, {1}), (3, {3})] := by
    simp [Feasible]
  exact ⟨c, d, hnew, hrun, hbound 1 (by decide) _ rfl hfeasible⟩

end LruCache
