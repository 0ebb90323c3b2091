import LruCache.Async.Model
import LruCache.Cache.Refinement
import Mathlib.Data.List.ReduceOption

/-!
# The sequential cache

What one thread gets that makes the requests one after the other on a plain `lru_cache`: the
measure for everything that the worker does. It is written with `put` and `get` of the cache, not
with the worker's `applyRequest`.

Main results:

* `sequential_eq_ok`: the worker's dispatch agrees with it;
* `sequential_snoc`: one request more at the end;
* `Sim.of_apply`: a request keeps the cache on the side of its reference.

Deliberate scope limits:

* The plain cache is that of `LruCache.Cache.Model`, with capacities below 2^31, where its
  operations never fault.
-/

namespace LruCache

open Transition

/-! ## Definitions -/

/-- The requests one after the other on a plain cache, by one thread: a PUT is the `put` of the
cache, a GET its `get`, whose result goes out under the request's number. The worker's own
dispatch, `applyRequest`, is not used; that it agrees is `sequential_eq_ok`. -/
def sequential (hash : UInt64 → Nat) :
    List CacheRequest → Cache → Except Fault (List CacheResponse × Cache)
  | [], cache => .ok ([], cache)
  | { type := .put, key := key, value := value, .. } :: reqs, cache => do
      let cache ← cache.put hash key value
      sequential hash reqs cache
  | { type := .get, reqId := reqId, key := key, .. } :: reqs, cache => do
      let (res, cache) ← cache.get hash key
      let (out, cache) ← sequential hash reqs cache
      return ({ reqId := reqId, found := res.found, value := res.value } :: out, cache)

/-- The PUTs among the requests. -/
def puts (reqs : List CacheRequest) : List CacheRequest := reqs.filter fun req => req.type = .put

/-! ## Facts about it -/

section Sequential

variable {hash : UInt64 → Nat} {c₀ c c' : Cache} {reqs : List CacheRequest} {req : CacheRequest}
variable {out : List CacheResponse}

/-- A PUT is `put` on the cache, and has no answer. -/
theorem Sim.apply_put {t : Recency.State UInt64 UInt64} (h : Sim hash c t)
    (htype : req.type = .put) : ∃ c', c.put hash req.key req.value = .ok c' ∧
      applyRequest hash req c = .ok (none, c') ∧ ∃ t', Sim hash c' t' := by
  rcases h.put req.key req.value with ⟨c', hrun, hsim⟩
  refine ⟨c', hrun, ?_, _, hsim⟩
  rw [applyRequest, htype]
  simp only [hrun]
  rfl

/-- A GET is answered. -/
theorem Sim.apply_get {t : Recency.State UInt64 UInt64} (h : Sim hash c t)
    (htype : req.type = .get) : ∃ res c', applyRequest hash req c = .ok (some res, c') ∧
      ∃ t', Sim hash c' t' := by
  rcases h.get req.key with ⟨r, c', hrun, _, hsim⟩
  refine ⟨{ reqId := req.reqId, found := r.found, value := r.value }, c', ?_, _, hsim⟩
  rw [applyRequest, htype]
  simp only [hrun]
  rfl

/-- Whatever the request, the reference follows. -/
theorem Sim.of_apply {t : Recency.State UInt64 UInt64} {r : Option CacheResponse}
    (h : Sim hash c t) (happly : applyRequest hash req c = .ok (r, c')) :
    ∃ t', Sim hash c' t' := by
  cases htype : req.type with
  | put =>
    rcases h.apply_put htype with ⟨c₁, _, happly₁, hsim⟩
    rw [happly₁] at happly
    cases happly
    exact hsim
  | get =>
    rcases h.apply_get htype with ⟨res, c₁, happly₁, hsim⟩
    rw [happly₁] at happly
    cases happly
    exact hsim

/-- A GET has a response, a PUT has none. -/
theorem applyRequest_isSome {r : Option CacheResponse}
    (h : applyRequest hash req c = .ok (r, c')) : r.isSome = decide (req.type = .get) := by
  unfold applyRequest at h
  cases htype : req.type with
  | put =>
    rw [htype] at h
    rcases bind_eq_ok h with ⟨_, _, hend⟩
    cases hend
    rfl
  | get =>
    rw [htype] at h
    rcases bind_eq_ok h with ⟨_, _, hend⟩
    cases hend
    rfl

/-- One request more at the front, as the worker deals with it. -/
theorem sequential_cons (req : CacheRequest) (reqs : List CacheRequest) (c₀ : Cache) :
    sequential hash (req :: reqs) c₀ = (applyRequest hash req c₀ >>= fun first =>
      sequential hash reqs first.2 >>= fun rest => pure (first.1.toList ++ rest.1, rest.2)) := by
  rcases req with ⟨reqId, type, key, value⟩
  cases type with
  | put =>
    simp only [sequential, applyRequest]
    cases c₀.put hash key value with
    | error e => rfl
    | ok c =>
      show sequential hash reqs c = (sequential hash reqs c >>= fun rest => pure (rest.1, rest.2))
      cases sequential hash reqs c with
      | error e => rfl
      | ok rest => rfl
  | get =>
    simp only [sequential, applyRequest]
    cases c₀.get hash key with
    | error e => rfl
    | ok out => rfl

/-- The worker's dispatch agrees with the plain cache: the answers of a run are those of its
responses that are there. -/
theorem sequential_eq_ok : sequential hash reqs c₀ = .ok (out, c) ↔
    ∃ rs, run (applyRequest hash) reqs c₀ = .ok (rs, c) ∧ rs.reduceOption = out := by
  -- on the requests; the first one is `sequential_cons` on one side and `run` on the other
  induction reqs generalizing c₀ out with
  | nil =>
    constructor
    · intro h
      cases h
      exact ⟨[], rfl, rfl⟩
    · rintro ⟨rs, hrun, rfl⟩
      cases hrun
      rfl
  | cons req reqs ih =>
    rw [sequential_cons]
    constructor
    · intro h
      rcases bind_eq_ok h with ⟨⟨r, c₁⟩, happly, hrest⟩
      rcases bind_eq_ok hrest with ⟨⟨out₁, c₂⟩, hseq, hend⟩
      cases hend
      rcases ih.mp hseq with ⟨rs, hrun, rfl⟩
      refine ⟨r :: rs, ?_, ?_⟩
      · rw [run_cons_ok happly, hrun]
        rfl
      · cases r <;> rfl
    · rintro ⟨rs, hrun, rfl⟩
      rcases of_run_cons hrun with ⟨r, c₁, rs', happly, hrest, rfl⟩
      rw [happly]
      show (sequential hash reqs c₁ >>= _) = _
      rw [ih.mpr ⟨rs', hrest, rfl⟩]
      cases r <;> rfl

/-- One request more, and its answer. -/
theorem sequential_snoc {res : Option CacheResponse}
    (h : sequential hash reqs c₀ = .ok (out, c))
    (h' : applyRequest hash req c = .ok (res, c')) :
    sequential hash (reqs ++ [req]) c₀ = .ok (out ++ res.toList, c') := by
  rcases sequential_eq_ok.mp h with ⟨rs, hrun, rfl⟩
  refine sequential_eq_ok.mpr ⟨rs ++ [res], run_snoc_ok hrun h', ?_⟩
  rw [List.reduceOption_append]
  cases res <;> rfl

/-- A PUT more. -/
theorem puts_snoc_put (htype : req.type = .put) : puts (reqs ++ [req]) = puts reqs ++ [req] := by
  simp [puts, htype]

/-- A GET is none. -/
theorem puts_snoc_get (htype : req.type = .get) : puts (reqs ++ [req]) = puts reqs := by
  simp [puts, htype]

end Sequential

end LruCache
