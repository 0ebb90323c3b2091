import LruCache.Async.Liveness

/-!
# The asynchronous benchmark

`run_async_benchmark` puts `cache_capacity` pairs, asks `num_ops` times for one of them without
looking at an answer, and only then polls until it has them all. `BenchStep` runs it beside the
worker, one queue operation at a time.

Main results:

* `script_served`: what one thread would be told, request by request; `replies` are the answers;
* `served_part`: so are the answers to any first part of the requests.

Deliberate scope limits: the times that the benchmark takes and prints are left out, and the
queues are atomic, as in `Async/Model`.
-/

namespace LruCache

open BoundedFifo Recency Transition

/-! ## The program -/

/-- Where `run_async_benchmark` is. -/
inductive BenchPoint where
  /-- Before the test of the first loop. -/
  | warming (i : Nat)
  /-- Before the test of the second loop. -/
  | blasting (i : Nat)
  /-- Before the test of the loop that polls. -/
  | receiving (received : Nat)
  /-- Past the loops; the destructor comes next. -/
  | finished
deriving DecidableEq, Repr

/-- The cache with its worker, and the program that uses it. -/
structure Bench where
  async : AsyncState
  point : BenchPoint

/-- One step of the thread that runs `run_async_benchmark`, with `C` for `cache_capacity` and `n`
for `num_ops`. -/
def benchClient (C n q : Nat) (s : Bench) : Bench :=
  match s.async.client with
  | .idle =>
      match s.point with
      | .warming i =>
          if i < C then
            { async := clientStep q (.asyncPut (.ofNat i) (.ofNat (i * 10))) s.async
              point := .warming (i + 1) }
          else { s with point := .blasting 0 }
      | .blasting i =>
          if i < n then
            { async := clientStep q (.asyncGet (.ofNat i) (.ofNat (i % C))) s.async
              point := .blasting (i + 1) }
          else { s with point := .receiving 0 }
      | .receiving received =>
          if received < n then
            { async := clientStep q .pollResponse s.async
              point := .receiving
                (if (pop s.async.outbox).1.isSome then received + 1 else received) }
          else { s with point := .finished }
      | .finished => { s with async := clientStep q .destroy s.async }
  -- inside a call its loop goes on
  | _ => { s with async := clientStep q .pollResponse s.async }

/-- A step of one of the two threads. -/
inductive BenchStep (hash : UInt64 → Nat) (C n q : Nat) : Thread → Bench → Bench → Prop
  | client (s : Bench) : BenchStep hash C n q .client s (benchClient C n q s)
  | worker {s : Bench} {async : AsyncState} : workerStep hash q s.async = .ok async →
      BenchStep hash C n q .worker s { s with async := async }

/-! ## What it asks and what it should be told -/

/-- The first loop, up to `i`. -/
def warmUp (i : Nat) : List CacheRequest :=
  (List.range i).map fun j => asyncPut (.ofNat j) (.ofNat (j * 10))

/-- The second loop, up to `i`. -/
def blast (C i : Nat) : List CacheRequest :=
  (List.range i).map fun j => asyncGet (.ofNat j) (.ofNat (j % C))

/-- The answers to the first `i` GETs. -/
def replies (C i : Nat) : List CacheResponse :=
  (List.range i).map fun j => { reqId := .ofNat j, found := true, value := .ofNat (j % C * 10) }

/-- The loop that fills the cache puts one pair more. -/
theorem warmUp_succ (i : Nat) :
    warmUp (i + 1) = warmUp i ++ [asyncPut (.ofNat i) (.ofNat (i * 10))] := by
  simp [warmUp, List.range_succ]

/-- The loop that asks asks once more. -/
theorem blast_succ (C i : Nat) :
    blast C (i + 1) = blast C i ++ [asyncGet (.ofNat i) (.ofNat (i % C))] := by
  simp [blast, List.range_succ]

/-- And there is one answer more. -/
theorem replies_succ (C i : Nat) : replies C (i + 1) =
    replies C i ++ [{ reqId := .ofNat i, found := true, value := .ofNat (i % C * 10) }] := by
  simp [replies, List.range_succ]

@[simp] theorem warmUp_length (i : Nat) : (warmUp i).length = i := by simp [warmUp]

@[simp] theorem blast_length (C i : Nat) : (blast C i).length = i := by simp [blast]

@[simp] theorem replies_length (C i : Nat) : (replies C i).length = i := by simp [replies]

/-- What has been put so far are the first of all pairs. -/
theorem warmUp_take {i j : Nat} (h : i ≤ j) : (warmUp j).take i = warmUp i := by
  rw [warmUp, ← List.map_take, List.take_range, Nat.min_eq_left h]
  rfl

/-- What has been asked so far are the first of all requests. -/
theorem blast_take {C i j : Nat} (h : i ≤ j) : (blast C j).take i = blast C i := by
  rw [blast, ← List.map_take, List.take_range, Nat.min_eq_left h]
  rfl

/-- What has been answered so far are the first of all answers. -/
theorem replies_take {C i j : Nat} (h : i ≤ j) : (replies C j).take i = replies C i := by
  rw [replies, ← List.map_take, List.take_range, Nat.min_eq_left h]
  rfl

/-- All requests of the benchmark. -/
def script (C n : Nat) : List CacheRequest := warmUp C ++ blast C n

/-- The requests of the first `m` calls. -/
theorem script_take {C n m : Nat} (h : m ≤ C + n) :
    (script C n).take m = if m ≤ C then warmUp m else script C (m - C) := by
  rw [script, List.take_append, warmUp_length]
  split
  · rename_i hle
    rw [warmUp_take hle, Nat.sub_eq_zero_of_le hle, List.take_zero, List.append_nil]
  · rename_i hgt
    rw [List.take_of_length_le (by rw [warmUp_length]; omega), blast_take (by omega), script]

/-! ## The answers of one thread -/

section Served

variable {hash : UInt64 → Nat} {C : Nat} {c₀ : Cache}

/-- The keys of the benchmark differ. -/
theorem ofNat_ne_of_lt {i j : Nat} (hi : i < 2 ^ 31) (hj : j < 2 ^ 31) (hne : i ≠ j) :
    UInt64.ofNat i ≠ UInt64.ofNat j := by
  intro heq
  have hnat := congrArg UInt64.toNat heq
  rw [UInt64.toNat_ofNat', UInt64.toNat_ofNat', Nat.mod_eq_of_lt (by omega),
    Nat.mod_eq_of_lt (by omega)] at hnat
  exact hne hnat

/-- The pairs of the first loop, the last one in front. -/
def warmed (i : Nat) : List (UInt64 × UInt64) :=
  ((List.range i).map fun j => (UInt64.ofNat j, UInt64.ofNat (j * 10))).reverse

/-- What the cache holds after one put more, the last pair first. -/
theorem warmed_succ (i : Nat) :
    warmed (i + 1) = (UInt64.ofNat i, UInt64.ofNat (i * 10)) :: warmed i := by
  simp [warmed, List.range_succ]

/-- It holds the keys that were put. -/
theorem mem_keys_warmed {i : Nat} {k : UInt64} :
    k ∈ keys (warmed i) ↔ ∃ j < i, UInt64.ofNat j = k := by
  simp [warmed, keys]

/-- `i` pairs put into an empty cache with room for them. -/
theorem warmUp_served (hpos : 0 < C) (hlt : C < 2 ^ 31) (hsim : Sim hash c₀ (State.init C hpos))
    {i : Nat} (hi : i ≤ C) :
    ∃ c t, sequential hash (warmUp i) c₀ = .ok ([], c) ∧ Sim hash c t ∧ t.store.cap = C ∧
      t.store.items = warmed i := by
  induction i with
  | zero => exact ⟨c₀, _, rfl, hsim, rfl, rfl⟩
  | succ i ih =>
    rcases ih (by omega) with ⟨c, t, hseq, hsim, hcap, hitems⟩
    let k := UInt64.ofNat i
    let v := UInt64.ofNat (i * 10)
    rcases hsim.put k v with ⟨c', hput, hsim'⟩
    have happly : applyRequest hash (asyncPut k v) c = .ok (none, c') := by
      simp only [applyRequest, asyncPut, hput]
      rfl
    have hnew : k ∉ keys t.store.items := by
      rw [hitems, mem_keys_warmed]
      rintro ⟨j, hj, heq⟩
      exact ofNat_ne_of_lt (by omega) (by omega) (by omega) heq
    have hlen : t.store.items.length = i := by rw [hitems]; simp [warmed]
    refine ⟨c', t.put k v, ?_, hsim', ?_, ?_⟩
    · rw [warmUp_succ]
      exact sequential_snoc hseq happly
    · exact Store.cap_put.trans hcap
    · show (t.store.put k v).items = _
      rw [Store.items_put_of_notMem hnew, room, if_neg (by omega), warmed_succ, hitems]

/-- GETs of pairs that are there find them and take none away. -/
theorem script_served (hpos : 0 < C) (hlt : C < 2 ^ 31) (hsim : Sim hash c₀ (State.init C hpos))
    (i : Nat) :
    ∃ c t, sequential hash (script C i) c₀ = .ok (replies C i, c) ∧ Sim hash c t ∧
      ∀ j < C, t.store.items.lookup (.ofNat j) = some (.ofNat (j * 10)) := by
  induction i with
  | zero =>
    rcases warmUp_served hpos hlt hsim (Nat.le_refl C) with ⟨c, t, hseq, hsim', _, hitems⟩
    refine ⟨c, t, ?_, hsim', ?_⟩
    · simpa [script, blast, replies] using hseq
    · intro j hj
      refine lookup_of_mem t.store.nodup ?_
      rw [hitems, warmed, List.mem_reverse]
      exact List.mem_map.mpr ⟨j, List.mem_range.mpr hj, rfl⟩
  | succ i ih =>
    rcases ih with ⟨c, t, hseq, hsim, hfound⟩
    let k := UInt64.ofNat (i % C)
    have hk := hfound (i % C) (Nat.mod_lt i hpos)
    rcases hsim.get k with ⟨r, c', hget, hr, hsim'⟩
    rw [State.get_of_some hk] at hr hsim'
    have hr' : r = { found := true, value := .ofNat (i % C * 10) } := by
      cases hr
      rfl
    have happly : applyRequest hash (asyncGet (.ofNat i) k) c = .ok
        (some { reqId := .ofNat i, found := true, value := .ofNat (i % C * 10) }, c') := by
      simp only [applyRequest, asyncGet, hget, hr']
      rfl
    refine ⟨c', _, ?_, hsim', ?_⟩
    · rw [script, blast_succ, ← List.append_assoc, replies_succ]
      exact sequential_snoc hseq happly
    · intro j hj
      show (t.store.touch k).items.lookup _ = _
      rw [Store.items_touch_of_some hk]
      by_cases hjk : UInt64.ofNat j = k
      · have hsame := hfound j hj
        rw [hjk] at hsame
        rw [hjk, List.lookup_cons_self]
        exact hk.symm.trans hsame
      · rw [List.lookup_cons, beq_eq_false_iff_ne.mpr hjk, lookup_erase_of_ne hjk]
        exact hfound j hj

/-- Whatever part of the requests has been applied, the GETs in it have the right answers. -/
theorem served_part (hpos : 0 < C) (hlt : C < 2 ^ 31)
    (hsim : Sim hash c₀ (State.init C hpos)) {n : Nat} {l : List CacheRequest}
    (hl : l <+: script C n) {out : List CacheResponse} {c : Cache}
    (hseq : sequential hash l c₀ = .ok (out, c)) : out = replies C (l.length - C) := by
  have hlen : l.length ≤ C + n := by
    have := hl.length_le
    simpa [script] using this
  rw [List.prefix_iff_eq_take.mp hl, script_take hlen] at hseq
  split at hseq
  · rename_i hle
    rcases warmUp_served hpos hlt hsim hle with ⟨c', _, hseq', _⟩
    rw [hseq'] at hseq
    cases hseq
    rw [Nat.sub_eq_zero_of_le hle]
    rfl
  · rcases script_served hpos hlt hsim (l.length - C) with ⟨c', _, hseq', _⟩
    rw [hseq'] at hseq
    cases hseq
    rfl

end Served

end LruCache
