import LruCache.Async.Order

/-!
# When the two spin loops wait on each other

A client that submits on a full inbox and a worker that answers into a full outbox both spin.
If there are never more than `q` unanswered GETs, the outbox always has room for the response
in the worker's hands, however many PUTs there are; with one more, `q + 1` GETs and `q + 1` PUTs
lead to a state that no step leaves.

Main results:

* `Flowing.not_stuck` — with at most `q` unanswered GETs, some thread can always move.
* `backpressure_bound` — this is the largest number for which it is so: with `q + 1`, there is a
  run to a state that no step leaves.

Deliberate scope limits:

* The queues are atomic; a thread that spins makes steps that change nothing.
* Only GETs are counted. The number of PUTs is not bounded.
-/

namespace LruCache

open BoundedFifo Transition

/-- The number of GETs. -/
def gets (reqs : List CacheRequest) : Nat := reqs.countP fun req => req.type = .get

/-- A step of either thread after which at most `b` of the `async_get` calls that were started
have not been answered to the client. -/
def BoundedStep (hash : UInt64 → Nat) (q b : Nat) (s s' : AsyncState) : Prop :=
  AsyncStep hash q s s' ∧ gets s'.submitted ≤ s'.polled.length + b

/-- The client spins on a full inbox and the worker on a full outbox. -/
def Stuck (q : Nat) (s : AsyncState) : Prop :=
  s.running = true ∧ (∃ req, s.client = .pushing req) ∧ s.inbox.length = q ∧
    (∃ res, s.worker = .respond res ∨ s.worker = .retry res) ∧ s.outbox.length = q

/-! ## Counting responses -/

section Count

variable {hash : UInt64 → Nat} {c₀ c : Cache} {q : Nat} {s : AsyncState}

/-- One response for every GET. -/
theorem sequential_length {reqs : List CacheRequest} {out : List CacheResponse}
    (h : sequential hash reqs c₀ = .ok (out, c)) : out.length = gets reqs := by
  rcases sequential_eq_ok.mp h with ⟨rs, hrun, rfl⟩
  clear h
  induction reqs generalizing c₀ rs with
  | nil =>
    cases hrun
    rfl
  | cons req reqs ih =>
    rcases of_run_cons hrun with ⟨r, c₁, rs, happly, hrest, rfl⟩
    have hcons : (r :: rs).reduceOption = r.toList ++ rs.reduceOption := by
      cases r <;> rfl
    rw [hcons, List.length_append, ih rs hrest, Option.length_toList, applyRequest_isSome happly,
      gets, gets, List.countP_cons, Nat.add_comm]

/-- The GETs of two lists of requests. -/
theorem gets_append (reqs reqs' : List CacheRequest) :
    gets (reqs ++ reqs') = gets reqs + gets reqs' := by
  simp [gets, List.countP_append]

/-- A response in the worker's hands is one of at most as many as there were GETs. -/
theorem AsyncInv.respond_room (h : AsyncInv hash c₀ q s) {res : CacheResponse}
    (hw : s.worker = .respond res) :
    s.polled.length + s.outbox.length + 1 ≤ gets s.submitted := by
  rcases h.served with ⟨out, c, out', hseq, hans, _⟩
  have hall := (hans.all (by rw [hw]; exact Worker.noConfusion) (by rw [hw]; rfl)).1
  rw [hw] at hall
  have hlen := sequential_length hseq
  rw [← hall] at hlen
  -- every GET that was answered was submitted
  have hle : gets s.applied ≤ gets s.submitted := by
    rw [h.accounted]
    simp only [gets_append]
    omega
  simp only [Worker.answers, List.length_append, List.length_singleton] at hlen
  omega

end Count

/-! ## Up to `q` unanswered GETs -/

/-- What holds while there are at most `q` unanswered GETs. -/
structure Flowing (hash : UInt64 → Nat) (c₀ : Cache) (q : Nat) (s : AsyncState) : Prop where
  inv : AsyncInv hash c₀ q s
  bound : gets s.submitted ≤ s.polled.length + q
  no_retry : ∀ res, s.worker ≠ .retry res

section Flowing

variable {hash : UInt64 → Nat} {c₀ : Cache} {q : Nat} {s s' : AsyncState}

/-- The first attempt to push a response finds room. -/
theorem Flowing.room (h : Flowing hash c₀ q s) {res : CacheResponse}
    (hw : s.worker = .respond res) : s.outbox.length < q := by
  have hroom := h.inv.respond_room hw
  have hbound := h.bound
  omega

/-- The client does not move the worker. -/
theorem worker_clientStep (call : ClientCall) : (clientStep q call s).worker = s.worker := by
  unfold clientStep
  split
  · split <;> rfl
  · rfl
  · rfl

/-- The worker gets to `retry` only by an attempt to push into a full outbox. -/
theorem WorkerMoves.to_retry {res : CacheResponse} (h : WorkerMoves hash q s s')
    (hw' : s'.worker = .retry res) : s.worker = .respond res ∧ q ≤ s.outbox.length := by
  cases h with
  | full hw hfull =>
    cases hw'
    exact ⟨hw, hfull⟩
  | @apply req r cache _ _ => cases r <;> cases hw'
  | done hw =>
    rw [hw] at hw'
    cases hw'
  | _ => cases hw'

/-- Every step keeps to the bound. -/
theorem Flowing.step (h : Flowing hash c₀ q s) (hs : BoundedStep hash q q s s') :
    Flowing hash c₀ q s' := by
  refine ⟨h.inv.step hs.1, hs.2, ?_⟩
  intro res hw'
  rcases hs.1 with ⟨call, rfl⟩ | hrun
  · rw [worker_clientStep] at hw'
    exact h.no_retry res hw'
  · rcases (workerMoves_of_step hrun).to_retry hw' with ⟨hw, hfull⟩
    have hroom := h.room hw
    omega

/-- So the two threads never wait for each other. -/
theorem Flowing.not_stuck (h : Flowing hash c₀ q s) : ¬ Stuck q s := by
  rintro ⟨_, _, _, ⟨res, hw | hw⟩, hfull⟩
  · have hroom := h.room hw
    omega
  · exact h.no_retry res hw

end Flowing

/-! ## One more -/

section Stuck

variable {hash : UInt64 → Nat} {q : Nat} {s s' : AsyncState}

/-- No step of either thread leads out of a stuck state. -/
theorem Stuck.step (h : Stuck q s) (hs : AsyncStep hash q s s') : Stuck q s' := by
  rcases h with ⟨hrun, ⟨req, hc⟩, hinbox, ⟨res, hw⟩, houtbox⟩
  rcases hs with ⟨call, rfl⟩ | hstep
  -- the client pushes in vain, and the worker goes back and forth between `respond` and `retry`
  · rw [clientStep_spin hc (Nat.le_of_eq hinbox.symm)]
    exact ⟨hrun, ⟨req, hc⟩, hinbox, ⟨res, hw⟩, houtbox⟩
  · rcases hw with hw | hw
    · rw [(WorkerMoves.full hw (Nat.le_of_eq houtbox.symm)).run] at hstep
      cases hstep
      exact ⟨hrun, ⟨req, hc⟩, hinbox, ⟨res, Or.inr rfl⟩, houtbox⟩
    · rw [(WorkerMoves.retry hw hrun).run] at hstep
      cases hstep
      exact ⟨hrun, ⟨req, hc⟩, hinbox, ⟨res, Or.inl rfl⟩, houtbox⟩

/-- What is stuck once is stuck for ever. -/
theorem Stuck.forever (h : Stuck q s) (hs : Relation.ReflTransGen (AsyncStep hash q) s s') :
    Stuck q s' := by
  induction hs with
  | refl => exact h
  | tail _ hstep ih => exact ih.step hstep

/-- The client is between two calls and has polled nothing; of its GETs, `answered` have their
response in the outbox. -/
structure Waiting (hash : UInt64 → Nat) (answered : Nat) (s : AsyncState) : Prop where
  running : s.running = true
  client : s.client = .idle
  polled : s.polled = []
  outbox : s.outbox.length = answered
  sim : ∃ t, Sim hash s.cache t

/-- The worker is idle, and all GETs are answered. -/
structure Quiet (hash : UInt64 → Nat) (k : Nat) (s : AsyncState) : Prop extends
    Waiting hash k s where
  worker : s.worker = .test
  inbox : s.inbox = []
  gets_eq : gets s.submitted = k

/-- The worker has a response in its hands that is one more than the outbox has, and the inbox
holds `j` requests. -/
structure Answering (hash : UInt64 → Nat) (k j : Nat) (s : AsyncState) : Prop extends
    Waiting hash k s where
  worker : ∃ res, s.worker = .respond res
  inbox : s.inbox.length = j
  gets_eq : gets s.submitted = k + 1

/-- A GET goes through the inbox and the cache into the worker's hands. -/
theorem Quiet.ask {k : Nat} (h : Quiet hash k s) (hk : k ≤ q) (hq : 0 < q) :
    ∃ s', Relation.ReflTransGen (BoundedStep hash q (q + 1)) s s' ∧ Answering hash k 0 s' := by
  let req := asyncGet 0 0
  have hbound : gets (s.submitted ++ [req]) ≤ s.polled.length + (q + 1) := by
    rw [gets_append, h.gets_eq]
    show k + 1 ≤ s.polled.length + (q + 1)
    omega
  let s₁ := s.submit req
  have h₁ : BoundedStep hash q (q + 1) s s₁ :=
    ⟨Or.inl ⟨.asyncGet 0 0, clientStep_call h.client _⟩, hbound⟩
  let s₂ : AsyncState := { s₁ with inbox := [req], client := .idle }
  have h₂ : BoundedStep hash q (q + 1) s₁ s₂ := by
    refine ⟨Or.inl ⟨.pollResponse, ?_⟩, hbound⟩
    have hlt : s₁.inbox.length < q := by
      show s.inbox.length < q
      rw [h.inbox]
      exact hq
    rw [clientStep_push rfl hlt]
    show { s₁ with inbox := s.inbox ++ [req], client := Client.idle } = s₂
    rw [h.inbox]
    rfl
  let s₃ : AsyncState := { s₂ with worker := .fetch }
  have h₃ : BoundedStep hash q (q + 1) s₂ s₃ :=
    ⟨Or.inr (WorkerMoves.test (s := s₂) h.worker h.running).run, hbound⟩
  let s₄ : AsyncState := { s₃ with inbox := [], worker := .apply req }
  have h₄ : BoundedStep hash q (q + 1) s₃ s₄ :=
    ⟨Or.inr (WorkerMoves.fetch (s := s₃) rfl rfl).run, hbound⟩
  rcases h.sim with ⟨t, hsim⟩
  have hget : req.type = .get := rfl
  rcases hsim.apply_get hget with ⟨res, c', happly, hsim'⟩
  let s₅ : AsyncState := { s₄ with
    cache := c', applied := s.applied ++ [req], worker := .respond res }
  have h₅ : BoundedStep hash q (q + 1) s₄ s₅ :=
    ⟨Or.inr (WorkerMoves.apply (s := s₄) rfl happly).run, hbound⟩
  refine ⟨s₅, .tail (.tail (.tail (.tail (.single h₁) h₂) h₃) h₄) h₅, ?_⟩
  exact
    { running := h.running
      client := rfl
      polled := h.polled
      outbox := h.outbox
      sim := hsim'
      worker := ⟨res, rfl⟩
      inbox := rfl
      gets_eq := by
        show gets (s.submitted ++ [req]) = k + 1
        rw [gets_append, h.gets_eq]
        rfl }

/-- While the outbox has room the response goes there. -/
theorem Answering.answer {k : Nat} (h : Answering hash k 0 s) (hk : k < q) :
    ∃ s', Relation.ReflTransGen (BoundedStep hash q (q + 1)) s s' ∧ Quiet hash (k + 1) s' := by
  rcases h.worker with ⟨res, hw⟩
  have hlt : s.outbox.length < q := by
    rw [h.outbox]
    exact hk
  have hstep : BoundedStep hash q (q + 1) s
      { s with outbox := s.outbox ++ [res], worker := .test } := by
    refine ⟨Or.inr (WorkerMoves.respond hw hlt).run, ?_⟩
    show gets s.submitted ≤ s.polled.length + (q + 1)
    rw [h.gets_eq]
    omega
  refine ⟨_, .single hstep, ?_⟩
  exact
    { running := h.running
      client := h.client
      polled := h.polled
      outbox := by rw [List.length_append, h.outbox, List.length_singleton]
      sim := h.sim
      worker := rfl
      inbox := List.length_eq_zero_iff.mp h.inbox
      gets_eq := h.gets_eq }

/-- `k` GETs, none of them polled, fill `k` places of the outbox. -/
theorem Quiet.fill (h : Quiet hash 0 s) {k : Nat} (hk : k ≤ q) :
    ∃ s', Relation.ReflTransGen (BoundedStep hash q (q + 1)) s s' ∧ Quiet hash k s' := by
  induction k with
  | zero => exact ⟨s, .refl, h⟩
  | succ k ih =>
    rcases ih (Nat.le_of_succ_le hk) with ⟨s₁, hr₁, h₁⟩
    rcases h₁.ask (q := q) (by omega) (by omega) with ⟨s₂, hr₂, h₂⟩
    rcases h₂.answer hk with ⟨s₃, hr₃, h₃⟩
    exact ⟨s₃, (hr₁.trans hr₂).trans hr₃, h₃⟩

/-- A PUT is begun while the worker has a response in its hands. -/
theorem Answering.submit {j : Nat} (h : Answering hash q j s) :
    BoundedStep hash q (q + 1) s (s.submit (asyncPut 0 0)) := by
  refine ⟨Or.inl ⟨.asyncPut 0 0, clientStep_call h.client _⟩, ?_⟩
  show gets (s.submitted ++ [asyncPut 0 0]) ≤ s.polled.length + (q + 1)
  rw [gets_append, h.gets_eq]
  show q + 1 ≤ s.polled.length + (q + 1)
  omega

/-- PUTs fill the inbox while the worker waits for room in the outbox. -/
theorem Answering.put {j : Nat} (h : Answering hash q j s) (hj : j < q) :
    ∃ s', Relation.ReflTransGen (BoundedStep hash q (q + 1)) s s' ∧
      Answering hash q (j + 1) s' := by
  let req := asyncPut 0 0
  let s₂ : AsyncState := { s.submit req with inbox := s.inbox ++ [req], client := .idle }
  have hgets : gets (s.submitted ++ [req]) = q + 1 := by
    rw [gets_append, h.gets_eq]
    rfl
  have hlt : (s.submit req).inbox.length < q := by
    show s.inbox.length < q
    rw [h.inbox]
    exact hj
  have h₂ : BoundedStep hash q (q + 1) (s.submit req) s₂ := by
    refine ⟨Or.inl ⟨.pollResponse, clientStep_push rfl hlt _⟩, ?_⟩
    show gets (s.submitted ++ [req]) ≤ s.polled.length + (q + 1)
    rw [hgets]
    omega
  refine ⟨s₂, .tail (.single h.submit) h₂, ?_⟩
  exact
    { running := h.running
      client := rfl
      polled := h.polled
      outbox := h.outbox
      sim := h.sim
      worker := h.worker
      inbox := by
        show (s.inbox ++ [req]).length = j + 1
        rw [List.length_append, h.inbox, List.length_singleton]
      gets_eq := hgets }

/-- The client submits PUTs until the inbox is full as well. -/
theorem Answering.fill (h : Answering hash q 0 s) {j : Nat} (hj : j ≤ q) :
    ∃ s', Relation.ReflTransGen (BoundedStep hash q (q + 1)) s s' ∧ Answering hash q j s' := by
  induction j with
  | zero => exact ⟨s, .refl, h⟩
  | succ j ih =>
    rcases ih (Nat.le_of_succ_le hj) with ⟨s₁, hr₁, h₁⟩
    rcases h₁.put hj with ⟨s₂, hr₂, h₂⟩
    exact ⟨s₂, hr₁.trans hr₂, h₂⟩

/-- With `q + 1` GETs in the outbox and in the worker's hands, and `q` PUTs in the inbox, one
more PUT is one too many. -/
theorem Quiet.stuck (h : Quiet hash 0 s) (hq : 0 < q) :
    ∃ s', Relation.ReflTransGen (BoundedStep hash q (q + 1)) s s' ∧ Stuck q s' := by
  -- `q` GETs fill the outbox, one more the worker's hands, and `q` PUTs the inbox
  rcases h.fill (Nat.le_refl q) with ⟨s₁, hr₁, h₁⟩
  rcases h₁.ask (Nat.le_refl q) hq with ⟨s₂, hr₂, h₂⟩
  rcases h₂.fill (Nat.le_refl q) with ⟨s₃, hr₃, h₃⟩
  refine ⟨_, ((hr₁.trans hr₂).trans hr₃).tail h₃.submit, ?_⟩
  rcases h₃.worker with ⟨res, hw⟩
  exact ⟨h₃.running, ⟨_, rfl⟩, h₃.inbox, ⟨res, Or.inl hw⟩, h₃.outbox⟩

end Stuck

/-- **Backpressure.** As long as there are at most `q` unanswered GETs, every first attempt of
the worker to push a response succeeds, and no state is stuck. With `q + 1` of them a stuck
state is reached from which no step leads out. -/
theorem backpressure_bound {C q : Nat} (hpos : 0 < C) (hlt : C < 2 ^ 31) (hq : 0 < q) :
    ∃ s₀, AsyncState.new C q = .ok s₀ ∧
      (∀ k, hashKey s₀.cache.hashMask k < s₀.cache.hashTable.length) ∧
      ∀ hash : UInt64 → Nat, (∀ k, hash k < s₀.cache.hashTable.length) →
        (∀ s, Reachable (fun s => s = s₀) (BoundedStep hash q q) s →
          (∀ res, s.worker = .respond res → (push q res s.outbox).1 = true) ∧
          (∀ res, s.worker ≠ .retry res) ∧ ¬ Stuck q s) ∧
        ∃ s, Reachable (fun s => s = s₀) (BoundedStep hash q (q + 1)) s ∧ Stuck q s ∧
          ∀ s', Relation.ReflTransGen (AsyncStep hash q) s s' → Stuck q s' := by
  rcases AsyncState.new_ok hpos hlt hq with ⟨s₀, hnew, _, hreal, hstart, hinv⟩
  rcases hstart with ⟨hinbox, houtbox, hrun, hclient, hworker, hsub, hpolled⟩
  refine ⟨s₀, hnew, hreal, ?_⟩
  intro hash hhash
  have h₀ := hinv hash hhash
  constructor
  · intro s hs
    have h : Flowing hash s₀.cache q s := by
      refine Reachable.invariant (I := Flowing hash s₀.cache q) ?_
        (fun _ _ hstep h => h.step hstep) hs
      rintro _ rfl
      refine ⟨h₀, ?_, ?_⟩
      · rw [hsub]
        exact Nat.zero_le _
      · intro res hw
        rw [hworker] at hw
        cases hw
    refine ⟨?_, h.no_retry, h.not_stuck⟩
    intro res hw
    rw [push_of_lt (h.room hw)]
  · have hquiet : Quiet hash 0 s₀ :=
      { running := hrun
        client := hclient
        polled := hpolled
        outbox := by rw [houtbox]; rfl
        sim := h₀.sim
        worker := hworker
        inbox := hinbox
        gets_eq := by rw [hsub]; rfl }
    rcases hquiet.stuck hq with ⟨s, hr, hstuck⟩
    exact ⟨s, ⟨s₀, rfl, hr⟩, hstuck, fun _ hs' => hstuck.forever hs'⟩

/-- With queues of one item, two GETs and two PUTs. -/
theorem backpressure_bound_one :
    ∃ s₀ s, AsyncState.new 1 1 = .ok s₀ ∧
      Reachable (fun s => s = s₀) (BoundedStep (hashKey s₀.cache.hashMask) 1 2) s ∧ Stuck 1 s := by
  rcases backpressure_bound (C := 1) (q := 1) (by decide) (by decide) (by decide) with
    ⟨s₀, hnew, hreal, h⟩
  rcases (h _ hreal).2 with ⟨s, hs, hstuck, _⟩
  exact ⟨s₀, s, hnew, hs, hstuck⟩

end LruCache
