import LruCache.Queue.Invariant

/-!
# The cache behind two queues

`async_cache`: one client thread, the worker thread of `worker_loop`, and between them the inbox
and the outbox. A queue operation is one step here, on a bounded FIFO queue; a load of `running_`,
a `pop`, a cache operation and a `push` of the worker are four different steps, and the client's
steps fall anywhere in between.

Main results:

* `workerMoves_of_step`: what a step of the worker does, one constructor of `WorkerMoves` for each
  way through its three loops, from which every invariant is derived;
* `exists_workerMoves`: the worker has a move unless a cache operation faults.

Deliberate scope limits:

* a queue is the list of what it holds. `spsc_queue` is such a queue for capacities up to
  `2^64 - 2` (`spsc_refines_fifo`); with `2^64 - 1` the constructor is let through here too, but the
  first `push` of the code divides by zero (`callsSafe_iff`);
* all accesses are sequentially consistent, those of `running_` and of the queues included,
  although the source stores and loads `running_` relaxed;
* the affinity of the worker thread and the pauses of the spin loops have no effect on any of this
  and are left out.
-/

namespace LruCache

open BoundedFifo Transition

/-! ## Requests and responses -/

/-- `req_type`. -/
inductive ReqType where
  | put
  | get
deriving DecidableEq, Repr, Inhabited

structure CacheRequest where
  reqId : UInt64
  type : ReqType
  key : UInt64
  value : UInt64
deriving DecidableEq, Repr, Inhabited

structure CacheResponse where
  reqId : UInt64
  found : Bool
  value : UInt64
deriving DecidableEq, Repr, Inhabited

/-- The request of `async_put(key, value)`. -/
def asyncPut (key value : UInt64) : CacheRequest :=
  { reqId := 0, type := .put, key := key, value := value }

/-- The request of `async_get(req_id, key)`. -/
def asyncGet (reqId key : UInt64) : CacheRequest :=
  { reqId := reqId, type := .get, key := key, value := 0 }

/-- What the worker does to the cache for a request, and the response of a GET. -/
def applyRequest (hash : UInt64 → Nat) (req : CacheRequest) (cache : Cache) :
    Except Fault (Option CacheResponse × Cache) :=
  match req.type with
  | .put => do
      let cache ← cache.put hash req.key req.value
      return (none, cache)
  | .get => do
      let (res, cache) ← cache.get hash req.key
      return (some { reqId := req.reqId, found := res.found, value := res.value }, cache)

/-! ## The two threads -/

/-- Where the client thread is. -/
inductive Client where
  /-- Between two calls. -/
  | idle
  /-- In `async_put` or `async_get`, before an attempt to push the request. -/
  | pushing (req : CacheRequest)
  /-- In the destructor, after the store to `running_`. -/
  | joining
deriving DecidableEq, Repr

/-- Where the worker thread is in `worker_loop`. -/
inductive Worker where
  /-- Before the load of `running_` that guards the main loop. -/
  | test
  /-- Before the `pop` of the main loop. -/
  | fetch
  /-- Before the cache operation of a popped request. -/
  | apply (req : CacheRequest)
  /-- Before an attempt to push the response. -/
  | respond (res : CacheResponse)
  /-- After a failed attempt, before the load of `running_`. -/
  | retry (res : CacheResponse)
  /-- Before the `pop` of the drain loop. -/
  | drain
  /-- In the drain loop, with a popped request. -/
  | flush (req : CacheRequest)
  /-- `worker_loop` has returned. -/
  | done
deriving DecidableEq, Repr

/-- Where the worker goes after a cache operation: a response has to be pushed. -/
def Worker.after : Option CacheResponse → Worker
  | none => .test
  | some res => .respond res

/-- The cache with its queues and threads, and what happened so far: the requests whose calls
were started, the requests that the main loop applied, the requests that the drain loop dealt
with, and the responses that the client polled. -/
structure AsyncState where
  cache : Cache
  inbox : List CacheRequest
  outbox : List CacheResponse
  running : Bool
  client : Client
  worker : Worker
  submitted : List CacheRequest
  applied : List CacheRequest
  flushed : List CacheRequest
  polled : List CacheResponse

/-- The constructor `async_cache(cache_capacity, queue_capacity)`. The two `spsc_queue`s are made,
and fail as they do, but what is kept of them is that they are empty: from here on a queue is the
list of its items, which is right for queue capacities below `2^64 - 1`. -/
def AsyncState.new (cacheCapacity queueCapacity : Nat) : Except Fault AsyncState := do
  let cache ← Cache.new cacheCapacity
  let _inbox ← (Spsc.new queueCapacity : Except Fault (Spsc CacheRequest))
  let _outbox ← (Spsc.new queueCapacity : Except Fault (Spsc CacheResponse))
  return {
    cache := cache
    inbox := []
    outbox := []
    running := true
    client := .idle
    worker := .test
    submitted := []
    applied := []
    flushed := []
    polled := [] }

/-- A new cache of capacity 1. -/
def Cache.one : Cache :=
  { capacity := 1, size := 0, nodes := [⟨0, 0, 0, -1⟩], head := -1, tail := -1, freeHead := 0
    hashTable := [-1, -1], hashMask := 1, hits := 0, misses := 0, evictions := 0 }

/-- What the constructor makes for the capacities 1 and 1, on which the runs of this directory
are tried. -/
def AsyncState.one : AsyncState :=
  { cache := .one, inbox := [], outbox := [], running := true, client := .idle, worker := .test
    submitted := [], applied := [], flushed := [], polled := [] }

theorem AsyncState.new_one : AsyncState.new 1 1 = .ok .one := rfl

/-- A call that the client thread may make next. -/
inductive ClientCall where
  | asyncPut (key value : UInt64)
  | asyncGet (reqId key : UInt64)
  | pollResponse
  | destroy
deriving DecidableEq, Repr

/-- A call of `async_put` or `async_get` begins. -/
def AsyncState.submit (s : AsyncState) (req : CacheRequest) : AsyncState :=
  { s with client := .pushing req, submitted := s.submitted ++ [req] }

/-- One step of the client thread; `call` is its next call. -/
def clientStep (q : Nat) (call : ClientCall) (s : AsyncState) : AsyncState :=
  match s.client with
  | .idle =>
      match call with
      | .asyncPut key value => s.submit (asyncPut key value)
      | .asyncGet reqId key => s.submit (asyncGet reqId key)
      | .pollResponse =>
          let (res, outbox) := pop s.outbox
          { s with outbox := outbox, polled := s.polled ++ res.toList }
      | .destroy => { s with running := false, client := .joining }
  | .pushing req =>
      let (pushed, inbox) := push q req s.inbox
      { s with inbox := inbox, client := if pushed then .idle else .pushing req }
  | .joining => s

/-- One step of the worker thread. -/
def workerStep (hash : UInt64 → Nat) (q : Nat) (s : AsyncState) : Except Fault AsyncState :=
  match s.worker with
  | .test => .ok { s with worker := if s.running then .fetch else .drain }
  | .fetch =>
      match pop s.inbox with
      | (some req, inbox) => .ok { s with inbox := inbox, worker := .apply req }
      | (none, _) => .ok { s with worker := .test }
  | .apply req => do
      let (res, cache) ← applyRequest hash req s.cache
      return { s with
        cache := cache
        applied := s.applied ++ [req]
        worker := Worker.after res }
  | .respond res =>
      let (pushed, outbox) := push q res s.outbox
      .ok { s with outbox := outbox, worker := if pushed then .test else .retry res }
  | .retry res => .ok { s with worker := if s.running then .respond res else .test }
  | .drain =>
      match pop s.inbox with
      | (some req, inbox) => .ok { s with inbox := inbox, worker := .flush req }
      | (none, _) => .ok { s with worker := .done }
  | .flush req => do
      let cache ← if req.type = .put then s.cache.put hash req.key req.value else pure s.cache
      return { s with cache := cache, flushed := s.flushed ++ [req], worker := .drain }
  | .done => .ok s

/-- A step of either thread. -/
def AsyncStep (hash : UInt64 → Nat) (q : Nat) (s s' : AsyncState) : Prop :=
  (∃ call, clientStep q call s = s') ∨ workerStep hash q s = .ok s'

/-- A move of a schedule: the client's, with its next call, or the worker's. -/
def asyncMove (hash : UInt64 → Nat) (q : Nat) :
    Option ClientCall → AsyncState → Except Fault AsyncState
  | some call, s => .ok (clientStep q call s)
  | none, s => workerStep hash q s

theorem asyncMove_step {hash : UInt64 → Nat} {q : Nat} (mover : Option ClientCall)
    (s s' : AsyncState) (hrun : asyncMove hash q mover s = .ok s') : AsyncStep hash q s s' := by
  cases mover with
  | some call => exact Or.inl ⟨call, Except.ok.inj hrun⟩
  | none => exact Or.inr hrun

/-! ## The steps one by one -/

section Steps

variable {hash : UInt64 → Nat} {q : Nat} {s : AsyncState} {req : CacheRequest}
variable {res : CacheResponse}

theorem clientStep_call (h : s.client = .idle) (call : ClientCall) :
    clientStep q call s = match call with
      | .asyncPut key value => s.submit (asyncPut key value)
      | .asyncGet reqId key => s.submit (asyncGet reqId key)
      | .pollResponse =>
          { s with outbox := (pop s.outbox).2, polled := s.polled ++ (pop s.outbox).1.toList }
      | .destroy => { s with running := false, client := .joining } := by
  unfold clientStep
  rw [h]

theorem clientStep_push (h : s.client = .pushing req) (hlt : s.inbox.length < q)
    (call : ClientCall) :
    clientStep q call s = { s with inbox := s.inbox ++ [req], client := .idle } := by
  unfold clientStep
  rw [h]
  simp only [push_of_lt hlt, if_true]

theorem clientStep_spin (h : s.client = .pushing req) (hfull : q ≤ s.inbox.length)
    (call : ClientCall) : clientStep q call s = s := by
  unfold clientStep
  rw [h]
  simp only [push_of_full hfull, Bool.false_eq_true, if_false, ← h]

theorem clientStep_joining (h : s.client = .joining) (call : ClientCall) :
    clientStep q call s = s := by
  unfold clientStep
  rw [h]

end Steps

/-- What a step of the worker does, one constructor for each way through the three loops. -/
inductive WorkerMoves (hash : UInt64 → Nat) (q : Nat) (s : AsyncState) : AsyncState → Prop
  | test : s.worker = .test → s.running = true → WorkerMoves hash q s { s with worker := .fetch }
  | stop : s.worker = .test → s.running = false → WorkerMoves hash q s { s with worker := .drain }
  | fetch {req : CacheRequest} {inbox : List CacheRequest} :
      s.worker = .fetch → s.inbox = req :: inbox →
      WorkerMoves hash q s { s with inbox := inbox, worker := .apply req }
  | idle : s.worker = .fetch → s.inbox = [] → WorkerMoves hash q s { s with worker := .test }
  | apply {req : CacheRequest} {r : Option CacheResponse} {cache : Cache} :
      s.worker = .apply req → applyRequest hash req s.cache = .ok (r, cache) →
      WorkerMoves hash q s
        { s with cache := cache, applied := s.applied ++ [req], worker := Worker.after r }
  | respond {res : CacheResponse} : s.worker = .respond res → s.outbox.length < q →
      WorkerMoves hash q s { s with outbox := s.outbox ++ [res], worker := .test }
  | full {res : CacheResponse} : s.worker = .respond res → q ≤ s.outbox.length →
      WorkerMoves hash q s { s with worker := .retry res }
  | retry {res : CacheResponse} : s.worker = .retry res → s.running = true →
      WorkerMoves hash q s { s with worker := .respond res }
  | drop {res : CacheResponse} : s.worker = .retry res → s.running = false →
      WorkerMoves hash q s { s with worker := .test }
  | drain {req : CacheRequest} {inbox : List CacheRequest} :
      s.worker = .drain → s.inbox = req :: inbox →
      WorkerMoves hash q s { s with inbox := inbox, worker := .flush req }
  | finish : s.worker = .drain → s.inbox = [] → WorkerMoves hash q s { s with worker := .done }
  | flushPut {req : CacheRequest} {cache : Cache} :
      s.worker = .flush req → req.type = .put → s.cache.put hash req.key req.value = .ok cache →
      WorkerMoves hash q s
        { s with cache := cache, flushed := s.flushed ++ [req], worker := .drain }
  | flushGet {req : CacheRequest} : s.worker = .flush req → req.type = .get →
      WorkerMoves hash q s { s with flushed := s.flushed ++ [req], worker := .drain }
  | done : s.worker = .done → WorkerMoves hash q s s

section Moves

variable {hash : UInt64 → Nat} {q : Nat} {s s' : AsyncState}

theorem WorkerMoves.run (h : WorkerMoves hash q s s') : workerStep hash q s = .ok s' := by
  unfold workerStep
  cases h with
  | test hw hr => simp only [hw, hr, if_true]
  | stop hw hr => simp only [hw, hr, Bool.false_eq_true, if_false]
  | fetch hw hi => simp only [hw, hi, pop_cons]
  | idle hw hi => simp only [hw, hi, pop_nil]
  | apply hw happly =>
    simp only [hw, happly]
    rfl
  | respond hw hlt => simp only [hw, push_of_lt hlt, if_true]
  | full hw hfull => simp only [hw, push_of_full hfull, Bool.false_eq_true, if_false]
  | retry hw hr => simp only [hw, hr, if_true]
  | drop hw hr => simp only [hw, hr, Bool.false_eq_true, if_false]
  | drain hw hi => simp only [hw, hi, pop_cons]
  | finish hw hi => simp only [hw, hi, pop_nil]
  | flushPut hw htype hput =>
    simp only [hw, htype, hput]
    rfl
  | flushGet hw htype =>
    simp only [hw, htype]
    rfl
  | done hw => simp only [hw]

/-- The worker has a move, unless the cache operation that it is about to make faults. -/
theorem exists_workerMoves
    (happly : ∀ req, s.worker = .apply req → ∃ out, applyRequest hash req s.cache = .ok out)
    (hput : ∀ req, s.worker = .flush req → req.type = .put →
      ∃ cache, s.cache.put hash req.key req.value = .ok cache) :
    ∃ s', WorkerMoves hash q s s' := by
  cases hw : s.worker with
  | test =>
    rcases Bool.eq_false_or_eq_true s.running with hr | hr
    · exact ⟨_, .test hw hr⟩
    · exact ⟨_, .stop hw hr⟩
  | fetch =>
    cases hi : s.inbox with
    | nil => exact ⟨_, .idle hw hi⟩
    | cons req inbox => exact ⟨_, .fetch hw hi⟩
  | apply req =>
    rcases happly req hw with ⟨out, hrun⟩
    exact ⟨_, .apply hw hrun⟩
  | respond res =>
    rcases Nat.lt_or_ge s.outbox.length q with hlt | hfull
    · exact ⟨_, .respond hw hlt⟩
    · exact ⟨_, .full hw hfull⟩
  | retry res =>
    rcases Bool.eq_false_or_eq_true s.running with hr | hr
    · exact ⟨_, .retry hw hr⟩
    · exact ⟨_, .drop hw hr⟩
  | drain =>
    cases hi : s.inbox with
    | nil => exact ⟨_, .finish hw hi⟩
    | cons req inbox => exact ⟨_, .drain hw hi⟩
  | flush req =>
    cases htype : req.type with
    | put =>
      rcases hput req hw htype with ⟨cache, hrun⟩
      exact ⟨_, .flushPut hw htype hrun⟩
    | get => exact ⟨_, .flushGet hw htype⟩
  | done => exact ⟨s, .done hw⟩

/-- A step of the worker is one of the moves: everything about steps is proved by cases on it. -/
theorem workerMoves_of_step (hrun : workerStep hash q s = .ok s') : WorkerMoves hash q s s' := by
  -- the step did not fault, so there is a move, and a step has only one outcome
  have hmove : ∃ s₁, WorkerMoves hash q s s₁ := by
    refine exists_workerMoves ?_ ?_
    · intro req hw
      simp only [workerStep, hw] at hrun
      rcases bind_eq_ok hrun with ⟨out, happly, _⟩
      exact ⟨out, happly⟩
    · intro req hw htype
      simp only [workerStep, hw, htype, if_true] at hrun
      rcases bind_eq_ok hrun with ⟨cache, hput, _⟩
      exact ⟨cache, hput⟩
  rcases hmove with ⟨s₁, h₁⟩
  rw [h₁.run] at hrun
  cases hrun
  exact h₁

end Moves

end LruCache
