import LruCache.Async.Model
import LruCache.Queue.Moves

/-!
# The two queues access by access

`async_cache` once more, with the queues of `spsc_queue` in it: a call of `push` or `pop` is the
run of `producerStep` or `consumerStep` that it is in the source, so the client may be between
two accesses of its `push` to the inbox while the worker is between two accesses of its `pop`.
`FineState.coarse` forgets where inside a call a thread is.

Deliberate scope limits: all accesses are sequentially consistent, those of `running_` and of the
indices included. The source stores and loads `running_` relaxed, and nothing orders the indices
of the queues with it; a worker that reads `false` may then still read an old `tail_` in its drain
loop, and such runs are not among these. The orderings of a queue by itself are `Queue/Ordering`.
-/

namespace LruCache

open BoundedFifo Transition

/-! ## The cache with the queues in it -/

/-- Where the client thread is; inside `push` or `pop` the queue says where. -/
inductive FineClient where
  | idle
  /-- In `async_put` or `async_get`. -/
  | pushing (req : CacheRequest)
  /-- In `poll_response`. -/
  | polling
  /-- In the destructor, after the store to `running_`. -/
  | joining
deriving DecidableEq, Repr

/-- `AsyncState` with the two queues of the source instead of two lists. -/
structure FineState where
  cache : Cache
  inbox : SpscState CacheRequest
  outbox : SpscState CacheResponse
  running : Bool
  client : FineClient
  worker : Worker
  submitted : List CacheRequest
  applied : List CacheRequest
  flushed : List CacheRequest
  polled : List CacheResponse

/-- The constructor `async_cache(cache_capacity, queue_capacity)`. -/
def FineState.new (cacheCapacity queueCapacity : Nat) : Except Fault FineState := do
  let cache ← Cache.new cacheCapacity
  let inbox ← Spsc.new queueCapacity
  let outbox ← Spsc.new queueCapacity
  return {
    cache := cache
    inbox := SpscState.fresh inbox
    outbox := SpscState.fresh outbox
    running := true
    client := .idle
    worker := .test
    submitted := []
    applied := []
    flushed := []
    polled := [] }

/-- What the constructor makes for the capacities 1 and 1. -/
def FineState.one : FineState :=
  let queue {T : Type} (x : T) : SpscState T :=
    .fresh { buffer := [x, x], capacity := 2, head := 0, tail := 0 }
  { cache := .one, inbox := queue default, outbox := queue default, running := true
    client := .idle, worker := .test, submitted := [], applied := [], flushed := [], polled := [] }

/-- The constructor gives this state. -/
theorem FineState.new_one : FineState.new 1 1 = .ok .one := rfl

/-- A call of `async_put` or `async_get` begins. -/
def FineState.submit (s : FineState) (req : CacheRequest) : FineState :=
  { s with client := .pushing req, submitted := s.submitted ++ [req] }

/-- One access of the client thread; `call` is its next call. -/
def fineClientStep (call : ClientCall) (s : FineState) : Except Fault FineState :=
  match s.client with
  | .idle =>
      match call with
      | .asyncPut key value => .ok (s.submit (asyncPut key value))
      | .asyncGet reqId key => .ok (s.submit (asyncGet reqId key))
      | .pollResponse => .ok { s with client := .polling }
      | .destroy => .ok { s with running := false, client := .joining }
  | .pushing req => do
      let inbox ← producerStep req s.inbox
      -- a `push` that returns false is called again
      let client := if inbox.pushReturned = some true then .idle else .pushing req
      return { s with inbox := inbox, client := client }
  | .polling => do
      let outbox ← consumerStep s.outbox
      match outbox.popReturned with
      | some res =>
          return { s with outbox := outbox, client := .idle, polled := s.polled ++ res.toList }
      | none => return { s with outbox := outbox }
  | .joining => .ok s

/-- One access of the worker thread. A load of `running_` and an access of a queue see the last
store, as they do with sequential consistency. -/
def fineWorkerStep (hash : UInt64 → Nat) (s : FineState) : Except Fault FineState :=
  match s.worker with
  | .test => .ok { s with worker := if s.running then .fetch else .drain }
  | .fetch => do
      let inbox ← consumerStep s.inbox
      match inbox.popReturned with
      | some (some req) => return { s with inbox := inbox, worker := .apply req }
      | some none => return { s with inbox := inbox, worker := .test }
      | none => return { s with inbox := inbox }
  | .apply req => do
      let (res, cache) ← applyRequest hash req s.cache
      return { s with
        cache := cache
        applied := s.applied ++ [req]
        worker := Worker.after res }
  | .respond res => do
      let outbox ← producerStep res s.outbox
      match outbox.pushReturned with
      | some true => return { s with outbox := outbox, worker := .test }
      | some false => return { s with outbox := outbox, worker := .retry res }
      | none => return { s with outbox := outbox }
  | .retry res => .ok { s with worker := if s.running then .respond res else .test }
  | .drain => do
      let inbox ← consumerStep s.inbox
      match inbox.popReturned with
      | some (some req) => return { s with inbox := inbox, worker := .flush req }
      | some none => return { s with inbox := inbox, worker := .done }
      | none => return { s with inbox := inbox }
  | .flush req => do
      let cache ← if req.type = .put then s.cache.put hash req.key req.value else pure s.cache
      return { s with cache := cache, flushed := s.flushed ++ [req], worker := .drain }
  | .done => .ok s

/-- An access of either thread. -/
def FineStep (hash : UInt64 → Nat) (s s' : FineState) : Prop :=
  (∃ call, fineClientStep call s = .ok s') ∨ fineWorkerStep hash s = .ok s'

/-- A move of a schedule: the client's, with its next call, or the worker's. -/
def fineMove (hash : UInt64 → Nat) : Option ClientCall → FineState → Except Fault FineState
  | some call => fineClientStep call
  | none => fineWorkerStep hash

/-- A move is a step. -/
theorem fineMove_step {hash : UInt64 → Nat} (mover : Option ClientCall) (s s' : FineState)
    (hrun : fineMove hash mover s = .ok s') : FineStep hash s s' := by
  cases mover with
  | some call => exact Or.inl ⟨call, hrun⟩
  | none => exact Or.inr hrun

/-! ## Forgetting the accesses -/

/-- A `poll_response` takes effect when it returns. -/
def FineClient.coarse : FineClient → Client
  | .idle => .idle
  | .pushing req => .pushing req
  | .polling => .idle
  | .joining => .joining

/-- The same moment with atomic queues: a queue holds what is published and not released. -/
def FineState.coarse (s : FineState) : AsyncState :=
  { cache := s.cache, inbox := s.inbox.log.content, outbox := s.outbox.log.content
    running := s.running, client := s.client.coarse, worker := s.worker
    submitted := s.submitted, applied := s.applied, flushed := s.flushed, polled := s.polled }

/-- The number of accesses that the worker has made in the call it is in. -/
def FineState.workerPoint (s : FineState) : Nat :=
  match s.worker with
  | .fetch => s.inbox.consumer.point
  | .drain => s.inbox.consumer.point
  | .respond _ => s.outbox.producer.point
  | _ => 0

end LruCache
