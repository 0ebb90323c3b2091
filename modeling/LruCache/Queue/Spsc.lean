import LruCache.Cache.Access

/-!
# The lock-free queue

`spsc_queue<T>` at the granularity of its shared accesses: `producerStep` runs one load, buffer
access or store of `push`, `consumerStep` one of `pop`, and the two threads interleave in any
order (`SpscStep`).

Deliberate scope limits: the accesses of one queue are sequentially consistent here, so a load
returns the last store. What acquire and release promise by themselves is `Queue/Ordering`. The
alignment of the members and the padding between them are not modelled.
-/

namespace LruCache


/-! ## The code -/

/-- The members of `spsc_queue`; `capacity` is the member `capacity_`, the number of slots. -/
structure Spsc (T : Type) where
  buffer : List T
  capacity : Nat
  head : Nat
  tail : Nat
deriving DecidableEq, Repr

/-- `%` of `std::size_t` values. -/
def modulo (a b : Nat) : Except Fault Nat :=
  if b = 0 then .error .divisionByZero else .ok (a % b)

/-- The constructor `spsc_queue(capacity)`; the allocation is taken to succeed. -/
def Spsc.new {T : Type} [Inhabited T] (capacity : Nat) : Except Fault (Spsc T) :=
  if capacity = 0 then .error (.invalidArgument "Queue capacity must be > 0")
  else .ok {
    buffer := List.replicate (wrap (capacity + 1)) default
    capacity := wrap (capacity + 1)
    head := 0
    tail := 0 }

/-- Where the producer is in `push(item)`. -/
inductive Producer (T : Type) where
  /-- Between two calls. -/
  | idle
  /-- Before the load of `tail_`. -/
  | start (item : T)
  /-- Before the load of `head_`. -/
  | loaded (item : T) (currentTail nextTail : Nat)
  /-- Before the write to the buffer. -/
  | room (item : T) (currentTail nextTail : Nat)
  /-- Before the store to `tail_`. -/
  | written (item : T) (currentTail nextTail : Nat)
deriving DecidableEq, Repr

/-- Where the consumer is in `pop(item)`. -/
inductive Consumer (T : Type) where
  /-- Between two calls. -/
  | idle
  /-- Before the load of `head_`. -/
  | start
  /-- Before the load of `tail_`. -/
  | loaded (currentHead : Nat)
  /-- Before the read of the buffer. -/
  | nonempty (currentHead : Nat)
  /-- Before the store to `head_`. -/
  | obtained (currentHead : Nat) (item : T)
deriving DecidableEq, Repr

/-- The queue, both threads, and what happened so far: the items whose `tail_` store has
happened, the items read out of the buffer, the number of `head_` stores, and the results of the
calls that have returned. -/
structure SpscState (T : Type) where
  queue : Spsc T
  producer : Producer T
  consumer : Consumer T
  published : List T
  obtained : List T
  released : Nat
  pushes : List (T × Bool)
  pops : List (Option T)
deriving DecidableEq, Repr

/-- One step of the producer; `call` is the item of its next `push`. -/
def producerStep {T : Type} (call : T) (s : SpscState T) : Except Fault (SpscState T) :=
  match s.producer with
  | .idle => .ok { s with producer := .start call }
  | .start item => do
      let currentTail := s.queue.tail
      let nextTail ← modulo (wrap (currentTail + 1)) s.queue.capacity
      return { s with producer := .loaded item currentTail nextTail }
  | .loaded item currentTail nextTail =>
      if nextTail = s.queue.head then
        .ok { s with producer := .idle, pushes := s.pushes ++ [(item, false)] }
      else .ok { s with producer := .room item currentTail nextTail }
  | .room item currentTail nextTail => do
      let buffer ← updateAt s.queue.buffer currentTail fun _ => item
      return { s with
        queue := { s.queue with buffer := buffer }
        producer := .written item currentTail nextTail }
  | .written item _ nextTail =>
      .ok { s with
        queue := { s.queue with tail := nextTail }
        producer := .idle
        published := s.published ++ [item]
        pushes := s.pushes ++ [(item, true)] }

/-- One step of the consumer. -/
def consumerStep {T : Type} (s : SpscState T) : Except Fault (SpscState T) :=
  match s.consumer with
  | .idle => .ok { s with consumer := .start }
  | .start => .ok { s with consumer := .loaded s.queue.head }
  | .loaded currentHead =>
      if currentHead = s.queue.tail then
        .ok { s with consumer := .idle, pops := s.pops ++ [none] }
      else .ok { s with consumer := .nonempty currentHead }
  | .nonempty currentHead => do
      let item ← readAt s.queue.buffer currentHead
      return { s with consumer := .obtained currentHead item, obtained := s.obtained ++ [item] }
  | .obtained currentHead item => do
      let head ← modulo (wrap (currentHead + 1)) s.queue.capacity
      return { s with
        queue := { s.queue with head := head }
        consumer := .idle
        released := s.released + 1
        pops := s.pops ++ [some item] }

/-- A step of either thread. -/
def SpscStep {T : Type} (s s' : SpscState T) : Prop :=
  (∃ call, producerStep call s = .ok s') ∨ consumerStep s = .ok s'

/-- A move of a schedule: the producer's, whose next call would push `item`, or the consumer's. -/
def spscMove {T : Type} : Option T → SpscState T → Except Fault (SpscState T)
  | some item => producerStep item
  | none => consumerStep

/-- A move is a step. -/
theorem spscMove_step {T : Type} (mover : Option T) (s s' : SpscState T)
    (hrun : spscMove mover s = .ok s') : SpscStep s s' := by
  cases mover with
  | some item => exact Or.inl ⟨item, hrun⟩
  | none => exact Or.inr hrun

/-- Both threads before their first call on the queue. -/
def SpscState.fresh {T : Type} (queue : Spsc T) : SpscState T :=
  { queue := queue, producer := .idle, consumer := .idle, published := [], obtained := []
    released := 0, pushes := [], pops := [] }

/-- Both threads before their first call on a new queue of capacity `c`. -/
def SpscStart {T : Type} [Inhabited T] (c : Nat) (s : SpscState T) : Prop :=
  ∃ queue, Spsc.new c = .ok queue ∧ s =
    { queue := queue, producer := .idle, consumer := .idle, published := [], obtained := []
      released := 0, pushes := [], pops := [] }

end LruCache
