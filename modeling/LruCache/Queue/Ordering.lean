import LruCache.Queue.Moves

/-!
# The queue with the orderings that it asks for

`Spsc` lets a load see the last store. The source asks for less: `head_` and `tail_` are stored
with release and loaded by the other thread with acquire, so such a load may return any store
that is not older than the one it returned last, and orders the accesses of the buffer that came
before that store, no others. Here a load picks its store, and two accesses of a slot that
nothing orders are a race, which has no result.

Deliberate scope limits: one queue by itself, so that nothing outside of it orders its accesses;
each thread loads its own index relaxed, and sees its own last store as the language promises.
-/

namespace LruCache

open BoundedFifo Transition

/-! ## The accesses -/

/-- Why an access has no result. -/
inductive AccessError where
  /-- Not ordered after the access of the other thread. -/
  | race
  | fault (f : Fault)
deriving DecidableEq, Repr

/-- A fault of the queue is a fault here. -/
def orFault {α : Type} (x : Except Fault α) : Except AccessError α := x.mapError .fault

/-- The queue with all stores to `head_` and `tail_`, oldest first, the newest that the other
thread has read of each, and for each slot the number of the store to `tail_` that comes after
its last write, and of the store to `head_` that comes after its last read. Nothing comes before
the constructor's writes. -/
structure Ordered (T : Type) where
  state : SpscState T
  headStores : List Nat
  tailStores : List Nat
  headSeen : Nat
  tailSeen : Nat
  written : List (Option Nat)
  read : List (Option Nat)

/-- Is an access of the other thread ordered before what follows the store number `seen`? -/
def orderedBy (seen : Nat) : Option Nat → Bool
  | none => true
  | some store => store ≤ seen

/-- One step of the producer; `pick` is the number of the store that its load of `head_` returns. -/
def producerAccess {T : Type} (call : T) (pick : Nat) (s : Ordered T) :
    Except AccessError (Ordered T) :=
  match s.state.producer with
  | .loaded item currentTail nextTail => do
      let head ← orFault (readAt s.headStores pick)
      if nextTail = head then
        return { s with
          headSeen := pick
          state := { s.state with producer := .idle, pushes := s.state.pushes ++ [(item, false)] } }
      return { s with
        headSeen := pick
        state := { s.state with producer := .room item currentTail nextTail } }
  | .room _ currentTail _ => do
      let last ← orFault (readAt s.read currentTail)
      if orderedBy s.headSeen last then
        let state ← orFault (producerStep call s.state)
        return { s with
          state := state
          written := s.written.set currentTail (some s.tailStores.length) }
      else throw .race
  | .written _ _ nextTail => do
      let state ← orFault (producerStep call s.state)
      return { s with state := state, tailStores := s.tailStores ++ [nextTail] }
  | _ => do
      let state ← orFault (producerStep call s.state)
      return { s with state := state }

/-- One step of the consumer; `pick` is the number of the store that its load of `tail_` returns. -/
def consumerAccess {T : Type} (pick : Nat) (s : Ordered T) : Except AccessError (Ordered T) :=
  match s.state.consumer with
  | .loaded currentHead => do
      let tail ← orFault (readAt s.tailStores pick)
      if currentHead = tail then
        return { s with
          tailSeen := pick
          state := { s.state with consumer := .idle, pops := s.state.pops ++ [none] } }
      return { s with
        tailSeen := pick
        state := { s.state with consumer := .nonempty currentHead } }
  | .nonempty currentHead => do
      let last ← orFault (readAt s.written currentHead)
      if orderedBy s.tailSeen last then
        let state ← orFault (consumerStep s.state)
        return { s with
          state := state
          read := s.read.set currentHead (some s.headStores.length) }
      else throw .race
  | .obtained _ _ => do
      let state ← orFault (consumerStep s.state)
      return { s with state := state, headStores := s.headStores ++ [state.queue.head] }
  | _ => do
      let state ← orFault (consumerStep s.state)
      return { s with state := state }

/-- A store that a load may return: one that has been made, and none older than the last one
returned. -/
def Readable (stores : List Nat) (seen pick : Nat) : Prop := seen ≤ pick ∧ pick < stores.length

/-- A step of either thread. -/
def OrderedStep {T : Type} (s s' : Ordered T) : Prop :=
  (∃ call pick, Readable s.headStores s.headSeen pick ∧ producerAccess call pick s = .ok s') ∨
    ∃ pick, Readable s.tailStores s.tailSeen pick ∧ consumerAccess pick s = .ok s'

/-- Both threads before their first call on a new queue of capacity `c`. -/
def OrderedStart {T : Type} [Inhabited T] (c : Nat) (s : Ordered T) : Prop :=
  SpscStart c s.state ∧ s.headStores = [0] ∧ s.tailStores = [0] ∧ s.headSeen = 0 ∧
    s.tailSeen = 0 ∧ s.written = s.state.queue.buffer.map (fun _ => none) ∧
    s.read = s.state.queue.buffer.map (fun _ => none)

end LruCache
