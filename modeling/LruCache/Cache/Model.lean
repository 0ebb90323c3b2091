import Mathlib.Algebra.Group.Nat.Defs
import Mathlib.Data.List.Basic

/-!
# The cache as the code has it

A shallow embedding of `include/lru_cache.h` and `src/lru_cache.cpp`: the node pool, the
index-linked recency list, the free list and the open-addressing table, with every loop and
every array access of the source.

* `std::size_t` values are `Nat`, reduced by `wrap` wherever the source increments, decrements
  or doubles them; `int32_t` indices are `Int`, with `-1` for "no node".
* A function of the source returns `Except Fault`: an access outside `nodes_` or
  `hash_table_`, a thrown exception and a loop that goes on past its bound all end the run.
* The member function `hash` is a parameter of the operations that call it; `hashKey` is the
  one of the source.

Deliberate scope limits:

* Allocation succeeds: the `std::bad_alloc` of a `std::vector` for which there is no memory is not
  modelled.
* `get_json_state`, which the web server calls and no file defines, is not here.
-/

namespace LruCache

/-- Why a run of the code has no result. -/
inductive Fault where
  /-- `nodes_`, `hash_table_` or `buffer_` was accessed outside its bounds. -/
  | outOfRange
  /-- A loop went on for longer than its bound. -/
  | diverges
  /-- `%` by zero. -/
  | divisionByZero
  /-- `std::invalid_argument` was thrown with this text. -/
  | invalidArgument (what : String)
deriving DecidableEq, Repr

/-- `std::size_t` arithmetic is modulo `2^64`. -/
def wrap (n : Nat) : Nat := n % 2 ^ 64

/-- `++n` of a `std::size_t`. -/
def incr (n : Nat) : Nat := wrap (n + 1)

/-- `--n` of a `std::size_t`. -/
def decr (n : Nat) : Nat := if n = 0 then 2 ^ 64 - 1 else n - 1

/-- `static_cast<int32_t>` of a `std::size_t`. -/
def toInt32 (n : Nat) : Int := (n : Int).bmod (2 ^ 32)

/-- `lru_cache::get_result`. -/
structure GetResult where
  found : Bool
  value : UInt64
deriving DecidableEq, Repr

/-- `lru_cache::node`. -/
structure Node where
  key : UInt64
  value : UInt64
  prev : Int
  next : Int
deriving DecidableEq, Repr

/-- The value-initialised node that `nodes_.resize` fills the pool with. -/
def Node.zero : Node := { key := 0, value := 0, prev := 0, next := 0 }

/-- The private state of `lru_cache`. -/
structure Cache where
  capacity : Nat
  size : Nat
  nodes : List Node
  head : Int
  tail : Int
  freeHead : Int
  hashTable : List Int
  hashMask : Nat
  hits : Nat
  misses : Nat
  evictions : Nat
deriving DecidableEq, Repr

/-! ## Array accesses -/

/-- `xs[i]` for a signed index; a negative index is out of range. -/
def readAt {α : Type} (xs : List α) (i : Int) : Except Fault α :=
  match i with
  | .ofNat j =>
      match xs[j]? with
      | some x => .ok x
      | none => .error .outOfRange
  | .negSucc _ => .error .outOfRange

/-- `xs[i]` replaced by `f xs[i]`. -/
def updateAt {α : Type} (xs : List α) (i : Int) (f : α → α) : Except Fault (List α) := do
  let x ← readAt xs i
  return xs.set i.toNat (f x)

/-- The cache after a write to the node `nodes_[i]`. -/
def Cache.setNode (c : Cache) (i : Int) (f : Node → Node) : Except Fault Cache := do
  let nodes ← updateAt c.nodes i f
  return { c with nodes := nodes }

/-- The cache after `hash_table_[idx] = v`. -/
def Cache.setSlot (c : Cache) (idx : Nat) (v : Int) : Except Fault Cache := do
  let table ← updateAt c.hashTable idx fun _ => v
  return { c with hashTable := table }

/-! ## The constructor -/

/-- The loop of `next_power_of_two`; `count <<= 1` loses its top bit at `2^64`. -/
def nextPowerOfTwoLoop (n : Nat) : Nat → Nat → Except Fault Nat
  | 0, _ => .error .diverges
  | fuel + 1, count =>
      if count < n then nextPowerOfTwoLoop n fuel (wrap (count * 2)) else .ok count

/-- `next_power_of_two`. After 64 doublings `count` is 0 and stays 0, so a loop that has not
ended after 65 tests never ends. -/
def nextPowerOfTwo (n : Nat) : Except Fault Nat := nextPowerOfTwoLoop n 65 1

/-- The loop of the constructor and of `clear` that links the free list. -/
def linkFree (capacity : Nat) (nodes : List Node) : Except Fault (List Node) :=
  (List.range (toInt32 capacity).toNat).foldlM (fun nodes (i : Nat) =>
    updateAt nodes i fun node =>
      { node with next := if (i : Int) + 1 < toInt32 capacity then (i : Int) + 1 else -1 }) nodes

/-- The constructor `lru_cache(capacity)`; both allocations are taken to succeed. -/
def Cache.new (capacity : Nat) : Except Fault Cache := do
  if capacity = 0 then
    throw (.invalidArgument "cache capacity must be greater than zero")
  let nodes ← linkFree capacity (List.replicate capacity Node.zero)
  let tableSize ← nextPowerOfTwo (wrap (capacity * 2))
  return {
    capacity := capacity
    size := 0
    nodes := nodes
    head := -1
    tail := -1
    freeHead := 0
    hashTable := List.replicate tableSize (-1)
    hashMask := tableSize - 1
    hits := 0
    misses := 0
    evictions := 0 }

/-! ## The hash function -/

/-- The 64-bit mixing of `lru_cache::hash`, before the mask. -/
def mix (key : UInt64) : UInt64 :=
  let key := key ^^^ (key >>> 33)
  let key := key * 0xff51afd7ed558ccd
  let key := key ^^^ (key >>> 33)
  let key := key * 0xc4ceb9fe1a85ec53
  key ^^^ (key >>> 33)

/-- `lru_cache::hash` of a cache with the mask `mask`. -/
def hashKey (mask : Nat) (key : UInt64) : Nat := (mix key).toNat &&& mask

/-! ## Probing -/

/-- A probe loop: `body` looks at one slot and either ends the loop with a result or lets it go
on to `(idx + 1) & hash_mask_`. -/
def probe {α : Type} (mask : Nat) (body : Nat → Except Fault (Option α)) :
    Nat → Nat → Except Fault α
  | 0, _ => .error .diverges
  | fuel + 1, idx => do
      match ← body idx with
      | some r => return r
      | none => probe mask body fuel ((idx + 1) &&& mask)

/-- What the loop of `put` and of `remove` finds: an empty slot, or the slot and the node of
the key. -/
inductive Probed where
  | empty (idx : Nat)
  | found (idx : Nat) (nodeIdx : Int)
deriving DecidableEq, Repr

/-- One turn of a loop that looks for `key`. -/
def probeKey (c : Cache) (key : UInt64) (idx : Nat) : Except Fault (Option Probed) := do
  let nodeIdx ← readAt c.hashTable idx
  if nodeIdx = -1 then
    return some (.empty idx)
  let node ← readAt c.nodes nodeIdx
  if node.key = key then
    return some (.found idx nodeIdx)
  return none

/-- The loop over the slots from `hash(key)` that stops at an empty slot or at `key`. A table of
`n` slots whose first `n` probes do not stop the loop never stops it. -/
def lookup (hash : UInt64 → Nat) (c : Cache) (key : UInt64) : Except Fault Probed :=
  probe c.hashMask (probeKey c key) c.hashTable.length (hash key)

/-- `find_node`. -/
def findNode (hash : UInt64 → Nat) (c : Cache) (key : UInt64) : Except Fault Int := do
  match ← lookup hash c key with
  | .empty _ => return -1
  | .found _ nodeIdx => return nodeIdx

/-! ## Erasing a slot -/

/-- The test `can_move` of the erasure loops. -/
def canMove (idealIdx idx nextIdx : Nat) : Bool :=
  if idealIdx ≤ nextIdx then decide (idx ≥ idealIdx) && decide (idx < nextIdx)
  else decide (idx ≥ idealIdx) || decide (idx < nextIdx)

/-- The backward-shift loop of `remove` and `evict_lru`: `idx` is the hole, `nextIdx` the slot
looked at. -/
def shiftLoop (hash : UInt64 → Nat) (nodes : List Node) (mask : Nat) :
    Nat → List Int → Nat → Nat → Except Fault (List Int)
  | 0, _, _, _ => .error .diverges
  | fuel + 1, table, idx, nextIdx => do
      let moveNodeIdx ← readAt table nextIdx
      if moveNodeIdx = -1 then
        return table
      let node ← readAt nodes moveNodeIdx
      if canMove (hash node.key) idx nextIdx then
        let table ← updateAt table idx fun _ => moveNodeIdx
        let table ← updateAt table nextIdx fun _ => -1
        shiftLoop hash nodes mask fuel table nextIdx ((nextIdx + 1) &&& mask)
      else
        shiftLoop hash nodes mask fuel table idx ((nextIdx + 1) &&& mask)

/-- The erasure of the slot `idx`, written twice in the source (in `remove` and in
`evict_lru`): empty the slot, then shift the entries behind it. -/
def eraseSlot (hash : UInt64 → Nat) (c : Cache) (idx : Nat) : Except Fault Cache := do
  let table ← updateAt c.hashTable idx fun _ => -1
  let table ← shiftLoop hash c.nodes c.hashMask c.hashTable.length table idx
    ((idx + 1) &&& c.hashMask)
  return { c with hashTable := table }

/-! ## List primitives -/

/-- `allocate_node`. -/
def allocateNode (c : Cache) : Except Fault (Int × Cache) := do
  let node ← readAt c.nodes c.freeHead
  return (c.freeHead, { c with freeHead := node.next, size := incr c.size })

/-- `free_node`. -/
def freeNode (c : Cache) (nodeIdx : Int) : Except Fault Cache := do
  let c ← c.setNode nodeIdx fun node => { node with next := c.freeHead }
  return { c with freeHead := nodeIdx, size := decr c.size }

/-- `link_node`. -/
def linkNode (c : Cache) (nodeIdx : Int) : Except Fault Cache := do
  let c ← c.setNode nodeIdx fun node => { node with next := c.head, prev := -1 }
  let c ← if c.head ≠ -1 then c.setNode c.head fun node => { node with prev := nodeIdx } else pure c
  let c := { c with head := nodeIdx }
  return if c.tail = -1 then { c with tail := nodeIdx } else c

/-- `unlink_node`. -/
def unlinkNode (c : Cache) (nodeIdx : Int) : Except Fault Cache := do
  let node ← readAt c.nodes nodeIdx
  let p := node.prev
  let n := node.next
  let c ← if p ≠ -1 then c.setNode p fun node => { node with next := n }
    else pure { c with head := n }
  if n ≠ -1 then c.setNode n fun node => { node with prev := p } else pure { c with tail := p }

/-- `promote`. -/
def promote (c : Cache) (nodeIdx : Int) : Except Fault Cache := do
  if nodeIdx = c.head then
    return c
  let c ← unlinkNode c nodeIdx
  linkNode c nodeIdx

/-! ## The operations -/

/-- One turn of the loop of `evict_lru`, which looks for a node index and has no exit on an
empty slot. -/
def probeNode (c : Cache) (evictIdx : Int) (idx : Nat) : Except Fault (Option Nat) := do
  let nodeIdx ← readAt c.hashTable idx
  return if nodeIdx = evictIdx then some idx else none

/-- `evict_lru`. -/
def evictLru (hash : UInt64 → Nat) (c : Cache) : Except Fault Cache := do
  let evictIdx := c.tail
  let node ← readAt c.nodes evictIdx
  let idx ← probe c.hashMask (probeNode c evictIdx) c.hashTable.length (hash node.key)
  let c ← eraseSlot hash c idx
  let c ← unlinkNode c evictIdx
  let c ← freeNode c evictIdx
  return { c with evictions := incr c.evictions }

/-- One turn of the second probe loop of `put`, which looks for an empty slot. -/
def probeEmpty (c : Cache) (idx : Nat) : Except Fault (Option Nat) := do
  let nodeIdx ← readAt c.hashTable idx
  return if nodeIdx ≠ -1 then none else some idx

/-- Step 2 of `put`: the cache and the slot for a new key, after an eviction if the cache is
full. -/
def makeRoom (hash : UInt64 → Nat) (c : Cache) (key : UInt64) (insertIdx : Nat) :
    Except Fault (Cache × Nat) := do
  if c.size = c.capacity then
    let c ← evictLru hash c
    let insertIdx ← probe c.hashMask (probeEmpty c) c.hashTable.length (hash key)
    return (c, insertIdx)
  return (c, insertIdx)

/-- Steps 3 and 4 of `put`: a node from the free list, entered in the table and linked as the
most recent one. -/
def insertNode (c : Cache) (insertIdx : Nat) (key value : UInt64) : Except Fault Cache := do
  let (newNodeIdx, c) ← allocateNode c
  let c ← c.setNode newNodeIdx fun node => { node with key := key, value := value }
  let c ← c.setSlot insertIdx newNodeIdx
  linkNode c newNodeIdx

/-- `put`. -/
def Cache.put (hash : UInt64 → Nat) (c : Cache) (key value : UInt64) : Except Fault Cache := do
  match ← lookup hash c key with
  | .found _ nodeIdx =>
      let c ← c.setNode nodeIdx fun node => { node with value := value }
      promote c nodeIdx
  | .empty insertIdx =>
      let (c, insertIdx) ← makeRoom hash c key insertIdx
      insertNode c insertIdx key value

/-- `get`. -/
def Cache.get (hash : UInt64 → Nat) (c : Cache) (key : UInt64) :
    Except Fault (GetResult × Cache) := do
  let nodeIdx ← findNode hash c key
  if nodeIdx = -1 then
    return ({ found := false, value := 0 }, { c with misses := incr c.misses })
  let c ← promote { c with hits := incr c.hits } nodeIdx
  let node ← readAt c.nodes nodeIdx
  return ({ found := true, value := node.value }, c)

/-- `remove`. -/
def Cache.remove (hash : UInt64 → Nat) (c : Cache) (key : UInt64) :
    Except Fault (Bool × Cache) := do
  match ← lookup hash c key with
  | .empty _ => return (false, c)
  | .found idx nodeIdx =>
      let c ← unlinkNode c nodeIdx
      let c ← freeNode c nodeIdx
      let c ← eraseSlot hash c idx
      return (true, c)

/-- `clear`. -/
def Cache.clear (c : Cache) : Except Fault Cache := do
  let nodes ← linkFree c.capacity c.nodes
  return { c with
    size := 0
    head := -1
    tail := -1
    freeHead := 0
    nodes := nodes
    hashTable := List.replicate c.hashTable.length (-1)
    hits := 0
    misses := 0
    evictions := 0 }

/-! ## Observers -/

/-- `empty`. -/
def Cache.empty (c : Cache) : Bool := c.size = 0

/-- `total_requests`. -/
def Cache.totalRequests (c : Cache) : Nat := wrap (c.hits + c.misses)

/-- How `display` prints a key or a value: through the formatter if there is one. -/
def displayText (formatter : Option (UInt64 → String)) (v : UInt64) : String :=
  match formatter with
  | some format => format v
  | none => toString v

/-- The line that `display` prints for the node at position `index`. -/
def displayLine (formatter : Option (UInt64 → String)) (index : Nat) (key value : UInt64) :
    String :=
  "  " ++ toString index ++ ". " ++ displayText formatter key ++ " = " ++
    displayText formatter value ++ "\n"

/-- The list walk of `display`. -/
def displayLoop (formatter : Option (UInt64 → String)) (nodes : List Node) :
    Nat → Int → Nat → Except Fault String
  | 0, _, _ => .error .diverges
  | fuel + 1, curr, index => do
      if curr = -1 then
        return ""
      let node ← readAt nodes curr
      let rest ← displayLoop formatter nodes fuel node.next (index + 1)
      return displayLine formatter index node.key node.value ++ rest

/-- The text that `display` prints. A walk of more steps than the pool has nodes never ends. -/
def Cache.display (formatter : Option (UInt64 → String)) (c : Cache) : Except Fault String := do
  if c.size = 0 then
    return "(cache is empty)\n"
  let lines ← displayLoop formatter c.nodes (c.nodes.length + 1) c.head 1
  return "Cache (" ++ toString c.size ++ "/" ++ toString c.capacity ++ ") [MRU -> LRU]:\n" ++ lines

end LruCache
