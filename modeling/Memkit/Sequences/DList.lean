import Memkit.Core.ElementCells
import Memkit.Core.NodePool
import Memkit.Core.NodeWalks
import Memkit.Foundations.Transition

/-! # The doubly linked list

`detail/dlist_core.hpp` over nodes of a pool or of the heap. A pointer to a node is its number,
`none` for null; the links are functions of the node. The element of a node is in its own slot.
`size_` counts nodes and never wraps.

The loops over the nodes take a bound on their rounds, which no list exceeds that does not run in a
circle (`rounds`). A call answers `none` if it does not return or follows a null pointer. -/

namespace Memkit

variable {V : Type*}

/-- The members of `dlist_core` that no operation changes. -/
structure DListConfig (V : Type*) where
  /-- `policy_`. -/
  policy : ElementPolicy V
  /-- `policy_.needs_destroy_on_clear()`. -/
  needsDestroy : Bool
  /-- The pool or the heap. -/
  source : NodeSource

/-- The members of `dlist_core` that the operations change, the links and the elements. -/
structure DList (V : Type*) where
  /-- `head_`. -/
  head : Option ℕ
  /-- `tail_`. -/
  tail : Option ℕ
  /-- The `prev` links. -/
  prev : ℕ → Option ℕ
  /-- `free_list_`, and the `next` links. -/
  pool : NodePool
  /-- `size_`. -/
  size : ℕ
  cells : Cells ℕ V

namespace DList

/-- The `next` links. -/
def next (s : DList V) : ℕ → Option ℕ := s.pool.next

/-- Write the `next` link of a node. -/
def writeNext (s : DList V) (node : ℕ) (link : Option ℕ) : DList V :=
  { s with pool := s.pool.setLink node link }

/-- Write the `prev` link of a node. -/
def writePrev (s : DList V) (node : ℕ) (link : Option ℕ) : DList V :=
  { s with prev := Function.update s.prev node link }

/-! ## Nodes -/

/-- `acquire_node`. -/
def acquireNode (cfg : DListConfig V) (s : DList V) : Except Status ℕ × DList V :=
  match s.pool.acquire cfg.source with
  | (.error st, pool) => (.error st, { s with pool := pool })
  | (.ok slot, pool) => (.ok slot, { s with pool := pool }.writePrev slot none)

/-- `release_node`. -/
def releaseNode (cfg : DListConfig V) (s : DList V) (slot : ℕ) : DList V :=
  let s := if cfg.source.fixedPool then s.writePrev slot none else s
  { s with pool := s.pool.release cfg.source slot }

/-- `make_node`. -/
def makeNode (cfg : DListConfig V) (s : DList V) (value : V) : Except Status ℕ × DList V :=
  match acquireNode cfg s with
  | (.error st, s) => (.error st, s)
  | (.ok slot, s) =>
    let (copySt, cells) := s.cells.copyConstruct cfg.policy slot value
    let s := { s with cells := cells }
    if copySt ≠ .ok then (.error copySt, releaseNode cfg s slot) else (.ok slot, s)

/-- `destroy_node_value`. -/
def destroyNodeValue (cfg : DListConfig V) (s : DList V) (slot : ℕ) : DList V :=
  if cfg.needsDestroy then { s with cells := s.cells.destroy cfg.policy slot } else s

/-- `link_front`. -/
def linkFront (s : DList V) (slot : ℕ) : DList V :=
  let s := s.writePrev slot none
  let s := s.writeNext slot s.head
  let s :=
    match s.head with
    | some head => s.writePrev head (some slot)
    | none => { s with tail := some slot }
  { s with head := some slot }

/-- `link_back`. -/
def linkBack (s : DList V) (slot : ℕ) : DList V :=
  let s := s.writeNext slot none
  let s := s.writePrev slot s.tail
  let s :=
    match s.tail with
    | some tail => s.writeNext tail (some slot)
    | none => { s with head := some slot }
  { s with tail := some slot }

/-- `link_before`. -/
def linkBefore (s : DList V) (target newNode : ℕ) : DList V :=
  let s := s.writeNext newNode (some target)
  let s := s.writePrev newNode (s.prev target)
  let s :=
    match s.prev target with
    | some prev => s.writeNext prev (some newNode)
    | none => { s with head := some newNode }
  s.writePrev target (some newNode)

/-- `unlink_node`. -/
def unlinkNode (s : DList V) (slot : ℕ) : DList V :=
  let s :=
    match s.prev slot with
    | some prev => s.writeNext prev (s.next slot)
    | none => { s with head := s.next slot }
  let s :=
    match s.next slot with
    | some next => s.writePrev next (s.prev slot)
    | none => { s with tail := s.prev slot }
  (s.writePrev slot none).writeNext slot none

/-- `node_at`: it walks from the nearer end. -/
def nodeAt (s : DList V) (index : ℕ) : Option ℕ :=
  if s.size ≤ index then none
  else if index ≤ s.size / 2 then (fun o : Option ℕ => o.bind s.next)^[index] s.head
  else (fun o : Option ℕ => o.bind s.prev)^[s.size - 1 - index] s.tail

/-! ## Inserting -/

/-- What `insert_front`, `insert_back` and `insert_at` do: make a node, link it, count it. -/
def insertLinked (cfg : DListConfig V) (s : DList V) (value : V)
    (link : DList V → ℕ → DList V) : Status × DList V :=
  match makeNode cfg s value with
  | (.error st, s) => (st, s)
  | (.ok slot, s) =>
    let s := link s slot
    (.ok, { s with size := s.size + 1 })

/-- `insert_front`. -/
def insertFront (cfg : DListConfig V) (s : DList V) (value : V) : Status × DList V :=
  insertLinked cfg s value linkFront

/-- `insert_back`. -/
def insertBack (cfg : DListConfig V) (s : DList V) (value : V) : Status × DList V :=
  insertLinked cfg s value linkBack

/-- `push_front`. -/
def pushFront (cfg : DListConfig V) (s : DList V) (value : V) : Status × DList V :=
  insertFront cfg s value

/-- `push_back`. -/
def pushBack (cfg : DListConfig V) (s : DList V) (value : V) : Status × DList V :=
  insertBack cfg s value

/-- `insert_at`; `none` is a null pointer. -/
def insertAt (cfg : DListConfig V) (s : DList V) (index : ℕ) (value : Option V) :
    Status × DList V :=
  match value with
  | none => (.nullPtr, s)
  | some value =>
    if s.size < index then (.invalid, s)
    else if index = 0 then insertFront cfg s value
    else if index = s.size then insertBack cfg s value
    else
      match nodeAt s index with
      | none => (.invalid, s)
      | some target => insertLinked cfg s value fun s slot => linkBefore s target slot

/-! ## Removing -/

/-- What `pop_node` does first: copy the element to `out`, or destroy it if `out` is null. -/
def takeValue (cfg : DListConfig V) (s : DList V) (slot : ℕ) (out : Option V) :
    (Status × Option V) × DList V :=
  match out with
  | some out =>
    let ((copySt, out), cells) := s.cells.copyOut cfg.policy slot out
    ((copySt, some out), { s with cells := cells })
  | none => ((.ok, none), destroyNodeValue cfg s slot)

/-- `pop_node`; `out` is what it points to. -/
def popNode (cfg : DListConfig V) (s : DList V) (slot : ℕ) (out : Option V) :
    (Status × Option V) × DList V :=
  let ((copySt, out), s) := takeValue cfg s slot out
  if copySt ≠ .ok then ((copySt, out), s)
  else
    let s := releaseNode cfg (unlinkNode s slot) slot
    ((.ok, out), { s with size := s.size - 1 })

/-- `pop_front`; `none` if `head_` is null in a list that is not empty. -/
def popFront (cfg : DListConfig V) (s : DList V) (out : Option V) :
    Option ((Status × Option V) × DList V) :=
  if s.size = 0 then some ((.empty, out), s)
  else s.head.map fun slot => popNode cfg s slot out

/-- `pop_back`. -/
def popBack (cfg : DListConfig V) (s : DList V) (out : Option V) :
    Option ((Status × Option V) × DList V) :=
  if s.size = 0 then some ((.empty, out), s)
  else s.tail.map fun slot => popNode cfg s slot out

/-- `remove_at`. -/
def removeAt (cfg : DListConfig V) (s : DList V) (index : ℕ) (out : Option V) :
    Option ((Status × Option V) × DList V) :=
  if s.size ≤ index then some ((.invalid, out), s)
  else if index = 0 then popFront cfg s out
  else if index = s.size - 1 then popBack cfg s out
  else
    match nodeAt s index with
    | none => some ((.invalid, out), s)
    | some target => some (popNode cfg s target out)

/-- A walk over more nodes than this meets one of them twice. -/
def rounds (cfg : DListConfig V) (s : DList V) : ℕ := cfg.source.capacity + s.pool.requests

/-- `remove_first`. -/
def removeFirst (cfg : DListConfig V) (s : DList V) (pred : V → Bool) (out : Option V) :
    Option ((Status × Option V) × DList V) :=
  match findLoop pred s.cells.contents s.next (rounds cfg s) 0 s.head with
  | none => none
  | some none => some ((.notFound, out), s)
  | some (some index) => removeAt cfg s index out

/-- The loop of `clear`. -/
def clearLoop (cfg : DListConfig V) : ℕ → DList V → Option (DList V)
  | rounds, s =>
    match s.head with
    | none => some s
    | some current =>
      match rounds with
      | 0 => none
      | rounds + 1 =>
        let s := unlinkNode s current
        let s := destroyNodeValue cfg s current
        clearLoop cfg rounds (releaseNode cfg s current)

/-- `clear`. -/
def clear (cfg : DListConfig V) (s : DList V) : Option (DList V) :=
  (clearLoop cfg (rounds cfg s) s).map fun s => { s with head := none, tail := none, size := 0 }

/-! ## Reading -/

/-- `peek_front`. -/
def peekFront (s : DList V) (out : Option V) : Option (Status × Option V) :=
  peekEnd s.size s.cells.contents s.head out

/-- `peek_back`. -/
def peekBack (s : DList V) (out : Option V) : Option (Status × Option V) :=
  peekEnd s.size s.cells.contents s.tail out

/-- `peek_at`. -/
def peekAt (s : DList V) (index : ℕ) (out : Option V) : Status × Option V :=
  match out with
  | none => (.nullPtr, none)
  | some out =>
    match nodeAt s index with
    | none => (.invalid, some out)
    | some current => (.ok, some (s.cells.contents current))

/-- `for_each`. -/
def forEach (cfg : DListConfig V) (s : DList V) (visit : List (V × ℕ) → Status) :
    Option (Status × List (V × ℕ)) :=
  forEachLoop visit s.cells.contents s.next (rounds cfg s) [] 0 s.head

/-- The loop of `for_each_reverse`, which also ends at index zero. -/
def forEachReverseLoop (s : DList V) (visit : List (V × ℕ) → Status) :
    ℕ → List (V × ℕ) → ℕ → Option ℕ → Option (Status × List (V × ℕ))
  | _, seen, _, none => some (.ok, seen)
  | 0, _, _, some _ => none
  | rounds + 1, seen, index, some current =>
    let seen := seen ++ [(s.cells.contents current, index)]
    let st := visit seen
    if st ≠ .ok then some (st, seen)
    else if index = 0 then some (.ok, seen)
    else forEachReverseLoop s visit rounds seen (index - 1) (s.prev current)

/-- `for_each_reverse`. -/
def forEachReverse (cfg : DListConfig V) (s : DList V) (visit : List (V × ℕ) → Status) :
    Option (Status × List (V × ℕ)) :=
  if s.size = 0 then some (.ok, [])
  else forEachReverseLoop s visit (rounds cfg s) [] (s.size - 1) s.tail

/-! ## Calls -/

/-- The list after `init` or `init_dynamic`, over memory with any contents. -/
def init (cfg : DListConfig V) (links : ℕ → Option ℕ) (memory : ℕ → V) : DList V where
  head := none
  tail := none
  prev i := if cfg.source.fixedPool ∧ i < cfg.source.capacity then none else links i
  pool := .init cfg.source links
  size := 0
  cells := .start memory

/-- A call of the interface. -/
inductive Call (V : Type*)
  | pushFront (value : V)
  | pushBack (value : V)
  | insertAt (index : ℕ) (value : Option V)
  | popFront (out : Option V)
  | popBack (out : Option V)
  | removeAt (index : ℕ) (out : Option V)
  | removeFirst (pred : V → Bool) (out : Option V)
  | peekFront (out : Option V)
  | peekBack (out : Option V)
  | peekAt (index : ℕ) (out : Option V)
  | clear
  | forEach (visit : List (V × ℕ) → Status)
  | forEachReverse (visit : List (V × ℕ) → Status)

/-- Dispatch a call. -/
def call (cfg : DListConfig V) (s : DList V) : Call V → Option (Answer V) × DList V
  | .pushFront value =>
    let (st, s) := pushFront cfg s value
    (some (.status st), s)
  | .pushBack value =>
    let (st, s) := pushBack cfg s value
    (some (.status st), s)
  | .insertAt index value =>
    let (st, s) := insertAt cfg s index value
    (some (.status st), s)
  | .popFront out => answerRemoval s (popFront cfg s out)
  | .popBack out => answerRemoval s (popBack cfg s out)
  | .removeAt index out => answerRemoval s (removeAt cfg s index out)
  | .removeFirst pred out => answerRemoval s (removeFirst cfg s pred out)
  | .peekFront out => ((peekFront s out).map .ofOut, s)
  | .peekBack out => ((peekBack s out).map .ofOut, s)
  | .peekAt index out => (some (.ofOut (peekAt s index out)), s)
  | .clear =>
    match clear cfg s with
    | none => (none, s)
    | some s => (some .done, s)
  | .forEach visit => ((forEach cfg s visit).map .ofVisits, s)
  | .forEachReverse visit => ((forEachReverse cfg s visit).map .ofVisits, s)

end DList

end Memkit
