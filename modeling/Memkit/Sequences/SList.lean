import Memkit.Core.ElementCells
import Memkit.Core.NodePool
import Memkit.Core.NodeWalks
import Memkit.Foundations.Transition

/-! # The singly linked list

`detail/list_core.hpp` over nodes of a pool or of the heap, modelled as the doubly linked list is:
a pointer to a node is its number, the loops over the nodes have a bound on their rounds, and a
call answers `none` if it does not return or follows a null pointer. -/

namespace Memkit

variable {V : Type*}

/-- The members of `list_core` that no operation changes. -/
structure SListConfig (V : Type*) where
  /-- `policy_`. -/
  policy : ElementPolicy V
  /-- `policy_.needs_destroy_on_clear()`. -/
  needsDestroy : Bool
  /-- The pool or the heap. -/
  source : NodeSource

/-- The members of `list_core` that the operations change, the links and the elements. -/
structure SList (V : Type*) where
  /-- `head_`. -/
  head : Option ℕ
  /-- `tail_`. -/
  tail : Option ℕ
  /-- `free_list_`, and the `next` links. -/
  pool : NodePool
  /-- `size_`. -/
  size : ℕ
  cells : Cells ℕ V

namespace SList

/-- The `next` links. -/
def next (s : SList V) : ℕ → Option ℕ := s.pool.next

/-- Write the `next` link of a node. -/
def writeNext (s : SList V) (node : ℕ) (link : Option ℕ) : SList V :=
  { s with pool := s.pool.setLink node link }

/-! ## Nodes -/

/-- `acquire_node`. -/
def acquireNode (cfg : SListConfig V) (s : SList V) : Except Status ℕ × SList V :=
  let (slot, pool) := s.pool.acquire cfg.source
  (slot, { s with pool := pool })

/-- `release_node`. -/
def releaseNode (cfg : SListConfig V) (s : SList V) (slot : ℕ) : SList V :=
  { s with pool := s.pool.release cfg.source slot }

/-- `make_node`. -/
def makeNode (cfg : SListConfig V) (s : SList V) (value : V) : Except Status ℕ × SList V :=
  match acquireNode cfg s with
  | (.error st, s) => (.error st, s)
  | (.ok slot, s) =>
    let (copySt, cells) := s.cells.copyConstruct cfg.policy slot value
    let s := { s with cells := cells }
    if copySt ≠ .ok then (.error copySt, releaseNode cfg s slot) else (.ok slot, s)

/-- `destroy_node_value`. -/
def destroyNodeValue (cfg : SListConfig V) (s : SList V) (slot : ℕ) : SList V :=
  if cfg.needsDestroy then { s with cells := s.cells.destroy cfg.policy slot } else s

/-- `unlink_front`. -/
def unlinkFront (s : SList V) : SList V :=
  match s.head with
  | none => s
  | some head =>
    let s := { s with head := s.next head }
    if s.head = none then { s with tail := none } else s

/-- The loop of `node_at`: the node and the one before it. -/
def nodeAtLoop (s : SList V) : ℕ → Option ℕ → Option ℕ → Option ℕ × Option ℕ
  | 0, prev, current => (current, prev)
  | _ + 1, prev, none => (none, prev)
  | index + 1, _, some current => nodeAtLoop s index (some current) (s.next current)

/-- `node_at`: the node at an index, and the one before it. -/
def nodeAt (s : SList V) (index : ℕ) : Option ℕ × Option ℕ := nodeAtLoop s index none s.head

/-! ## Inserting -/

/-- What `insert_front`, `insert_back` and `insert_at` do: make a node, link it, count it. -/
def insertLinked (cfg : SListConfig V) (s : SList V) (value : V)
    (link : SList V → ℕ → SList V) : Status × SList V :=
  match makeNode cfg s value with
  | (.error st, s) => (st, s)
  | (.ok slot, s) =>
    let s := link s slot
    (.ok, { s with size := s.size + 1 })

/-- `insert_front`. -/
def insertFront (cfg : SListConfig V) (s : SList V) (value : V) : Status × SList V :=
  insertLinked cfg s value fun s newNode =>
    let s := { s.writeNext newNode s.head with head := some newNode }
    if s.tail = none then { s with tail := some newNode } else s

/-- `insert_back`. -/
def insertBack (cfg : SListConfig V) (s : SList V) (value : V) : Status × SList V :=
  insertLinked cfg s value fun s newNode =>
    let s := s.writeNext newNode none
    match s.tail with
    | none => { s with head := some newNode, tail := some newNode }
    | some tail => { s.writeNext tail (some newNode) with tail := some newNode }

/-- `push_front`. -/
def pushFront (cfg : SListConfig V) (s : SList V) (value : V) : Status × SList V :=
  insertFront cfg s value

/-- `push_back`. -/
def pushBack (cfg : SListConfig V) (s : SList V) (value : V) : Status × SList V :=
  insertBack cfg s value

/-- `insert_at`; `none` is a null pointer. -/
def insertAt (cfg : SListConfig V) (s : SList V) (index : ℕ) (value : Option V) :
    Status × SList V :=
  match value with
  | none => (.nullPtr, s)
  | some value =>
    if s.size < index then (.invalid, s)
    else if index = 0 then insertFront cfg s value
    else if index = s.size then insertBack cfg s value
    else
      match nodeAt s index with
      | (some current, some prev) =>
        insertLinked cfg s value fun s newNode =>
          (s.writeNext newNode (some current)).writeNext prev (some newNode)
      | _ => (.invalid, s)

/-! ## Removing -/

/-- What the removals do first: copy the element to `out`, or destroy it if `out` is null. -/
def takeValue (cfg : SListConfig V) (s : SList V) (slot : ℕ) (out : Option V) :
    (Status × Option V) × SList V :=
  match out with
  | some out =>
    let ((copySt, out), cells) := s.cells.copyOut cfg.policy slot out
    ((copySt, some out), { s with cells := cells })
  | none => ((.ok, none), destroyNodeValue cfg s slot)

/-- What `pop_front`, `pop_back` and `remove_at` do with the node found: take the element, unlink
the node, release it and count it off. -/
def removeLinked (cfg : SListConfig V) (s : SList V) (slot : ℕ) (out : Option V)
    (unlink : SList V → SList V) : (Status × Option V) × SList V :=
  let ((copySt, out), s) := takeValue cfg s slot out
  if copySt ≠ .ok then ((copySt, out), s)
  else
    let s := releaseNode cfg (unlink s) slot
    ((.ok, out), { s with size := s.size - 1 })

/-- `pop_front`; `none` if `head_` is null in a list that is not empty. -/
def popFront (cfg : SListConfig V) (s : SList V) (out : Option V) :
    Option ((Status × Option V) × SList V) :=
  if s.size = 0 then some ((.empty, out), s)
  else s.head.map fun current => removeLinked cfg s current out unlinkFront

/-- `pop_back`. -/
def popBack (cfg : SListConfig V) (s : SList V) (out : Option V) :
    (Status × Option V) × SList V :=
  if s.size = 0 then ((.empty, out), s)
  else
    match nodeAt s (s.size - 1) with
    | (none, _) => ((.empty, out), s)
    | (some current, prev) =>
      removeLinked cfg s current out fun s =>
        match prev with
        | none => { s with head := none, tail := none }
        | some prev => { s.writeNext prev none with tail := some prev }

/-- `remove_at`. -/
def removeAt (cfg : SListConfig V) (s : SList V) (index : ℕ) (out : Option V) :
    Option ((Status × Option V) × SList V) :=
  if s.size ≤ index then some ((.invalid, out), s)
  else if index = 0 then popFront cfg s out
  else if index = s.size - 1 then some (popBack cfg s out)
  else
    match nodeAt s index with
    | (some current, some prev) =>
      some (removeLinked cfg s current out fun s => s.writeNext prev (s.next current))
    | _ => some ((.invalid, out), s)

/-- A walk over more nodes than this meets one of them twice. -/
def rounds (cfg : SListConfig V) (s : SList V) : ℕ := cfg.source.capacity + s.pool.requests

/-- `remove_first`. -/
def removeFirst (cfg : SListConfig V) (s : SList V) (pred : V → Bool) (out : Option V) :
    Option ((Status × Option V) × SList V) :=
  match findLoop pred s.cells.contents s.next (rounds cfg s) 0 s.head with
  | none => none
  | some none => some ((.notFound, out), s)
  | some (some index) => removeAt cfg s index out

/-- The loop of `clear`. -/
def clearLoop (cfg : SListConfig V) : ℕ → SList V → Option (SList V)
  | rounds, s =>
    match s.head with
    | none => some s
    | some current =>
      match rounds with
      | 0 => none
      | rounds + 1 =>
        let s := unlinkFront s
        let s := destroyNodeValue cfg s current
        clearLoop cfg rounds (releaseNode cfg s current)

/-- `clear`. -/
def clear (cfg : SListConfig V) (s : SList V) : Option (SList V) :=
  (clearLoop cfg (rounds cfg s) s).map fun s => { s with tail := none, size := 0 }

/-! ## Reading -/

/-- `peek_front`. -/
def peekFront (s : SList V) (out : Option V) : Option (Status × Option V) :=
  peekEnd s.size s.cells.contents s.head out

/-- `peek_back`. -/
def peekBack (s : SList V) (out : Option V) : Option (Status × Option V) :=
  peekEnd s.size s.cells.contents s.tail out

/-- `peek_at`. -/
def peekAt (s : SList V) (index : ℕ) (out : Option V) : Option (Status × Option V) :=
  match out with
  | none => some (.nullPtr, none)
  | some out =>
    if s.size ≤ index then some (.invalid, some out)
    else
      ((fun o : Option ℕ => o.bind s.next)^[index] s.head).map fun current =>
        (.ok, some (s.cells.contents current))

/-- `for_each`. -/
def forEach (cfg : SListConfig V) (s : SList V) (visit : List (V × ℕ) → Status) :
    Option (Status × List (V × ℕ)) :=
  forEachLoop visit s.cells.contents s.next (rounds cfg s) [] 0 s.head

/-! ## Calls -/

/-- The list after `init` or `init_dynamic`, over memory with any contents. -/
def init (cfg : SListConfig V) (links : ℕ → Option ℕ) (memory : ℕ → V) : SList V where
  head := none
  tail := none
  pool := .init cfg.source links
  size := 0
  cells := .start memory

/-- A call of the interface. -/
inductive Call (V : Type*)
  | pushFront (value : V)
  | pushBack (value : V)
  | insertAt (index : ℕ) (value : Option V)
  | popFront (out : Option V)
  | popBack (out : Option V)
  | removeAt (index : ℕ) (out : Option V)
  | removeFirst (pred : V → Bool) (out : Option V)
  | peekFront (out : Option V)
  | peekBack (out : Option V)
  | peekAt (index : ℕ) (out : Option V)
  | clear
  | forEach (visit : List (V × ℕ) → Status)

/-- Dispatch a call. -/
def call (cfg : SListConfig V) (s : SList V) : Call V → Option (Answer V) × SList V
  | .pushFront value =>
    let (st, s) := pushFront cfg s value
    (some (.status st), s)
  | .pushBack value =>
    let (st, s) := pushBack cfg s value
    (some (.status st), s)
  | .insertAt index value =>
    let (st, s) := insertAt cfg s index value
    (some (.status st), s)
  | .popFront out => answerRemoval s (popFront cfg s out)
  | .popBack out => answerRemoval s (some (popBack cfg s out))
  | .removeAt index out => answerRemoval s (removeAt cfg s index out)
  | .removeFirst pred out => answerRemoval s (removeFirst cfg s pred out)
  | .peekFront out => ((peekFront s out).map .ofOut, s)
  | .peekBack out => ((peekBack s out).map .ofOut, s)
  | .peekAt index out => ((peekAt s index out).map .ofOut, s)
  | .clear =>
    match clear cfg s with
    | none => (none, s)
    | some s => (some .done, s)
  | .forEach visit => ((forEach cfg s visit).map .ofVisits, s)

end SList

end Memkit
