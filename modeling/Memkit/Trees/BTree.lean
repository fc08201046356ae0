import Memkit.Core.Answer
import Memkit.Core.ElementCells
import Memkit.Core.NodePool
import Memkit.Foundations.LinkedTree
import Memkit.Foundations.Transition

/-! # The tree map

`detail/btree_map_core.hpp`: a binary search tree of elements over nodes of a pool, of the heap or
of an arena, with the runtime element policy. A pointer to a node is its number, `none` for null,
and a pointer to such a pointer is a `Link`. The free list runs through the `left` links.

The recursions and the walks take a bound on their depth, which no tree exceeds that has no cycle
(`rounds`). A call answers `none` if it does not return or follows a null pointer. -/

namespace Memkit

open LinkedTree

variable {V : Type*}

/-- The members of `btree_map_core` that no operation changes. -/
structure BTreeConfig (V : Type*) where
  /-- `policy_`. -/
  policy : ElementPolicy V
  /-- `policy_.needs_destroy_on_clear()`. -/
  needsDestroy : Bool
  /-- The pool, or the heap or the arena. -/
  source : NodeSource
  /-- `compare_.compare`. -/
  compare : V → V → ℤ

/-- The members of `btree_map_core` that the operations change, the links and the elements. -/
structure BTree (V : Type*) where
  /-- `root_`. -/
  root : Option ℕ
  /-- The `right` links. -/
  right : ℕ → Option ℕ
  /-- `free_list_`, and the `left` links. -/
  pool : NodePool
  /-- `size_`. -/
  size : ℕ
  cells : Cells ℕ V

namespace BTree

/-- The `left` links. -/
def left (s : BTree V) : ℕ → Option ℕ := s.pool.next

/-- What a link holds. -/
def readLink (s : BTree V) : Link ℕ → Option ℕ
  | .root => s.root
  | .left node => s.left node
  | .right node => s.right node

/-- Write a link. -/
def writeLink (s : BTree V) (link : Link ℕ) (node : Option ℕ) : BTree V :=
  match link with
  | .root => { s with root := node }
  | .left owner => { s with pool := s.pool.setLink owner node }
  | .right owner => { s with right := Function.update s.right owner node }

/-! ## Nodes -/

/-- `init_free_list`. -/
def initFreeList (cfg : BTreeConfig V) (s : BTree V) : BTree V :=
  { s with
    pool := s.pool.initFreeList cfg.source
    right := fun i => if i < cfg.source.capacity then none else s.right i }

/-- `acquire_node`. -/
def acquireNode (cfg : BTreeConfig V) (s : BTree V) : Except Status ℕ × BTree V :=
  match s.pool.acquire cfg.source with
  | (.error st, pool) => (.error st, { s with pool := pool })
  | (.ok slot, pool) => (.ok slot, { s with pool := pool }.writeLink (.right slot) none)

/-- `release_node`. -/
def releaseNode (cfg : BTreeConfig V) (s : BTree V) (slot : ℕ) : BTree V :=
  let s := if cfg.source.fixedPool then s.writeLink (.right slot) none else s
  { s with pool := s.pool.release cfg.source slot }

/-- `make_node`. -/
def makeNode (cfg : BTreeConfig V) (s : BTree V) (elem : V) : Except Status ℕ × BTree V :=
  match acquireNode cfg s with
  | (.error st, s) => (.error st, s)
  | (.ok slot, s) =>
    let (copySt, cells) := s.cells.copyConstruct cfg.policy slot elem
    let s := { s with cells := cells }
    if copySt ≠ .ok then (.error copySt, releaseNode cfg s slot) else (.ok slot, s)

/-- `destroy_node_value`. -/
def destroyNodeValue (cfg : BTreeConfig V) (s : BTree V) (slot : ℕ) : BTree V :=
  if cfg.needsDestroy then { s with cells := s.cells.destroy cfg.policy slot } else s

/-- A walk down more nodes than this meets one of them twice. -/
def rounds (cfg : BTreeConfig V) (s : BTree V) : ℕ := cfg.source.capacity + s.pool.requests

/-! ## Searching -/

/-- The loop of `find_node`. -/
def findLoop (cfg : BTreeConfig V) (s : BTree V) (key : V) : ℕ → Option ℕ → Option (Option ℕ)
  | _, none => some none
  | 0, some _ => none
  | rounds + 1, some current =>
    let cmp := cfg.compare key (s.cells.contents current)
    if cmp = 0 then some (some current)
    else findLoop cfg s key rounds (if cmp < 0 then s.left current else s.right current)

/-- `find_node`. -/
def findNode (cfg : BTreeConfig V) (s : BTree V) (key : V) : Option (Option ℕ) :=
  findLoop cfg s key (rounds cfg s) s.root

/-- `get`; `none` is a null pointer. -/
def get (cfg : BTreeConfig V) (s : BTree V) (key out : Option V) : Option (Status × Option V) :=
  match key, out with
  | some key, some out =>
    (findNode cfg s key).map fun node =>
      match node with
      | none => (.notFound, some out)
      | some node => (.ok, some (s.cells.contents node))
  | _, out => some (.nullPtr, out)

/-- `contains`. -/
def contains (cfg : BTreeConfig V) (s : BTree V) (key : Option V) : Option Bool :=
  match key with
  | none => some false
  | some key => (findNode cfg s key).map Option.isSome

/-- The walks of `peek_min` and `peek_max`, along the left or the right links. -/
def walkLoop (child : ℕ → Option ℕ) : ℕ → ℕ → Option ℕ
  | rounds, node =>
    match child node with
    | none => some node
    | some next =>
      match rounds with
      | 0 => none
      | rounds + 1 => walkLoop child rounds next

/-- What `peek_min` and `peek_max` do. -/
def peekEnd (cfg : BTreeConfig V) (s : BTree V) (child : ℕ → Option ℕ) (out : Option V) :
    Option (Status × Option V) :=
  match out with
  | none => some (.nullPtr, none)
  | some out =>
    if s.size = 0 then some (.empty, some out)
    else
      (s.root.bind (walkLoop child (rounds cfg s))).map fun node =>
        (.ok, some (s.cells.contents node))

/-- `peek_min`. -/
def peekMin (cfg : BTreeConfig V) (s : BTree V) (out : Option V) : Option (Status × Option V) :=
  peekEnd cfg s s.left out

/-- `peek_max`. -/
def peekMax (cfg : BTreeConfig V) (s : BTree V) (out : Option V) : Option (Status × Option V) :=
  peekEnd cfg s s.right out

/-! ## Inserting -/

/-- What `insert_node` does at a null link: its status, and `inserted`. -/
def insertHere (cfg : BTreeConfig V) (s : BTree V) (link : Link ℕ) (elem : V) :
    (Status × Bool) × BTree V :=
  match makeNode cfg s elem with
  | (.error st, s) => ((st, false), s)
  | (.ok slot, s) => ((.ok, true), s.writeLink link (some slot))

/-- `insert_node`. -/
def insertNode (cfg : BTreeConfig V) (s : BTree V) (elem : V) :
    ℕ → Link ℕ → Option ((Status × Bool) × BTree V)
  | rounds, link =>
    match s.readLink link with
    | none => some (insertHere cfg s link elem)
    | some node =>
      let cmp := cfg.compare elem (s.cells.contents node)
      if cmp = 0 then
        some ((.ok, false), { s with cells := s.cells.copyAssign cfg.policy node elem })
      else
        match rounds with
        | 0 => none
        | rounds + 1 => insertNode cfg s elem rounds (if cmp < 0 then .left node else .right node)

/-- `insert`. -/
protected def insert (cfg : BTreeConfig V) (s : BTree V) (elem : Option V) : Option (Status × BTree V) :=
  match elem with
  | none => some (.nullPtr, s)
  | some elem =>
    (insertNode cfg s elem (rounds cfg s) .root).map fun ((st, inserted), s) =>
      (st, if st = .ok ∧ inserted then { s with size := s.size + 1 } else s)

/-! ## Removing -/

/-- The loop of `remove_node` for the link of the successor. -/
def succLinkLoop (s : BTree V) : ℕ → Link ℕ → Option (Link ℕ)
  | rounds, succLink =>
    match s.readLink succLink with
    | none => none
    | some node =>
      match s.left node with
      | none => some succLink
      | some _ =>
        match rounds with
        | 0 => none
        | rounds + 1 => succLinkLoop s rounds (.left node)

/-- The end of `remove_node` for a target with two children: the successor is unlinked, its element
copied over that of the target, and the successor released; if the copy fails it is linked again. -/
def replaceBySuccessor (cfg : BTreeConfig V) (s : BTree V) (target successor : ℕ)
    (succLink : Link ℕ) : (Status × Bool) × BTree V :=
  let savedRight := s.right successor
  let s := s.writeLink succLink savedRight
  let (copySt, cells) :=
    s.cells.copyConstruct cfg.policy target (s.cells.contents successor)
  let s := { s with cells := cells }
  if copySt ≠ .ok then
    ((copySt, false),
      (s.writeLink (.right successor) savedRight).writeLink succLink (some successor))
  else ((.ok, true), releaseNode cfg (destroyNodeValue cfg s successor) successor)

/-- The end of `remove_node` for a target with at most one child. -/
def spliceTarget (cfg : BTreeConfig V) (s : BTree V) (link : Link ℕ) (target : ℕ) :
    (Status × Bool) × BTree V :=
  let s := s.writeLink link (if s.left target ≠ none then s.left target else s.right target)
  ((.ok, true), releaseNode cfg (destroyNodeValue cfg s target) target)

/-- `remove_node` once the target is found. -/
def removeTarget (cfg : BTreeConfig V) (s : BTree V) (link : Link ℕ) (target : ℕ) :
    Option ((Status × Bool) × BTree V) :=
  if s.left target ≠ none ∧ s.right target ≠ none then
    match succLinkLoop s (rounds cfg s) (.right target) with
    | none => none
    | some succLink =>
      (s.readLink succLink).map fun successor => replaceBySuccessor cfg s target successor succLink
  else some (spliceTarget cfg s link target)

/-- `remove_node`: its status, and `removed`. -/
def removeNode (cfg : BTreeConfig V) (s : BTree V) (key : V) :
    ℕ → Link ℕ → Option ((Status × Bool) × BTree V)
  | rounds, link =>
    match s.readLink link with
    | none => some ((.notFound, false), s)
    | some node =>
      let cmp := cfg.compare key (s.cells.contents node)
      if cmp = 0 then removeTarget cfg s link node
      else
        match rounds with
        | 0 => none
        | rounds + 1 => removeNode cfg s key rounds (if cmp < 0 then .left node else .right node)

/-- `remove`. -/
def remove (cfg : BTreeConfig V) (s : BTree V) (key : Option V) : Option (Status × BTree V) :=
  match key with
  | none => some (.nullPtr, s)
  | some key =>
    (removeNode cfg s key (rounds cfg s) .root).map fun ((st, removed), s) =>
      if st ≠ .ok then (st, s)
      else (.ok, if removed then { s with size := s.size - 1 } else s)

/-! ## Clearing -/

/-- `clear_subtree`. -/
def clearSubtree (cfg : BTreeConfig V) : ℕ → BTree V → Option ℕ → Option (BTree V)
  | _, s, none => some s
  | 0, _, some _ => none
  | rounds + 1, s, some current =>
    match clearSubtree cfg rounds s (s.left current) with
    | none => none
    | some s =>
      match clearSubtree cfg rounds s (s.right current) with
      | none => none
      | some s => some (releaseNode cfg (destroyNodeValue cfg s current) current)

/-- `clear`. -/
def clear (cfg : BTreeConfig V) (s : BTree V) : Option (BTree V) :=
  (clearSubtree cfg (rounds cfg s) s s.root).map fun s =>
    let s := { s with root := none, size := 0 }
    if cfg.source.fixedPool then initFreeList cfg s else s

/-! ## Traversing -/

/-- `btree_traversal`. -/
inductive Traversal
  | inorder
  | preorder
  | postorder
  deriving DecidableEq, Repr

/-- A visit of `traverse_node`, if `order` is the one that asks for it. -/
def visitWhen (order here : Traversal) (visit : List V → Status) (seen : List V) (elem : V) :
    Status × List V :=
  if order = here then (visit (seen ++ [elem]), seen ++ [elem]) else (.ok, seen)

/-- `traverse_node`: the visitor may stop it by its status, which may depend on all it has seen. -/
def traverseNode (s : BTree V) (order : Traversal) (visit : List V → Status) :
    ℕ → List V → Option ℕ → Option (Status × List V)
  | _, seen, none => some (.ok, seen)
  | 0, _, some _ => none
  | rounds + 1, seen, some current =>
    let elem := s.cells.contents current
    let (st, seen) := visitWhen order .preorder visit seen elem
    if st ≠ .ok then some (st, seen)
    else
      match traverseNode s order visit rounds seen (s.left current) with
      | none => none
      | some (leftSt, seen) =>
        if leftSt ≠ .ok then some (leftSt, seen)
        else
          let (st, seen) := visitWhen order .inorder visit seen elem
          if st ≠ .ok then some (st, seen)
          else
            match traverseNode s order visit rounds seen (s.right current) with
            | none => none
            | some (rightSt, seen) =>
              if rightSt ≠ .ok then some (rightSt, seen)
              else some (visitWhen order .postorder visit seen elem)

/-- `foreach`. -/
def foreach (cfg : BTreeConfig V) (s : BTree V) (order : Traversal) (visit : List V → Status) :
    Option (Status × List V) :=
  traverseNode s order visit (rounds cfg s) [] s.root

/-! ## Calls -/

/-- The tree after `init` or `init_dynamic`, over memory with any contents. -/
def init (cfg : BTreeConfig V) (links : ℕ → Option ℕ) (memory : ℕ → V) : BTree V :=
  let s : BTree V := ⟨none, links, ⟨none, links, 0⟩, 0, .start memory⟩
  if cfg.source.fixedPool then initFreeList cfg s else s

/-- A call of the interface, with the traversal in order. -/
inductive Call (V : Type*)
  | insert (elem : Option V)
  | get (key out : Option V)
  | contains (key : Option V)
  | remove (key : Option V)
  | clear
  | peekMin (out : Option V)
  | peekMax (out : Option V)
  | foreach (visit : List V → Status)

/-- What a call returns, and what it writes to the memory of the caller. -/
inductive Reply (V : Type*)
  | status (result : Status)
  /-- The status, and what the out pointer points to afterwards; `none` for a null pointer. -/
  | value (result : Status) (out : Option V)
  | contains (answer : Bool)
  /-- The status, and the elements visited. -/
  | visits (result : Status) (seen : List V)
  | done
  deriving DecidableEq, Repr

/-- The reply of a call that returns a status and writes to an out pointer. -/
def Reply.ofOut (result : Status × Option V) : Reply V := .value result.1 result.2

/-- The reply of a traversal. -/
def Reply.ofVisits (result : Status × List V) : Reply V := .visits result.1 result.2

/-- The reply of a call that changes the tree, if it has one. -/
def replyStatus (s : BTree V) : Option (Status × BTree V) → Option (Reply V) × BTree V
  | none => (none, s)
  | some (st, s) => (some (.status st), s)

/-- Dispatch a call. -/
def call (cfg : BTreeConfig V) (s : BTree V) : Call V → Option (Reply V) × BTree V
  | .insert elem => replyStatus s (BTree.insert cfg s elem)
  | .get key out => ((get cfg s key out).map .ofOut, s)
  | .contains key => ((contains cfg s key).map .contains, s)
  | .remove key => replyStatus s (remove cfg s key)
  | .clear =>
    match clear cfg s with
    | none => (none, s)
    | some s => (some .done, s)
  | .peekMin out => ((peekMin cfg s out).map .ofOut, s)
  | .peekMax out => ((peekMax cfg s out).map .ofOut, s)
  | .foreach visit => ((foreach cfg s .inorder visit).map .ofVisits, s)

end BTree

end Memkit
