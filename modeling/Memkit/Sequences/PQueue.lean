import Memkit.Core.Answer
import Memkit.Core.ElementCells
import Memkit.Foundations.Transition

/-! # The priority queue

`detail/pqueue_core.hpp`: a binary heap in an array of slots. The core is a template over the element
policy; `typed` says that it is `typed_element_policy` of a trivially copyable type, whose copies
and moves are `memcpy`, and not `runtime_element_policy`. The two differ in `swap_elements` only.
`size_` is at most `capacity_`, which is the number of elements of a real block, so it is a natural
here; the index computations of `sift_down` are reduced modulo the word size. -/

namespace Memkit

variable {w : ℕ} {V : Type*}

/-- The members of `pqueue_core` that no operation changes. -/
structure PQueueConfig (w : ℕ) (V : Type*) where
  /-- `policy_`. -/
  policy : ElementPolicy V
  /-- `policy_.needs_destroy_on_clear()`. -/
  needsDestroy : Bool
  /-- Whether `Policy` is `typed_element_policy` of a trivially copyable type. -/
  typed : Bool
  /-- `policy_.elem_size()`. -/
  elemSize : ℕ
  /-- `less_than`. -/
  lessThan : V → V → Bool
  /-- `capacity_`. -/
  capacity : ℕ
  /-- Whether `queue_policy_` has the `growable` bit. -/
  growable : Bool
  /-- What the uninitialised `temp` of `swap_elements` holds. -/
  scratch : V
  /-- A block of memory has at most `PTRDIFF_MAX` bytes. -/
  capacity_lt : capacity < 2 ^ (w - 1)

/-- The members of `pqueue_core` that the operations change, and the elements. -/
structure PQueue (V : Type*) where
  /-- `size_`. -/
  size : ℕ
  cells : Cells ℕ V

namespace PQueue

/-- `full`. -/
def full (cfg : PQueueConfig w V) (s : PQueue V) : Bool :=
  if cfg.growable then false else decide (cfg.capacity ≤ s.size)

/-- `swap_elements`. -/
def swapElements (cfg : PQueueConfig w V) (s : PQueue V) (left right : ℕ) : Status × PQueue V :=
  if cfg.typed then
    let temp := s.cells.contents left
    let cells := s.cells.write left (s.cells.contents right)
    (.ok, { s with cells := cells.write right temp })
  else if 256 < cfg.elemSize then (.invalid, s)
  else
    let ((toTemp, temp), cells) := s.cells.copyOut cfg.policy left cfg.scratch
    if toTemp ≠ .ok then (toTemp, { s with cells := cells })
    else
      let (toLeft, cells) := cells.copyConstruct cfg.policy left (cells.contents right)
      if toLeft ≠ .ok then (toLeft, { s with cells := cells })
      else
        let (toRight, cells) := cells.copyConstruct cfg.policy right temp
        (toRight, { s with cells := cells })

/-- The loop of `sift_up`, for at most `rounds` rounds; it ends within `index` rounds. -/
def siftUpLoop (cfg : PQueueConfig w V) : ℕ → PQueue V → ℕ → Status × PQueue V
  | 0, s, _ => (.ok, s)
  | rounds + 1, s, index =>
    if index = 0 then (.ok, s)
    else
      let parent := (index - 1) / 2
      if cfg.lessThan (s.cells.contents index) (s.cells.contents parent) = false then (.ok, s)
      else
        let (swapSt, s) := swapElements cfg s index parent
        if swapSt ≠ .ok then (swapSt, s) else siftUpLoop cfg rounds s parent

/-- `sift_up`. -/
def siftUp (cfg : PQueueConfig w V) (s : PQueue V) (index : ℕ) : Status × PQueue V :=
  siftUpLoop cfg index s index

/-- The node that `sift_down` finds smallest among a node and its children. -/
def smallest (cfg : PQueueConfig w V) (s : PQueue V) (index : ℕ) : ℕ :=
  let left := (index * 2 + 1) % 2 ^ w
  let right := (left + 1) % 2 ^ w
  let smallest :=
    if left < s.size ∧ cfg.lessThan (s.cells.contents left) (s.cells.contents index) then left
    else index
  if right < s.size ∧ cfg.lessThan (s.cells.contents right) (s.cells.contents smallest) then right
  else smallest

/-- The loop of `sift_down`, for at most `rounds` rounds; it ends within `size_ - index` rounds. -/
def siftDownLoop (cfg : PQueueConfig w V) : ℕ → PQueue V → ℕ → Status × PQueue V
  | 0, s, _ => (.ok, s)
  | rounds + 1, s, index =>
    let smallest := smallest cfg s index
    if smallest = index then (.ok, s)
    else
      let (swapSt, s) := swapElements cfg s index smallest
      if swapSt ≠ .ok then (swapSt, s) else siftDownLoop cfg rounds s smallest

/-- `sift_down`. -/
def siftDown (cfg : PQueueConfig w V) (s : PQueue V) (index : ℕ) : Status × PQueue V :=
  siftDownLoop cfg (s.size - index) s index

/-- `push`; `none` is a null pointer. -/
def push (cfg : PQueueConfig w V) (s : PQueue V) (value : Option V) : Status × PQueue V :=
  match value with
  | none => (.nullPtr, s)
  | some value =>
    if full cfg s then (.full, s)
    else
      let (copySt, cells) := s.cells.copyConstruct cfg.policy s.size value
      let s := { s with cells := cells }
      if copySt ≠ .ok then (copySt, s)
      else
        let s := { s with size := s.size + 1 }
        siftUp cfg s (s.size - 1)

/-- What `pop` does with the root: copy it to `out`, or destroy it if `out` is null. -/
def takeRoot (cfg : PQueueConfig w V) (s : PQueue V) (out : Option V) :
    (Status × Option V) × PQueue V :=
  match out with
  | some out =>
    let ((copySt, out), cells) := s.cells.copyOut cfg.policy 0 out
    ((copySt, some out), { s with cells := cells })
  | none =>
    if cfg.needsDestroy then ((.ok, none), { s with cells := s.cells.destroy cfg.policy 0 })
    else ((.ok, none), s)

/-- `pop`; `out` is what it points to. -/
def pop (cfg : PQueueConfig w V) (s : PQueue V) (out : Option V) :
    (Status × Option V) × PQueue V :=
  if s.size = 0 then ((.empty, out), s)
  else
    let ((copySt, out), s) := takeRoot cfg s out
    if copySt ≠ .ok then ((copySt, out), s)
    else
      let s := { s with size := s.size - 1 }
      if s.size = 0 then ((.ok, out), s)
      else
        let lastIndex := s.size
        let (moveSt, cells) := s.cells.copyConstruct cfg.policy 0 (s.cells.contents lastIndex)
        let s := { s with cells := cells }
        if moveSt ≠ .ok then ((moveSt, out), { s with size := s.size + 1 })
        else
          let s :=
            if cfg.needsDestroy then { s with cells := s.cells.destroy cfg.policy lastIndex } else s
          let (siftSt, s) := siftDown cfg s 0
          ((siftSt, out), s)

/-- `peek`. -/
def peek (s : PQueue V) (out : Option V) : Status × Option V :=
  match out with
  | none => (.nullPtr, none)
  | some out => if s.size = 0 then (.empty, some out) else (.ok, some (s.cells.contents 0))

/-- The loop of `clear`. -/
def destroyAll (cfg : PQueueConfig w V) (s : PQueue V) : PQueue V :=
  { s with cells := (List.range s.size).foldl (fun c i => c.destroy cfg.policy i) s.cells }

/-- `clear`. -/
def clear (cfg : PQueueConfig w V) (s : PQueue V) : PQueue V :=
  let s := if cfg.needsDestroy then destroyAll cfg s else s
  { s with size := 0 }

/-- The queue after `init` over storage with any contents. -/
def init (memory : ℕ → V) : PQueue V := ⟨0, .start memory⟩

/-- A call of the interface. -/
inductive Call (V : Type*)
  | push (value : Option V)
  | pop (out : Option V)
  | peek (out : Option V)
  | clear
  deriving DecidableEq, Repr

/-- Dispatch a call. -/
def call (cfg : PQueueConfig w V) (s : PQueue V) : Call V → Answer V × PQueue V
  | .push value =>
    let (st, s) := push cfg s value
    (.status st, s)
  | .pop out =>
    let (result, s) := pop cfg s out
    (.ofOut result, s)
  | .peek out => (.ofOut (peek s out), s)
  | .clear => (.done, clear cfg s)

end PQueue

end Memkit
