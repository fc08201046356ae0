import Memkit.Sequences.RingBuffer

/-! # The reference deque

What a ring buffer is for: a sequence that grows and shrinks at both ends, with room for a bounded
number of elements. When there is no room it grows by the least doubling that is enough, gives up
the element at the other end, or refuses, as its flags say. -/

namespace Memkit

variable {w : ℕ} {V : Type*}

/-- The elements in order, the room, and the allocations requested so far. -/
structure Deque (V : Type*) where
  items : List V
  room : ℕ
  allocs : ℕ

namespace Deque

/-- Grow to hold `required` elements; if the allocation fails the elements and the room stay. -/
noncomputable def grow (cfg : RingConfig w V) (d : Deque V) (required : ℕ) : Status × Deque V :=
  let room := grownCapacity (2 ^ w) d.room required
  let st := cfg.allocate d.allocs (BitVec.ofNat w (room * cfg.elemSize.toNat))
  let d := { d with allocs := d.allocs + 1 }
  if st ≠ .ok then (st, d) else (.ok, { d with room := room })

/-- Make room for one more element; `rest` are the elements without the one to overwrite. -/
noncomputable def makeRoom (cfg : RingConfig w V) (d : Deque V) (overwrite : Bool)
    (rest : List V) : Status × Deque V :=
  if d.items.length < d.room then (.ok, d)
  else if cfg.growable then grow cfg d (d.items.length + 1)
  else if overwrite then (.ok, { d with items := rest })
  else (.full, d)

/-- Add an element at the end. -/
noncomputable def pushBack (cfg : RingConfig w V) (d : Deque V) (elem : Option V)
    (allowOverwrite : Bool) : Status × Deque V :=
  match elem with
  | none => (.nullPtr, d)
  | some elem =>
    let (st, d) := makeRoom cfg d (allowOverwrite || cfg.overwriteOnFull) d.items.tail
    if st ≠ .ok then (st, d) else (.ok, { d with items := d.items ++ [elem] })

/-- Add an element at the start. -/
noncomputable def pushFront (cfg : RingConfig w V) (d : Deque V) (elem : Option V) :
    Status × Deque V :=
  match elem with
  | none => (.nullPtr, d)
  | some elem =>
    let (st, d) := makeRoom cfg d cfg.overwriteOnFull d.items.dropLast
    if st ≠ .ok then (st, d) else (.ok, { d with items := elem :: d.items })

/-- Report an element that is there or not; `missing` is the status if it is not. -/
def report (elem : Option V) (missing : Status) (out : Option V) : Status × Option V :=
  match elem with
  | none => (missing, out)
  | some elem => (.ok, out.map fun _ => elem)

/-- Report an element to a pointer that must not be null. -/
def peek (elem : Option V) (missing : Status) (out : Option V) : Status × Option V :=
  if out.isNone then (.nullPtr, none) else report elem missing out

/-- Overwrite the element at an index. -/
def setAt (d : Deque V) (index : ℕ) (elem : Option V) : Status × Deque V :=
  match elem with
  | none => (.nullPtr, d)
  | some elem =>
    if d.items.length ≤ index then (.invalid, d)
    else (.ok, { d with items := d.items.set index elem })

/-- Grow to hold `required` elements, if there is no room for as many. -/
noncomputable def reserve (cfg : RingConfig w V) (d : Deque V) (required : ℕ) : Status × Deque V :=
  if required ≤ d.room then (.ok, d)
  else if cfg.growable = false then (.full, d)
  else grow cfg d required

/-- Dispatch a call. -/
noncomputable def call (cfg : RingConfig w V) (d : Deque V) :
    RingBuffer.Call w V → Answer V × Deque V
  | .pushBack elem allowOverwrite =>
    (.status (pushBack cfg d elem allowOverwrite).1, (pushBack cfg d elem allowOverwrite).2)
  | .pushFront elem => (.status (pushFront cfg d elem).1, (pushFront cfg d elem).2)
  | .popFront out =>
    (.ofOut (report d.items.head? .empty out), { d with items := d.items.tail })
  | .popBack out =>
    (.ofOut (report d.items.getLast? .empty out), { d with items := d.items.dropLast })
  | .peekFront out => (.ofOut (peek d.items.head? .empty out), d)
  | .peekBack out => (.ofOut (peek d.items.getLast? .empty out), d)
  | .peekAt index out => (.ofOut (peek d.items[index.toNat]? .invalid out), d)
  | .setAt index elem => (.status (setAt d index.toNat elem).1, (setAt d index.toNat elem).2)
  | .reserve minCapacity =>
    (.status (reserve cfg d minCapacity.toNat).1, (reserve cfg d minCapacity.toNat).2)
  | .clear => (.done, { d with items := [] })
  | .foreach visit => (.ofVisits (visitLoop visit [] d.items.zipIdx), d)
  | .commitRead elemCount => (.done, { d with items := d.items.drop elemCount.toNat })

end Deque

end Memkit
