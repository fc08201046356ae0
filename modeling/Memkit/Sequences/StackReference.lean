import Memkit.Sequences.StackGrowth

/-! # The stack and the vector of the C interface as a pile

`c_api/stack_box.hpp` and `c_api/vector_box.hpp` have the same members and do the same, so one box
stands for both. What their calls answer is what a list allows that is pushed and popped at one end
and whose room may grow. A call that needs memory or a copy is refused only if the allocator refuses
its own request, or the callback fails its own copy.

* **`StackBox.request`** — every call of `stack.h` and of `vector.h` but those that create and
  destroy.
* **`Pile`** — the elements, the room for them, and how far the requests and the copies have come.
* **`Pile.Grow`** — growth by the least doubling that is enough.
* **`Pile.Step`** — what a call may answer, and what is left after it. -/

namespace Memkit

namespace StackBox

variable {w : ℕ} {V : Type*}

/-- `full`. -/
def full (b : StackBox w) : Bool :=
  if b.core.growable then false else decide (b.core.capacity ≤ b.core.size)

/-- A call of the interface, also one that only reads. -/
inductive Request (w : ℕ) (V : Type*)
  | call (c : Call w V)
  | peekFront (out : Option V)
  | peekBack (out : Option V)
  | peekAt (index : BitVec w) (out : Option V)
  | foreach (visit : List (V × ℕ) → Status)
  | size
  | capacity
  | empty
  | full

/-- What a call answers. -/
inductive Reply (w : ℕ) (V : Type*)
  | answer (a : Answer V)
  | count (n : BitVec w)
  | flag (b : Bool)
  deriving DecidableEq

/-- Dispatch a call. -/
def request (cfg : VectorConfig w V) (s : StackBox w × VectorMemory V) :
    Request w V → Reply w V × (StackBox w × VectorMemory V)
  | .call c => (.answer (call cfg s c).1, (call cfg s c).2)
  | .peekFront out => (.answer (.ofOut (s.1.core.peekFront s.2 out)), s)
  | .peekBack out => (.answer (.ofOut (s.1.core.peekBack s.2 out)), s)
  | .peekAt index out => (.answer (.ofOut (s.1.core.peekAt s.2 index out)), s)
  | .foreach visit => (.answer (.ofVisits (s.1.core.foreach s.2 visit)), s)
  | .size => (.count s.1.core.size, s)
  | .capacity => (.count s.1.core.capacity, s)
  | .empty => (.flag (decide (s.1.core.size = 0)), s)
  | .full => (.flag s.1.full, s)

/-- The sizes asked for do not wrap, and the call does not stop in the middle of a growth into the
heap. -/
def Safe (cfg : VectorConfig w V) (s : StackBox w × VectorMemory V) : Request w V → Prop
  | .call c => Fits cfg s c ∧ KeepsTag cfg s c
  | _ => True

instance (cfg : VectorConfig w V) (s : StackBox w × VectorMemory V) :
    ∀ r, Decidable (Safe cfg s r)
  | .call _ => inferInstanceAs (Decidable (_ ∧ _))
  | .peekFront _ | .peekBack _ | .peekAt _ _ | .foreach _ => isTrue trivial
  | .size | .capacity | .empty | .full => isTrue trivial

end StackBox

/-! ## The pile -/

/-- Elements, the last of which is on top, and what decides whether memory and copies are to be
had. -/
structure Pile (V : Type*) where
  items : List V
  /-- How many elements there is room for. -/
  room : ℕ
  growable : Bool
  /-- Where the elements are. -/
  block : BlockPtr
  /-- The arena that the pile grows into; without one it grows into the heap. -/
  arena : Option ℕ
  /-- How often memory was asked for. -/
  requests : ℕ
  /-- How many copies were begun. -/
  copies : ℕ
  deriving DecidableEq, Repr

namespace Pile

open StackBox

variable {w : ℕ} {V : Type*}

/-- Not initialised, when memory was asked for `requests` times and `copies` copies were begun. -/
def blank (requests copies : ℕ) : Pile V := ⟨[], 0, false, .null, none, requests, copies⟩

/-- What is answered to the request with the number `requests`, and the number of the next. -/
def memory (cfg : VectorConfig w V) (requests : ℕ) (arena : Option ℕ) (bytes : BitVec w) :
    Except Status BlockPtr × ℕ :=
  match arena with
  | some arena => ((cfg.arenaAllocate arena requests bytes).map .arena, requests + 1)
  | none =>
    if cfg.allowHeap then
      (if cfg.grants requests bytes then .ok (.heap requests) else .error .oom, requests + 1)
    else (.error .unsupported, requests)

/-- The block that a configuration names, or that it makes the pile ask for. -/
def provide (cfg : VectorConfig w V) (requests : ℕ) (config : StackConfig w) (capacity : BitVec w) :
    Except Status BlockPtr × ℕ :=
  match config.storage with
  | some number => (.ok (.given number), requests)
  | none =>
    if config.arena = none ∧ (cfg.allowHeap && config.flags.dynamicStorage) = false then
      (.error .invalid, requests)
    else memory cfg requests config.arena (cfg.elemSize * capacity)

/-- An empty pile, if the configuration is accepted and there is a block for it. -/
def init (cfg : VectorConfig w V) (s : Pile V) (config : StackConfig w) : Status × Pile V :=
  let valid := validateElementConfig cfg.elemSize (some config.toElementConfig)
  if valid ≠ .ok then (valid, blank s.requests s.copies)
  else
    let capacity := if config.storage = none ∧ config.capacity = 0 then 1 else config.capacity
    match provide cfg s.requests config capacity with
    | (.error st, requests) => (st, blank requests s.copies)
    | (.ok block, requests) =>
      (.ok, ⟨[], capacity.toNat, config.growable, block, config.arena, requests, s.copies⟩)

/-- Copies of the elements to slots that may hold anything, the first of which has the number `n`:
they stop at one that fails. The result is the number of the next copy. -/
inductive Copies (policy : ElementPolicy V) : ℕ → List V → Status → ℕ → Prop
  | done {n : ℕ} : Copies policy n [] .ok n
  | failed {n : ℕ} {dst x : V} {xs : List V} (hst : (policy.copyConstruct n dst x).1 ≠ .ok) :
      Copies policy n (x :: xs) (policy.copyConstruct n dst x).1 (n + 1)
  | copied {n n' : ℕ} {dst x : V} {xs : List V} {st : Status}
      (hok : (policy.copyConstruct n dst x).1 = .ok) (hrest : Copies policy (n + 1) xs st n') :
      Copies policy n (x :: xs) st n'

/-- What the pile asks for to hold `required` elements. -/
noncomputable def askFor (cfg : VectorConfig w V) (s : Pile V) (required : ℕ) :
    Except Status BlockPtr × ℕ :=
  memory cfg s.requests s.arena
    (BitVec.ofNat w (grownCapacity (2 ^ w) s.room required * cfg.elemSize.toNat))

/-- The elements need no copies: a block of the heap grows by `realloc`, and an arena may answer
with the block that is there. -/
def Stays (s : Pile V) (block : BlockPtr) : Prop := s.block.isHeap = true ∨ block = s.block

/-- Growth to hold `required` elements. It fails only if there is no memory, or if an element cannot
be copied to the new block, and then the elements and the room stay. -/
inductive Grow (cfg : VectorConfig w V) (s : Pile V) (required : ℕ) : Status → Pile V → Prop
  | refused {st : Status} {requests : ℕ} (hask : s.askFor cfg required = (.error st, requests)) :
      Grow cfg s required st { s with requests := requests }
  | stopped {block : BlockPtr} {requests copies : ℕ} {st : Status}
      (hask : s.askFor cfg required = (.ok block, requests))
      (hmoves : ¬ s.Stays block) (hcopies : Copies cfg.policy s.copies s.items st copies)
      (hst : st ≠ .ok) : Grow cfg s required st { s with requests := requests, copies := copies }
  | copied {block : BlockPtr} {requests copies : ℕ}
      (hask : s.askFor cfg required = (.ok block, requests)) (hmoves : ¬ s.Stays block)
      (hcopies : Copies cfg.policy s.copies s.items .ok copies) :
      Grow cfg s required .ok
        { s with
          room := grownCapacity (2 ^ w) s.room required
          block := block
          requests := requests
          copies := copies }
  | kept {block : BlockPtr} {requests : ℕ} (hask : s.askFor cfg required = (.ok block, requests))
      (hstays : s.Stays block) :
      Grow cfg s required .ok
        { s with
          room := grownCapacity (2 ^ w) s.room required
          block := block
          requests := requests }

/-- An element goes on top of a pile that has room for it, if it can be copied. -/
inductive Add (cfg : VectorConfig w V) (s : Pile V) (elem : V) : Status → Pile V → Prop
  | added {copies : ℕ} (hcopies : Copies cfg.policy s.copies [elem] .ok copies) :
      Add cfg s elem .ok { s with items := s.items ++ [elem], copies := copies }
  | failed {st : Status} {copies : ℕ} (hcopies : Copies cfg.policy s.copies [elem] st copies)
      (hst : st ≠ .ok) : Add cfg s elem st { s with copies := copies }

/-- What a call may answer, and what is left then. -/
inductive Step (cfg : VectorConfig w V) : Pile V → Request w V → Reply w V → Pile V → Prop
  | init {s : Pile V} {config : StackConfig w} :
      Step cfg s (.call (.init config)) (.answer (.status (s.init cfg config).1))
        (s.init cfg config).2
  | deinit {s : Pile V} :
      Step cfg s (.call .deinit) (.answer .done) (blank s.requests s.copies)
  | pushNull {s : Pile V} : Step cfg s (.call (.push none)) (.answer (.status .nullPtr)) s
  | pushed {s u : Pile V} {elem : V} {st : Status} (hroom : s.items.length < s.room)
      (hadd : Add cfg s elem st u) :
      Step cfg s (.call (.push (some elem))) (.answer (.status st)) u
  | pushFull {s : Pile V} {elem : V} (hfull : s.items.length = s.room)
      (hfixed : s.growable = false) :
      Step cfg s (.call (.push (some elem))) (.answer (.status .full)) s
  | pushRefused {s u : Pile V} {elem : V} {st : Status} (hfull : s.items.length = s.room)
      (hgrow : s.growable = true) (hrefused : Grow cfg s (s.items.length + 1) st u)
      (hst : st ≠ .ok) : Step cfg s (.call (.push (some elem))) (.answer (.status st)) u
  | pushGrown {s t u : Pile V} {elem : V} {st : Status} (hfull : s.items.length = s.room)
      (hgrow : s.growable = true) (hgrown : Grow cfg s (s.items.length + 1) .ok t)
      (hadd : Add cfg t elem st u) :
      Step cfg s (.call (.push (some elem))) (.answer (.status st)) u
  | popEmpty {s : Pile V} {out : Option V} (hempty : s.items = []) :
      Step cfg s (.call (.pop out)) (.answer (.value .empty out)) s
  | dropped {s : Pile V} {xs : List V} {x : V} (hitems : s.items = xs ++ [x]) :
      Step cfg s (.call (.pop none)) (.answer (.value .ok none)) { s with items := xs }
  | popped {s : Pile V} {xs : List V} {x out : V} (hitems : s.items = xs ++ [x])
      (hok : (cfg.policy.copyConstruct s.copies out x).1 = .ok) :
      Step cfg s (.call (.pop (some out))) (.answer (.value .ok (some x)))
        { s with items := xs, copies := s.copies + 1 }
  | popFailed {s : Pile V} {xs : List V} {x out left : V} {st : Status}
      (hitems : s.items = xs ++ [x])
      (hfailed : cfg.policy.copyConstruct s.copies out x = (st, left)) (hst : st ≠ .ok) :
      Step cfg s (.call (.pop (some out))) (.answer (.value st (some left)))
        { s with copies := s.copies + 1 }
  | setNull {s : Pile V} {index : BitVec w} :
      Step cfg s (.call (.setAt index none)) (.answer (.status .nullPtr)) s
  | setInvalid {s : Pile V} {index : BitVec w} {elem : V} (hlarge : s.items.length ≤ index.toNat) :
      Step cfg s (.call (.setAt index (some elem))) (.answer (.status .invalid)) s
  | set {s : Pile V} {index : BitVec w} {x elem : V} (hx : s.items[index.toNat]? = some x)
      (hok : (cfg.policy.copyConstruct s.copies x elem).1 = .ok) :
      Step cfg s (.call (.setAt index (some elem))) (.answer (.status .ok))
        { s with items := s.items.set index.toNat elem, copies := s.copies + 1 }
  | setFailed {s : Pile V} {index : BitVec w} {x elem left : V} {st : Status}
      (hx : s.items[index.toNat]? = some x)
      (hfailed : cfg.policy.copyConstruct s.copies x elem = (st, left)) (hst : st ≠ .ok) :
      Step cfg s (.call (.setAt index (some elem))) (.answer (.status st))
        { s with items := s.items.set index.toNat left, copies := s.copies + 1 }
  | reserveEnough {s : Pile V} {minCapacity : BitVec w} (henough : minCapacity.toNat ≤ s.room) :
      Step cfg s (.call (.reserve minCapacity)) (.answer (.status .ok)) s
  | reserveFull {s : Pile V} {minCapacity : BitVec w} (hless : s.room < minCapacity.toNat)
      (hfixed : s.growable = false) :
      Step cfg s (.call (.reserve minCapacity)) (.answer (.status .full)) s
  | reserved {s u : Pile V} {minCapacity : BitVec w} {st : Status}
      (hless : s.room < minCapacity.toNat) (hgrow : s.growable = true)
      (hgrown : Grow cfg s minCapacity.toNat st u) :
      Step cfg s (.call (.reserve minCapacity)) (.answer (.status st)) u
  | clear {s : Pile V} : Step cfg s (.call .clear) (.answer .done) { s with items := [] }
  | peekNull {s : Pile V} {r : Request w V}
      (hpeek : r = .peekFront none ∨ r = .peekBack none ∨ ∃ index, r = .peekAt index none) :
      Step cfg s r (.answer (.value .nullPtr none)) s
  | peekFront {s : Pile V} {out : V} :
      Step cfg s (.peekFront (some out))
        (.answer (match s.items.head? with
          | some x => .value .ok (some x)
          | _ => .value .invalid (some out))) s
  | peekBack {s : Pile V} {out : V} :
      Step cfg s (.peekBack (some out))
        (.answer (match s.items.getLast? with
          | some x => .value .ok (some x)
          | _ => .value .empty (some out))) s
  | peekAt {s : Pile V} {index : BitVec w} {out : V} :
      Step cfg s (.peekAt index (some out))
        (.answer (match s.items[index.toNat]? with
          | some x => .value .ok (some x)
          | _ => .value .invalid (some out))) s
  | visited {s : Pile V} {visit : List (V × ℕ) → Status} :
      Step cfg s (.foreach visit) (.answer (.ofVisits (visitLoop visit [] s.items.zipIdx))) s
  | size {s : Pile V} {n : BitVec w} (hn : n.toNat = s.items.length) :
      Step cfg s .size (.count n) s
  | capacity {s : Pile V} {n : BitVec w} (hn : n.toNat = s.room) :
      Step cfg s .capacity (.count n) s
  | empty {s : Pile V} : Step cfg s .empty (.flag s.items.isEmpty) s
  | full {s : Pile V} :
      Step cfg s .full (.flag (!s.growable && decide (s.items.length = s.room))) s

/-! ### Growth of a pile -/

variable {cfg : VectorConfig w V} {s u : Pile V} {required requests n : ℕ} {st : Status}

/-- A request that is refused is not answered with ok. -/
theorem memory_error {arena : Option ℕ} {bytes : BitVec w}
    (h : memory cfg requests arena bytes = (.error st, n)) : st ≠ .ok := by
  unfold memory at h
  cases arena with
  | some arena =>
    dsimp only at h
    cases hanswer : cfg.arenaAllocate arena requests bytes with
    | error answer =>
      rw [hanswer] at h
      cases h
      exact cfg.arena_refuses _ _ _ _ hanswer
    | ok number =>
      rw [hanswer] at h
      cases h
  | none =>
    dsimp only at h
    split at h
    · split at h
      · cases h
      · cases h
        rintro ⟨⟩
    · cases h
      rintro ⟨⟩

/-- Growth leaves the elements, and the room if it fails. -/
theorem Grow.leaves (h : Grow cfg s required st u) :
    u.items = s.items ∧ u.growable = s.growable ∧ u.arena = s.arena ∧
      u.room = if st = .ok then grownCapacity (2 ^ w) s.room required else s.room := by
  cases h with
  | refused hask =>
    have hst : st ≠ .ok := memory_error hask
    exact ⟨rfl, rfl, rfl, (if_neg hst).symm⟩
  | stopped hask hmoves hcopies hst => exact ⟨rfl, rfl, rfl, (if_neg hst).symm⟩
  | copied hask hmoves hcopies => exact ⟨rfl, rfl, rfl, rfl⟩
  | kept hask hstays => exact ⟨rfl, rfl, rfl, rfl⟩

end Pile

end Memkit
