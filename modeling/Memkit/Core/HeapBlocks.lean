import Memkit.Core.Status
import Memkit.Foundations.ObjectLedger

/-! # The blocks of memory of a box

The boxes of `c_api` keep their storage in a few areas. The block of an area is provided by the
caller, or `alloc_raw` obtains it from an arena or from the heap. A ledger records the heap: it
holds the blocks that `std::malloc` returned and that were not freed, so that freeing another block
is a fault, whether it is free already, of the caller or of an arena.

* **`BoxFlags`** — the bits that say what a box owns.
* **`Allocators`** — `alloc_raw` and `release_owned_block`, which every box writes alike. -/

namespace Memkit

/-- The block of an area. -/
inductive Block (α : Type*)
  /-- What the configuration provides. -/
  | given (area : α)
  /-- What `alloc_raw` returned. -/
  | obtained (area : α)
  deriving DecidableEq, Repr

/-- The bits about storage in the flags of a configuration and in `c_flags_`. -/
structure BoxFlags where
  /-- `OWNS_STORAGE`. -/
  ownsStorage : Bool
  /-- `OWNS_META`. -/
  ownsMeta : Bool
  /-- `DYNAMIC_STORAGE`. -/
  dynamicStorage : Bool
  /-- `ARENA_STORAGE`. -/
  arenaStorage : Bool
  deriving DecidableEq, Repr

namespace BoxFlags

/-- `config->flags` without the bits about storage: how every `init` starts `c_flags_`. -/
def cleared : BoxFlags := ⟨false, false, false, false⟩

/-- `wants_owned_storage`. -/
def wantsOwnedStorage (flags : BoxFlags) : Bool :=
  flags.ownsStorage || flags.dynamicStorage || flags.arenaStorage

end BoxFlags

/-- What the boxes are built with and what the allocators answer. -/
structure Allocators (w : ℕ) (α : Type*) where
  /-- `MEMKIT_ALLOW_HEAP`. -/
  allowHeap : Bool
  /-- The status of `arena_alloc` for the block of an area. -/
  arenaAlloc : α → BitVec w → Status
  /-- Whether `std::malloc` returns a block for an area. -/
  malloc : α → BitVec w → Bool

namespace Allocators

variable {w : ℕ} {α : Type*} [DecidableEq α] {env : Allocators w α} {heap heap' : Ledger (Block α)}
  {arena : Bool} {area : α} {bytes : BitVec w}

/-- `alloc_raw`; `arena` says that the configuration has an arena. -/
def allocRaw (env : Allocators w α) (arena : Bool) (area : α) (bytes : BitVec w)
    (heap : Ledger (Block α)) : Except Status (Block α) × Ledger (Block α) :=
  if arena then
    let status := env.arenaAlloc area bytes
    if status ≠ .ok then (.error (if status = .oom then .oom else .invalid), heap)
    else (.ok (.obtained area), heap)
  else if env.allowHeap then
    if env.malloc area bytes then (.ok (.obtained area), heap.construct (.obtained area) true)
    else (.error .oom, heap)
  else (.error .oom, heap)

/-- The block of an area: the caller's if it is provided, else from `alloc_raw`. -/
def provide (env : Allocators w α) (given arena : Bool) (area : α) (bytes : BitVec w)
    (heap : Ledger (Block α)) : Except Status (Block α) × Ledger (Block α) :=
  if given then (.ok (.given area), heap) else env.allocRaw arena area bytes heap

/-- `release_owned_block`; `dynamic` is the bit `DYNAMIC_STORAGE` of `c_flags_`. -/
def releaseOwnedBlock (env : Allocators w α) (dynamic : Bool) (ptr : Option (Block α))
    (heap : Ledger (Block α)) : Ledger (Block α) :=
  match ptr with
  | none => heap
  | some block => if env.allowHeap && dynamic then heap.destroy block else heap

/-- A refusal has a status that is not ok. -/
theorem provide_error {given : Bool} {st : Status}
    (h : env.provide given arena area bytes heap = (.error st, heap')) : st ≠ .ok := by
  unfold provide allocRaw at h
  dsimp only at h
  repeat' split at h
  all_goals cases h
  all_goals decide

omit [DecidableEq α] in
/-- Whether an area has a block: it is provided, or its allocator answers with one. -/
def grants (env : Allocators w α) (given arena : Bool) (area : α) (bytes : BitVec w) : Bool :=
  given || if arena then env.arenaAlloc area bytes == .ok else env.allowHeap && env.malloc area bytes

/-- A refusal leaves the heap alone. -/
theorem provide_refused {given : Bool} {st : Status}
    (h : env.provide given arena area bytes heap = (.error st, heap')) :
    heap' = heap ∧ env.grants given arena area bytes = false := by
  unfold provide allocRaw at h
  unfold grants
  dsimp only at h
  repeat' split at h
  all_goals cases h
  all_goals simp_all

/-- A block was granted. -/
theorem grants_of_provide {given : Bool} {block : Block α}
    (h : env.provide given arena area bytes heap = (.ok block, heap')) :
    env.grants given arena area bytes = true := by
  unfold provide allocRaw at h
  unfold grants
  dsimp only at h
  repeat' split at h
  all_goals cases h
  all_goals simp_all

/-- The block that `provide` comes up with. -/
def blockOf (given : Bool) (area : α) : Block α := if given then .given area else .obtained area

/-- The block is one of the heap. -/
def ofHeap (given arena : Bool) (area : α) : List (Block α) :=
  if given || arena then [] else [.obtained area]

omit [DecidableEq α] in
theorem of_ofHeap_ne_nil {given : Bool} (h : ofHeap given arena area ≠ []) :
    given = false ∧ arena = false := by
  unfold ofHeap at h
  split at h
  · exact absurd rfl h
  · next hnot => simpa using hnot

omit [DecidableEq α] in
/-- A block for another purpose is not that block. -/
theorem notMem_ofHeap {given : Bool} {other : α} (hne : other ≠ area) :
    .obtained other ∉ ofHeap given arena area ++ [] := by
  rw [ofHeap]
  split
  · simp
  · simpa using hne

/-- A block that was provided: the heap holds it too, if it is one of the heap. -/
theorem provide_ok {given : Bool} {block : Block α} {blocks : List (Block α)}
    (h : env.provide given arena area bytes heap = (.ok block, heap'))
    (hheap : heap.Holds {b | b ∈ blocks}) (hfresh : .obtained area ∉ blocks) :
    block = blockOf given area ∧ heap'.Holds {b | b ∈ ofHeap given arena area ++ blocks} ∧
      (given = false → arena = false → env.allowHeap = true) := by
  unfold provide at h
  cases given with
  | true =>
    cases h
    exact ⟨rfl, hheap, nofun⟩
  | false =>
    rw [if_neg Bool.false_ne_true] at h
    unfold allocRaw at h
    dsimp only at h
    cases arena with
    | true =>
      rw [if_pos rfl] at h
      split at h
      · cases h
      · cases h
        exact ⟨rfl, hheap, nofun⟩
    | false =>
      rw [if_neg Bool.false_ne_true] at h
      split at h
      · next hallow =>
        split at h
        · cases h
          exact ⟨rfl, hheap.construct_perm (List.Perm.refl _) hfresh, fun _ _ => hallow⟩
        · cases h
      · cases h

end Allocators

end Memkit
