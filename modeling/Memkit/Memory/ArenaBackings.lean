import Memkit.Foundations.ObjectLedger
import Memkit.Foundations.WrapCounter
import Memkit.Memory.Arena

/-! # Where arenas have their memory

`arena_init`, `arena_create`, `arena_deinit` and `arena_destroy` of `src/arena.cpp`, with
`mmap_storage::map` of `src/mmap_backing.cpp`: many arenas, over memory of the user, of the heap and
of mappings. An arena that is created is itself a block of the heap.

* **`ArenaPlatform`** — what the heap and the system answer, and where the memory lies.
* **`ArenaSystem`** — the arenas, a ledger of what has to be given back, and the blocks handed out.
* **`ArenaSystem.Proper`** — calls on arenas that exist, over memory that is not in use.
* **`acquireBacking_cases`** — a backing is one resource, at least as large as asked for. -/

namespace Memkit

variable {w : ℕ}

/-- A pointer to memory. -/
inductive MemoryPtr
  | null
  /-- Memory of the user. -/
  | given (number : ℕ)
  /-- What `std::malloc` returned to the request with this number. -/
  | heap (request : ℕ)
  /-- What `mmap` returned to the request with this number. -/
  | mapping (request : ℕ)
  deriving DecidableEq, Repr

/-- What has to be given back: a block to `std::free`, a mapping to `munmap` with its length. -/
inductive Resource (w : ℕ)
  | block (ptr : MemoryPtr)
  | mapping (ptr : MemoryPtr) (bytes : BitVec w)
  deriving DecidableEq, Repr

/-- `arena_backing_t`, where `other` stands for all values but two. -/
inductive ArenaBacking
  | heap
  | mmap
  | other
  deriving DecidableEq, Repr

/-- The bits of `flags`. -/
structure ArenaFlags where
  ownsBacking : Bool
  dynamicBacking : Bool
  mmapBacking : Bool
  deriving DecidableEq, Repr

/-- `arena_config_t`. -/
structure ArenaConfig (w : ℕ) where
  backing : MemoryPtr
  backingBytes : BitVec w
  flags : ArenaFlags
  deriving DecidableEq, Repr

/-- `arena_t`. -/
structure ArenaObject (w : ℕ) where
  base : MemoryPtr
  capacityBytes : BitVec w
  offsetBytes : BitVec w
  allocationCount : BitVec w
  flags : ArenaFlags
  deriving DecidableEq, Repr

/-- The configuration of the library and what the system answers. -/
structure ArenaPlatform (w : ℕ) where
  /-- `MEMKIT_ALLOW_HEAP`. -/
  allowHeap : Bool
  /-- `MEMKIT_ALLOW_MMAP`. -/
  allowMmap : Bool
  /-- `MEMKIT_DEFAULT_ARENA_BACKING`. -/
  defaultBacking : ArenaBacking
  /-- `sizeof(arena_t)`. -/
  arenaBytes : BitVec w
  /-- What `sysconf` answers for the size of a page, or 0 if that is not positive. -/
  pageSize : BitVec w
  /-- Whether the heap grants the `n`-th request, which is for this many bytes. -/
  grants : ℕ → BitVec w → Bool
  /-- Whether the system maps as many bytes at the `n`-th request. -/
  maps : ℕ → BitVec w → Bool
  addr : MemoryPtr → BitVec w
  /-- A mapping of no bytes is refused. -/
  maps_zero : ∀ n, maps n 0 = false
  addr_eq_zero : ∀ ptr, addr ptr = 0 ↔ ptr = .null

namespace ArenaObject

/-- `arena_t{}`. -/
def zeroed : ArenaObject w := ⟨.null, 0, 0, 0, ⟨false, false, false⟩⟩

/-- What `arena_release_backing` gives back. -/
def owned (cfg : ArenaPlatform w) (a : ArenaObject w) : Option (Resource w) :=
  if a.flags.ownsBacking = false ∨ a.base = .null then none
  else if cfg.allowMmap && a.flags.mmapBacking then some (.mapping a.base a.capacityBytes)
  else if cfg.allowHeap && a.flags.dynamicBacking then some (.block a.base)
  else none

/-- The memory of the arena. -/
def extent (cfg : ArenaPlatform w) (a : ArenaObject w) : ArenaBlock w :=
  ⟨cfg.addr a.base, a.capacityBytes, 1⟩

end ArenaObject

instance (b c : ArenaBlock w) : Decidable (b.Disjoint c) := inferInstanceAs (Decidable (_ ∨ _))

/-- The arenas by their addresses, and the memory. -/
structure ArenaSystem (w : ℕ) where
  arenas : MemoryPtr → ArenaObject w
  memory : BitVec w → BitVec 8
  /-- What was obtained and has to be given back. -/
  resources : Ledger (Resource w)
  /-- Requests to the heap and the system so far. -/
  requests : ℕ
  /-- The arenas that were created and not destroyed. -/
  created : List MemoryPtr
  /-- The arenas that were initialised or created at any time. -/
  known : List MemoryPtr
  /-- The blocks that an arena handed out since it was last reset. -/
  blocks : MemoryPtr → List (ArenaBlock w)

namespace ArenaSystem

/-- Memory with any contents and no arenas. -/
def start (memory : BitVec w → BitVec 8) : ArenaSystem w :=
  ⟨fun _ => .zeroed, memory, .empty _, 0, [], [], fun _ => []⟩

/-- `std::malloc`. -/
def malloc (cfg : ArenaPlatform w) (s : ArenaSystem w) (bytes : BitVec w) :
    MemoryPtr × ArenaSystem w :=
  if cfg.grants s.requests bytes then
    (.heap s.requests,
      { s with
        resources := s.resources.construct (.block (.heap s.requests)) true
        requests := s.requests + 1 })
  else (.null, { s with requests := s.requests + 1 })

/-- `std::free`. -/
def free (s : ArenaSystem w) (ptr : MemoryPtr) : ArenaSystem w :=
  { s with resources := s.resources.destroy (.block ptr) }

/-- `munmap`. -/
def munmap (s : ArenaSystem w) (ptr : MemoryPtr) (bytes : BitVec w) : ArenaSystem w :=
  { s with resources := s.resources.destroy (.mapping ptr bytes) }

/-- `mmap_storage::map`, whose result is detached at once: the address and the length. -/
def map (cfg : ArenaPlatform w) (s : ArenaSystem w) (bytes : BitVec w) :
    (MemoryPtr × BitVec w) × ArenaSystem w :=
  if bytes = 0 then ((.null, 0), s)
  else if cfg.pageSize = 0 then ((.null, 0), s)
  else
    let mappedBytes := (bytes + cfg.pageSize - 1) / cfg.pageSize * cfg.pageSize
    if cfg.maps s.requests mappedBytes then
      ((.mapping s.requests, mappedBytes),
        { s with
          resources := s.resources.construct (.mapping (.mapping s.requests) mappedBytes) true
          requests := s.requests + 1 })
    else ((.null, 0), { s with requests := s.requests + 1 })

/-- `arena_acquire_backing`. -/
def acquireBacking (cfg : ArenaPlatform w) (s : ArenaSystem w) (a : ArenaObject w)
    (backingBytes : BitVec w) (backing : ArenaBacking) :
    (ArenaStatus × ArenaObject w) × ArenaSystem w :=
  if cfg.allowMmap ∧ backing = .mmap then
    let ((ptr, mappedBytes), s) := map cfg s backingBytes
    if ptr = .null then ((.oom, a), s)
    else
      ((.ok,
        { a with
          base := ptr
          capacityBytes := mappedBytes
          flags := { a.flags with ownsBacking := true, mmapBacking := true } }), s)
  else if cfg.allowHeap ∧ backing = .heap then
    let (ptr, s) := malloc cfg s backingBytes
    if ptr = .null then ((.oom, a), s)
    else
      ((.ok,
        { a with
          base := ptr
          capacityBytes := backingBytes
          flags := { a.flags with ownsBacking := true, dynamicBacking := true } }), s)
  else ((.unsupported, a), s)

/-- `arena_create_impl`: the status and what it stores in `*out_arena`; `out` says whether
`out_arena` is not null. -/
def createImpl (cfg : ArenaPlatform w) (s : ArenaSystem w) (backingBytes : BitVec w)
    (backing : ArenaBacking) (out : Bool) : (ArenaStatus × Option MemoryPtr) × ArenaSystem w :=
  if out = false then ((.null, none), s)
  else if backingBytes = 0 then ((.invalid, none), s)
  else if cfg.allowHeap || cfg.allowMmap then
    let (arena, s) := malloc cfg s cfg.arenaBytes
    if arena = .null then ((.oom, none), s)
    else
      let ((status, a), s) := acquireBacking cfg s .zeroed backingBytes backing
      if status ≠ .ok then ((status, none), s.free arena)
      else
        ((.ok, some arena),
          { s with
            arenas := Function.update s.arenas arena a
            created := arena :: s.created
            known := arena :: s.known })
  else ((.unsupported, none), s)

/-- `arena_create_with_backing`. -/
def createWithBacking (cfg : ArenaPlatform w) (s : ArenaSystem w) (backingBytes : BitVec w)
    (backing : ArenaBacking) (out : Bool) : (ArenaStatus × Option MemoryPtr) × ArenaSystem w :=
  if cfg.allowMmap = false ∧ backing = .mmap then ((.unsupported, none), s)
  else if cfg.allowHeap = false ∧ backing = .heap then ((.unsupported, none), s)
  else createImpl cfg s backingBytes backing out

/-- `arena_create`. -/
def create (cfg : ArenaPlatform w) (s : ArenaSystem w) (backingBytes : BitVec w) (out : Bool) :
    (ArenaStatus × Option MemoryPtr) × ArenaSystem w :=
  createWithBacking cfg s backingBytes cfg.defaultBacking out

/-- The members of the arena at an address are read or written. -/
def touch (s : ArenaSystem w) (x : MemoryPtr) : ArenaSystem w :=
  match x with
  | .heap _ => { s with resources := s.resources.access (.block x) }
  | _ => s

/-- `arena_init`. -/
def init (s : ArenaSystem w) (x : MemoryPtr) (config : Option (ArenaConfig w)) :
    ArenaStatus × ArenaSystem w :=
  match config with
  | none => (.null, s)
  | some config =>
    if config.backing = .null ∨ config.backingBytes = 0 then (.invalid, s)
    else if x = .null then (.null, s)
    else
      (.ok,
        { s.touch x with
          arenas := Function.update s.arenas x
            ⟨config.backing, config.backingBytes, 0, 0, config.flags⟩
          known := x :: s.known
          blocks := Function.update s.blocks x [] })

/-- `arena_release_backing`. -/
def releaseBacking (cfg : ArenaPlatform w) (s : ArenaSystem w) (a : ArenaObject w) :
    ArenaSystem w :=
  if a.flags.ownsBacking = false ∨ a.base = .null then s
  else if cfg.allowMmap && a.flags.mmapBacking then s.munmap a.base a.capacityBytes
  else if cfg.allowHeap && a.flags.dynamicBacking then s.free a.base
  else s

/-- `arena_deinit`. -/
def deinit (cfg : ArenaPlatform w) (s : ArenaSystem w) (x : MemoryPtr) : ArenaSystem w :=
  if x = .null then s
  else
    { releaseBacking cfg (s.touch x) (s.arenas x) with
      arenas := Function.update s.arenas x .zeroed
      blocks := Function.update s.blocks x [] }

/-- `arena_destroy`. -/
def destroy (cfg : ArenaPlatform w) (s : ArenaSystem w) (x : MemoryPtr) : ArenaSystem w :=
  if x = .null then s
  else
    let s := deinit cfg s x
    { (if cfg.allowHeap || cfg.allowMmap then s.free x else s) with created := s.created.erase x }

/-- An arena with the blocks that it handed out. -/
def history (cfg : ArenaPlatform w) (s : ArenaSystem w) (x : MemoryPtr) : ArenaHistory w where
  arena :=
    { base := cfg.addr (s.arenas x).base
      capacity := (s.arenas x).capacityBytes
      offset := (s.arenas x).offsetBytes
      count := (s.arenas x).allocationCount
      memory := s.memory }
  blocks := s.blocks x

/-- `arena_alloc`, `arena_calloc`, `arena_reset` or a write of the user. -/
def use (cfg : ArenaPlatform w) (s : ArenaSystem w) (x : MemoryPtr) (c : ArenaHistory.Call w) :
    ArenaHistory.Reply w × ArenaSystem w :=
  let (reply, h) := (s.history cfg x).step c
  (reply,
    { s.touch x with
      arenas := Function.update s.arenas x
        { s.arenas x with offsetBytes := h.arena.offset, allocationCount := h.arena.count }
      memory := h.arena.memory
      blocks := Function.update s.blocks x h.blocks })

/-- A call of the interface. -/
inductive Call (w : ℕ)
  | create (backingBytes : BitVec w) (out : Bool)
  | createWithBacking (backingBytes : BitVec w) (backing : ArenaBacking) (out : Bool)
  | init (x : MemoryPtr) (config : Option (ArenaConfig w))
  | deinit (x : MemoryPtr)
  | destroy (x : MemoryPtr)
  | use (x : MemoryPtr) (c : ArenaHistory.Call w)
  deriving DecidableEq, Repr

/-- What a call answers. -/
inductive Reply (w : ℕ)
  | created (status : ArenaStatus) (arena : Option MemoryPtr)
  | status (result : ArenaStatus)
  | used (reply : ArenaHistory.Reply w)
  | done
  deriving DecidableEq, Repr

/-- Dispatch a call. -/
def call (cfg : ArenaPlatform w) (s : ArenaSystem w) : Call w → Reply w × ArenaSystem w
  | .create backingBytes out =>
    let ((status, arena), s) := create cfg s backingBytes out
    (.created status arena, s)
  | .createWithBacking backingBytes backing out =>
    let ((status, arena), s) := createWithBacking cfg s backingBytes backing out
    (.created status arena, s)
  | .init x config =>
    let (status, s) := init s x config
    (.status status, s)
  | .deinit x => (.done, deinit cfg s x)
  | .destroy x => (.done, destroy cfg s x)
  | .use x c =>
    let (reply, s) := use cfg s x c
    (.used reply, s)

/-! ## Proper calls -/

/-- An arena that can be used: one of the user, or one that was created and not destroyed. -/
def Usable (s : ArenaSystem w) (x : MemoryPtr) : Prop :=
  match x with
  | .null | .given _ => True
  | .heap _ => x ∈ s.created
  | .mapping _ => False

instance (s : ArenaSystem w) : ∀ x, Decidable (s.Usable x)
  | .null | .given _ => isTrue trivial
  | .heap n => inferInstanceAs (Decidable (.heap n ∈ s.created))
  | .mapping _ => isFalse id

/-- The memory of the arena does not wrap, and is not that of another arena. -/
def Separate (cfg : ArenaPlatform w) (s : ArenaSystem w) (x : MemoryPtr) : Prop :=
  (cfg.addr (s.arenas x).base).toNat + (s.arenas x).capacityBytes.toNat ≤ 2 ^ w ∧
    ∀ y ∈ s.known, y ≠ x → (s.arenas y).base ≠ .null →
      ((s.arenas x).extent cfg).Disjoint ((s.arenas y).extent cfg)

instance (cfg : ArenaPlatform w) (s : ArenaSystem w) (x : MemoryPtr) :
    Decidable (Separate cfg s x) :=
  inferInstanceAs (Decidable (_ ∧ _))

/-- The memory of the arena that was created is separate. -/
def CreatesSeparate (cfg : ArenaPlatform w) (r : (ArenaStatus × Option MemoryPtr) × ArenaSystem w) :
    Prop :=
  ∀ x ∈ r.1.2, Separate cfg r.2 x

instance (cfg : ArenaPlatform w) (r : (ArenaStatus × Option MemoryPtr) × ArenaSystem w) :
    Decidable (CreatesSeparate cfg r) :=
  decidable_of_iff (r.1.2.all fun x => decide (Separate cfg r.2 x)) (by
    rw [CreatesSeparate, Option.all_eq_true]
    simp)

/-- The user initialises an arena that has nothing to give back, over memory that stays the
user's. -/
def InitsSeparate (cfg : ArenaPlatform w) (s : ArenaSystem w) (x : MemoryPtr)
    (config : Option (ArenaConfig w)) : Prop :=
  s.Usable x ∧ (s.arenas x).flags.ownsBacking = false ∧
    (∀ c ∈ config, c.flags.ownsBacking = false) ∧
    ((init s x config).1 = .ok → Separate cfg (init s x config).2 x)

instance (cfg : ArenaPlatform w) (s : ArenaSystem w) (x : MemoryPtr)
    (config : Option (ArenaConfig w)) :
    Decidable (InitsSeparate cfg s x config) :=
  have : Decidable (∀ c ∈ config, c.flags.ownsBacking = false) :=
    decidable_of_iff (config.all fun c => c.flags.ownsBacking == false) (by
      rw [Option.all_eq_true]
      simp)
  inferInstanceAs (Decidable (_ ∧ _ ∧ _ ∧ _))

/-- The call is on an arena that can be used, and memory that is obtained or lent is not in use. -/
def Proper (cfg : ArenaPlatform w) (s : ArenaSystem w) : Call w → Prop
  | .create backingBytes out => CreatesSeparate cfg (create cfg s backingBytes out)
  | .createWithBacking backingBytes backing out =>
    CreatesSeparate cfg (createWithBacking cfg s backingBytes backing out)
  | .init x config => InitsSeparate cfg s x config
  | .deinit x => s.Usable x
  | .destroy x => x = .null ∨ x ∈ s.created
  | .use x _ => s.Usable x

instance (cfg : ArenaPlatform w) (s : ArenaSystem w) : ∀ c, Decidable (Proper cfg s c)
  | .create _ _ | .createWithBacking _ _ _ => inferInstanceAs (Decidable (CreatesSeparate _ _))
  | .init _ _ => inferInstanceAs (Decidable (InitsSeparate _ _ _ _))
  | .deinit _ | .use _ _ => inferInstanceAs (Decidable (Usable _ _))
  | .destroy _ => inferInstanceAs (Decidable (_ ∨ _))

/-- The user writes a byte. -/
def Call.writes : Call w → Bool
  | .use _ (.write _ _) => true
  | _ => false

/-! ## What the calls do -/

variable {cfg : ArenaPlatform w} {s t : ArenaSystem w} {x y : MemoryPtr} {a : ArenaObject w}

@[simp] theorem owned_zeroed (cfg : ArenaPlatform w) : ArenaObject.zeroed.owned cfg = none := by
  simp [ArenaObject.owned, ArenaObject.zeroed]

/-- An arena without a flag gives nothing back. -/
theorem owned_of_lent (h : a.flags.ownsBacking = false) : a.owned cfg = none := by
  simp [ArenaObject.owned, h]

theorem Usable.imp (h : s.Usable x) (hcreated : x ∈ s.created → x ∈ t.created) : t.Usable x := by
  cases x with
  | null => trivial
  | given number => trivial
  | heap request => exact hcreated h
  | mapping request => exact h

/-- Touching an arena enters at most a use in the ledger. -/
theorem touch_eq (s : ArenaSystem w) (x : MemoryPtr) :
    ∃ l, s.touch x = { s with resources := l } := by
  cases x <;> exact ⟨_, rfl⟩

/-- The arena after a call on it. -/
theorem use_eq (cfg : ArenaPlatform w) (s : ArenaSystem w) (x : MemoryPtr)
    (c : ArenaHistory.Call w) :
    (use cfg s x c).2 =
      { s.touch x with
        arenas := Function.update s.arenas x
          { s.arenas x with
            offsetBytes := ((s.history cfg x).step c).2.arena.offset
            allocationCount := ((s.history cfg x).step c).2.arena.count }
        memory := ((s.history cfg x).step c).2.arena.memory
        blocks := Function.update s.blocks x ((s.history cfg x).step c).2.blocks } := rfl

/-- What becomes of the ledger when an arena gives back what it has. -/
theorem releaseBacking_eq (cfg : ArenaPlatform w) (s : ArenaSystem w) (a : ArenaObject w) :
    releaseBacking cfg s a =
      { s with resources := ((a.owned cfg).map s.resources.destroy).getD s.resources } := by
  unfold releaseBacking ArenaObject.owned
  split
  · rfl
  split
  · rfl
  split
  · rfl
  · rfl

/-- `arena_init` that succeeds. -/
theorem init_eq (s : ArenaSystem w) (x : MemoryPtr) (config : Option (ArenaConfig w)) :
    (∃ st, init s x config = (st, s)) ∨
      ∃ c ∈ config, c.backing ≠ .null ∧ x ≠ .null ∧ init s x config =
        (.ok, { s.touch x with
          arenas := Function.update s.arenas x ⟨c.backing, c.backingBytes, 0, 0, c.flags⟩
          known := x :: s.known
          blocks := Function.update s.blocks x [] }) := by
  unfold init
  cases config with
  | none => exact .inl ⟨_, rfl⟩
  | some c =>
    dsimp only
    by_cases hinvalid : c.backing = .null ∨ c.backingBytes = 0
    · exact .inl ⟨_, if_pos hinvalid⟩
    rw [if_neg hinvalid]
    by_cases hnull : x = .null
    · exact .inl ⟨_, if_pos hnull⟩
    rw [if_neg hnull]
    exact .inr ⟨c, rfl, (not_or.mp hinvalid).1, hnull, rfl⟩

/-- A mapping that is granted is as long as was asked for: if the rounding wraps, it is of no
pages. -/
theorem le_mappedBytes {bytes page : BitVec w} (hpage : page ≠ 0)
    (hmapped : (bytes + page - 1) / page * page ≠ 0) :
    bytes ≤ (bytes + page - 1) / page * page := by
  have hpred := WrapCounter.toNat_pred hpage
  have hbytes := bytes.isLt
  have hlt := page.isLt
  have hsum : (bytes + page - 1).toNat = (bytes.toNat + (page - 1).toNat) % 2 ^ w := by
    rw [show bytes + page - 1 = bytes + (page - 1) by
      rw [BitVec.sub_eq_add_neg, BitVec.sub_eq_add_neg, BitVec.add_assoc], BitVec.toNat_add]
  have hquot : ((bytes + page - 1) / page).toNat =
      (bytes.toNat + (page - 1).toNat) % 2 ^ w / page.toNat := by
    rw [BitVec.toNat_udiv, hsum]
  by_cases hwraps : 2 ^ w ≤ bytes.toNat + (page - 1).toNat
  · -- less than a page is left
    exfalso
    have hzero : ((bytes + page - 1) / page).toNat = 0 := by
      rw [hquot, Nat.mod_eq_sub_mod hwraps, Nat.mod_eq_of_lt (by omega)]
      exact Nat.div_eq_of_lt (by omega)
    refine hmapped (BitVec.eq_of_toNat_eq ?_)
    rw [BitVec.toNat_mul, hzero, Nat.zero_mul, Nat.zero_mod]
    exact BitVec.toNat_zero.symm
  · rw [Nat.mod_eq_of_lt (by omega)] at hquot
    have hupper : (bytes.toNat + (page - 1).toNat) / page.toNat * page.toNat ≤
        bytes.toNat + (page - 1).toNat := Nat.div_mul_le_self _ _
    have hlower : bytes.toNat + (page - 1).toNat <
        ((bytes.toNat + (page - 1).toNat) / page.toNat + 1) * page.toNat := by
      rw [Nat.mul_comm]
      exact Nat.lt_mul_div_succ _ (by omega)
    rw [Nat.add_mul, Nat.one_mul] at hlower
    rw [BitVec.le_def, BitVec.toNat_mul, hquot, Nat.mod_eq_of_lt (by omega)]
    omega

/-- A backing that is obtained by the request number `n`. -/
structure Obtained (cfg : ArenaPlatform w) (n : ℕ) (bytes : BitVec w) (a : ArenaObject w)
    (r : Resource w) : Prop where
  owned : a.owned cfg = some r
  number : r = .block (.heap n) ∨ ∃ bytes, r = .mapping (.mapping n) bytes
  base_ne : a.base ≠ .null
  offset : a.offsetBytes = 0
  count : a.allocationCount = 0
  enough : bytes ≤ a.capacityBytes

/-- **`arena_acquire_backing`** obtains one resource, or fails. -/
theorem acquireBacking_cases (cfg : ArenaPlatform w) (s : ArenaSystem w) (bytes : BitVec w)
    (backing : ArenaBacking) :
    (∃ st a requests, st ≠ .ok ∧ s.requests ≤ requests ∧
        acquireBacking cfg s .zeroed bytes backing = ((st, a), { s with requests := requests })) ∨
      ∃ a r, acquireBacking cfg s .zeroed bytes backing =
          ((.ok, a),
            { s with
              resources := s.resources.construct r true
              requests := s.requests + 1 }) ∧
        Obtained cfg s.requests bytes a r := by
  unfold acquireBacking
  by_cases hmmap : cfg.allowMmap = true ∧ backing = .mmap
  · simp only [if_pos hmmap, map]
    by_cases hbytes : bytes = 0
    · exact .inl ⟨.oom, .zeroed, s.requests, by rintro ⟨⟩, le_rfl, by simp [hbytes]⟩
    by_cases hpage : cfg.pageSize = 0
    · exact .inl ⟨.oom, .zeroed, s.requests, by rintro ⟨⟩, le_rfl, by simp [hpage]⟩
    simp only [if_neg hbytes, if_neg hpage]
    generalize hmapped : (bytes + cfg.pageSize - 1) / cfg.pageSize * cfg.pageSize = mapped
    by_cases hmaps : cfg.maps s.requests mapped = true
    · refine .inr ⟨⟨.mapping s.requests, mapped, 0, 0, ⟨true, false, true⟩⟩,
        .mapping (.mapping s.requests) mapped, by simp [hmaps, ArenaObject.zeroed], ?_,
        .inr ⟨_, rfl⟩, by rintro ⟨⟩, rfl, rfl, ?_⟩
      · simp [ArenaObject.owned, hmmap.1]
      · subst hmapped
        refine le_mappedBytes hpage fun hzero => ?_
        rw [hzero, cfg.maps_zero] at hmaps
        cases hmaps
    · exact .inl ⟨.oom, .zeroed, s.requests + 1, by rintro ⟨⟩, Nat.le_succ _, by simp [hmaps]⟩
  rw [if_neg hmmap]
  by_cases hheap : cfg.allowHeap = true ∧ backing = .heap
  · simp only [if_pos hheap, malloc]
    by_cases hgrants : cfg.grants s.requests bytes = true
    · refine .inr ⟨⟨.heap s.requests, bytes, 0, 0, ⟨true, true, false⟩⟩, .block (.heap s.requests),
        by simp [hgrants, ArenaObject.zeroed], ?_, .inl rfl, by rintro ⟨⟩, rfl, rfl,
        BitVec.le_refl _⟩
      simp [ArenaObject.owned, hheap.1]
    · exact .inl ⟨.oom, .zeroed, s.requests + 1, by rintro ⟨⟩, Nat.le_succ _, by simp [hgrants]⟩
  · rw [if_neg hheap]
    exact .inl ⟨.unsupported, _, s.requests, by rintro ⟨⟩, le_rfl, rfl⟩

end ArenaSystem

end Memkit
