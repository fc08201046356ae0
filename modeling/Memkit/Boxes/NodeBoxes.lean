import Memkit.Sequences.ListBlocks
import Memkit.Trees.BTreeBlocks

/-! # The boxes of nodes

`list_box`, `dlist_box` and `btree_box`, and the functions of the C interface that create and destroy
their objects: the flags, the pool and the object itself. The three differ in their cores, and the
tree may take its nodes from an arena.

* **`NodeKind`** — what a box needs to know of its core.
* **`NodeBox.init`, `create`, `destroy`** — as they are written for all three.
* **`create_destroy_iff`** — destroying a created object frees what was obtained for it exactly if it
  has an arena. -/

namespace Memkit

open NodeBlocks

/-- The flags of the lists and of the tree. -/
structure NodeBoxFlags where
  /-- `OWNS_STORAGE`. -/
  ownsStorage : Bool
  /-- `OWNS_SELF`. -/
  ownsSelf : Bool
  /-- `DYNAMIC_STORAGE`. -/
  dynamicStorage : Bool
  /-- `ARENA_STORAGE`. -/
  arenaStorage : Bool
  /-- `FIXED_CAPACITY`. -/
  fixedCapacity : Bool
  deriving DecidableEq, Repr

/-- The callbacks for the elements. -/
structure NodeElements (V : Type*) where
  policy : ElementPolicy V
  /-- There is a `destroy_fn`. -/
  needsDestroy : Bool

/-- The configuration of a box. -/
structure NodeBoxConfig (w : ℕ) (V : Type*) where
  /-- `elem_size`. -/
  elemSize : BitVec w
  elements : NodeElements V
  /-- Whether there is a `node_pool`. -/
  nodePool : Bool
  /-- `node_pool_bytes`. -/
  nodePoolBytes : BitVec w
  /-- `node_capacity`. -/
  nodeCapacity : BitVec w
  /-- Whether there is an `arena`. -/
  arena : Bool
  /-- `flags`. -/
  flags : NodeBoxFlags

/-- What a box needs to know of its core. -/
structure NodeKind (w : ℕ) (V σ ι ο : Type*) where
  /-- The size of a node without its element. -/
  headerSize : BitVec w
  /-- The size of the object. -/
  objBytes : BitVec w
  /-- `init` binds the arena as the allocator of the nodes. -/
  bindsArena : Bool
  /-- The core over a source of nodes, which may be an arena. -/
  core : NodeElements V → NodeSource → Bool → NodeCore σ ι ο
  /-- The core after `init` or `init_dynamic`. -/
  start : NodeElements V → NodeSource → σ
  /-- What the core obtains and frees fits its nodes. -/
  sound : ∀ elements src fromArena, ∃ ofHeap shape,
    (core elements src fromArena).Sound ofHeap shape ∧ shape (start elements src) []

variable {w : ℕ} {V σ ι ο : Type*}

namespace NodeBoxConfig

/-- `node_stride`. -/
def nodeStride (cfg : NodeBoxConfig w V) (kind : NodeKind w V σ ι ο) : BitVec w :=
  kind.headerSize + cfg.elemSize

/-- The nodes are of a pool. -/
def fixed (cfg : NodeBoxConfig w V) : Bool := cfg.flags.fixedCapacity || cfg.nodePool

/-- `validate_config`. -/
def validateConfig (cfg : NodeBoxConfig w V) (kind : NodeKind w V σ ι ο) : Status :=
  if cfg.elemSize = 0 then .invalid
  else if cfg.nodePool = true ∧ cfg.nodeCapacity = 0 then .invalid
  else if cfg.nodePool = true ∧ cfg.nodePoolBytes < cfg.nodeCapacity * cfg.nodeStride kind then
    .invalid
  else if cfg.fixed = false ∧ cfg.arena = false ∧ cfg.flags.dynamicStorage = false then .invalid
  else .ok

/-- The nodes are of the arena. -/
def fromArena (cfg : NodeBoxConfig w V) (kind : NodeKind w V σ ι ο) : Bool :=
  kind.bindsArena && cfg.arena

/-- The status of a request for a node outside of a pool: that of `arena_alloc_trampoline`, or of
`std::malloc`. -/
def nodeRequest (cfg : NodeBoxConfig w V) (kind : NodeKind w V σ ι ο) (env : Allocators w NodeArea)
    (n : ℕ) : Status :=
  if cfg.fromArena kind then
    let status := env.arenaAlloc (.node n) (cfg.nodeStride kind)
    if status ≠ .ok then (if status = .oom then .oom else .invalid) else .ok
  else if env.allowHeap then
    if env.malloc (.node n) (cfg.nodeStride kind) then .ok else .oom
  else .unsupported

/-- The source of the nodes. -/
def source (cfg : NodeBoxConfig w V) (kind : NodeKind w V σ ι ο) (env : Allocators w NodeArea) :
    NodeSource where
  fixedPool := cfg.fixed
  capacity := if cfg.fixed then cfg.nodeCapacity.toNat else 0
  request := cfg.nodeRequest kind env

/-- The core with these nodes. -/
def nodeCore (cfg : NodeBoxConfig w V) (kind : NodeKind w V σ ι ο) (env : Allocators w NodeArea) :
    NodeCore σ ι ο :=
  kind.core cfg.elements (cfg.source kind env) (cfg.fromArena kind)

end NodeBoxConfig

/-- The members of a box. -/
structure NodeBox (σ : Type*) where
  core : σ
  /-- `core_.node_pool()`. -/
  nodePool : Option (Block NodeArea)
  /-- `c_flags_`. -/
  cFlags : NodeBoxFlags

namespace NodeBox

/-- `config->flags` without the bits about storage. -/
def clearedFlags (flags : NodeBoxFlags) : NodeBoxFlags :=
  { flags with
    ownsStorage := false
    dynamicStorage := false
    arenaStorage := false
    fixedCapacity := false }

/-- `allocate_node_pool`: the pool, which may stay null, and `c_flags_`. -/
def allocateNodePool (kind : NodeKind w V σ ι ο) (cfg : NodeBoxConfig w V)
    (env : Allocators w NodeArea) (cFlags : NodeBoxFlags) (heap : Ledger (Block NodeArea)) :
    Except Status (Option (Block NodeArea) × NodeBoxFlags) × Ledger (Block NodeArea) :=
  if cfg.nodePool then (.ok (some (.given .pool), { cFlags with fixedCapacity := true }), heap)
  else if cfg.nodeCapacity = 0 then (.ok (none, cFlags), heap)
  else if cfg.arena = true ∨ (env.allowHeap = true ∧ cfg.flags.dynamicStorage = true) then
    match env.allocRaw cfg.arena .pool (cfg.nodeCapacity * cfg.nodeStride kind) heap with
    | (.error st, heap) => (.error st, heap)
    | (.ok ptr, heap) =>
      (.ok (some ptr,
        { cFlags with
          ownsStorage := true
          dynamicStorage := cFlags.dynamicStorage || !cfg.arena
          arenaStorage := cFlags.arenaStorage || cfg.arena
          fixedCapacity := true }), heap)
  else (.error .invalid, heap)

/-- `release_node_pool`. -/
def releaseNodePool (env : Allocators w NodeArea) (cFlags : NodeBoxFlags)
    (nodePool : Option (Block NodeArea)) (heap : Ledger (Block NodeArea)) :
    Ledger (Block NodeArea) :=
  if cFlags.ownsStorage = false then heap
  else env.releaseOwnedBlock cFlags.dynamicStorage nodePool heap

/-- `core_.init` refuses a null pool and a capacity of zero. -/
def coreInit (nodePool : Option (Block NodeArea)) (nodeCapacity : BitVec w) : Status :=
  if nodePool = none ∨ nodeCapacity = 0 then .invalid else .ok

/-- `init`, on a zeroed box. -/
def init (kind : NodeKind w V σ ι ο) (cfg : NodeBoxConfig w V) (env : Allocators w NodeArea)
    (heap : Ledger (Block NodeArea)) : Except Status (NodeBox σ) × Ledger (Block NodeArea) :=
  if cfg.validateConfig kind ≠ .ok then (.error (cfg.validateConfig kind), heap)
  else
    let core := kind.start cfg.elements (cfg.source kind env)
    let cFlags := clearedFlags cfg.flags
    if cfg.nodePool = true ∨ cfg.flags.fixedCapacity = true then
      match allocateNodePool kind cfg env cFlags heap with
      | (.error poolStatus, heap) => (.error poolStatus, heap)
      | (.ok (nodePool, cFlags), heap) =>
        let st := coreInit nodePool cfg.nodeCapacity
        -- the core has no pool yet that could be released
        if st ≠ .ok then (.error st, releaseNodePool env cFlags none heap)
        else
          let transferred := cfg.nodePool && cfg.flags.ownsStorage
          (.ok ⟨core, nodePool,
            { cFlags with ownsStorage := cFlags.ownsStorage || transferred }⟩, heap)
    else
      (.ok ⟨core, none,
        { cFlags with arenaStorage := cFlags.arenaStorage || cfg.fromArena kind }⟩, heap)

/-- `deinit`, for the heap; `none` if `clear` does not return. -/
def deinit (kind : NodeKind w V σ ι ο) (cfg : NodeBoxConfig w V) (env : Allocators w NodeArea)
    (box : NodeBox σ) (heap : Ledger (Block NodeArea)) : Option (Ledger (Block NodeArea)) :=
  ((cfg.nodeCore kind env).clear box.core).map fun _ =>
    releaseNodePool env box.cFlags box.nodePool
      (heap.replay ((cfg.nodeCore kind env).clearBlocks box.core))

/-! ## Objects of the C interface -/

/-- `owned_create_config_flags`. -/
def ownedCreateConfigFlags (userFlags : NodeBoxFlags) (arena : Bool)
    (env : Allocators w NodeArea) : NodeBoxFlags :=
  let flags := { userFlags with ownsStorage := true }
  if env.allowHeap = true ∧ arena = false then
    { flags with dynamicStorage := true, ownsSelf := true }
  else { flags with arenaStorage := true }

/-- The configuration of an object that is created: there are no callbacks and there is no pool. -/
def createConfig (V : Type*) (elemSize : BitVec w) (arena : Bool) (flags : NodeBoxFlags)
    (env : Allocators w NodeArea) : NodeBoxConfig w V where
  elemSize := elemSize
  elements := ⟨.bytewise V, false⟩
  nodePool := false
  nodePoolBytes := 0
  nodeCapacity := 0
  arena := arena
  flags := ownedCreateConfigFlags flags arena env

/-- `release_uninitialized_object`. -/
def releaseUninitializedObject (env : Allocators w NodeArea) (arena : Bool)
    (heap : Ledger (Block NodeArea)) : Ledger (Block NodeArea) :=
  if env.allowHeap = true ∧ arena = false then heap.destroy (.obtained .self) else heap

/-- `create`; `rejected` says that an argument is not valid. -/
def create (kind : NodeKind w V σ ι ο) (hasOut rejected : Bool) (elemSize : BitVec w) (arena : Bool)
    (flags : NodeBoxFlags) (env : Allocators w NodeArea) :
    Except Status (NodeBox σ) × Ledger (Block NodeArea) :=
  if hasOut = false then (.error .nullPtr, .empty _)
  else if rejected then (.error .invalid, .empty _)
  else if env.allowHeap = false ∧ arena = false then (.error .unsupported, .empty _)
  else
    match env.allocRaw arena .self kind.objBytes (.empty _) with
    | (.error _, heap) => (.error (if arena then .invalid else .oom), heap)
    | (.ok _, heap) =>
      match init kind (createConfig V elemSize arena flags env) env heap with
      | (.error st, heap) => (.error st, releaseUninitializedObject env arena heap)
      | (.ok box, heap) =>
        if env.allowHeap = false ∨ arena = true then
          (.ok { box with cFlags := { box.cFlags with ownsSelf := true } }, heap)
        else (.ok box, heap)

/-- Some calls on an object. -/
def run (kind : NodeKind w V σ ι ο) (cfg : NodeBoxConfig w V) (env : Allocators w NodeArea)
    (s : NodeBox σ × Ledger (Block NodeArea)) (calls : List ι) :
    NodeBox σ × Ledger (Block NodeArea) :=
  let r := (cfg.nodeCore kind env).run (s.1.core, s.2) calls
  ({ s.1 with core := r.1 }, r.2)

/-- `destroy_owned_object`: it frees the object if its flags have `OWNS_SELF` and
`DYNAMIC_STORAGE`. -/
def destroyOwnedObject (kind : NodeKind w V σ ι ο) (cfg : NodeBoxConfig w V)
    (env : Allocators w NodeArea) (s : NodeBox σ × Ledger (Block NodeArea)) :
    Option (Ledger (Block NodeArea)) :=
  let savedFlags := s.1.cFlags
  (deinit kind cfg env s.1 s.2).map fun heap =>
    if env.allowHeap = true ∧ savedFlags.ownsSelf = true ∧ savedFlags.dynamicStorage = true then
      heap.destroy (.obtained .self)
    else heap

/-- Make some calls on an object that was created, and destroy it. -/
def runThenDestroy (kind : NodeKind w V σ ι ο) (elemSize : BitVec w) (arena : Bool)
    (flags : NodeBoxFlags) (env : Allocators w NodeArea)
    (s : NodeBox σ × Ledger (Block NodeArea)) (calls : List ι) : Option (Ledger (Block NodeArea)) :=
  let cfg := createConfig V elemSize arena flags env
  destroyOwnedObject kind cfg env (run kind cfg env s calls)

/-! ## What is left -/

variable {kind : NodeKind w V σ ι ο} {env : Allocators w NodeArea} {hasOut rejected arena : Bool}
  {elemSize : BitVec w} {flags : NodeBoxFlags} {box : NodeBox σ} {heap heap' : Ledger (Block NodeArea)}

/-- What `init` makes of the configuration of a created object: there is no pool, and
`DYNAMIC_STORAGE` is gone from the flags. -/
structure Created (kind : NodeKind w V σ ι ο) (cfg : NodeBoxConfig w V)
    (env : Allocators w NodeArea) (box : NodeBox σ) : Prop where
  core : box.core = kind.start cfg.elements (cfg.source kind env)
  nodePool : box.nodePool = none
  dynamicStorage : box.cFlags.dynamicStorage = false

/-- **`init` of a created object** leaves the heap alone, and refuses `FIXED_CAPACITY`. -/
theorem init_created
    (h : init kind (createConfig V elemSize arena flags env) env heap = (.ok box, heap')) :
    heap' = heap ∧ Created kind (createConfig V elemSize arena flags env) env box := by
  generalize hcfg : createConfig V elemSize arena flags env = cfg at h ⊢
  have hnull : cfg.nodePool = false := by rw [← hcfg]; rfl
  have hzero : cfg.nodeCapacity = 0 := by rw [← hcfg]; rfl
  unfold init at h
  by_cases hvalid : cfg.validateConfig kind ≠ .ok
  · rw [if_pos hvalid] at h
    cases h
  rw [if_neg hvalid] at h
  by_cases hfixed : cfg.nodePool = true ∨ cfg.flags.fixedCapacity = true
  · -- there is no pool for the core
    have hpool : allocateNodePool kind cfg env (clearedFlags cfg.flags) heap =
        (.ok (none, clearedFlags cfg.flags), heap) := by
      rw [allocateNodePool, hnull, if_neg Bool.false_ne_true, if_pos hzero]
    dsimp only at h
    rw [if_pos hfixed, hpool] at h
    simp only [coreInit, true_or, if_true] at h
    rw [if_pos (by decide)] at h
    cases h
  · dsimp only at h
    rw [if_neg hfixed] at h
    cases h
    exact ⟨rfl, rfl, rfl, rfl⟩

/-- **A created object**: the heap holds it, unless it is of an arena. -/
theorem create_ok (h : create kind hasOut rejected elemSize arena flags env = (.ok box, heap)) :
    Created kind (createConfig V elemSize arena flags env) env box ∧
      heap.Holds {b | b ∈ Allocators.ofHeap false arena NodeArea.self} := by
  unfold create at h
  split at h
  · cases h
  split at h
  · cases h
  split at h
  · cases h
  split at h
  · cases h
  next hself =>
  obtain ⟨-, hholds, -⟩ := Allocators.provide_ok
    (show env.provide false arena .self kind.objBytes _ = _ from hself) Ledger.holds_nil
    List.not_mem_nil
  rw [List.append_nil] at hholds
  split at h
  · cases h
  next hinit =>
  obtain ⟨rfl, hcreated⟩ := init_created hinit
  split at h
  · cases h
    exact ⟨⟨hcreated.core, hcreated.nodePool, hcreated.dynamicStorage⟩, hholds⟩
  · cases h
    exact ⟨hcreated, hholds⟩

/-- **Destroying a created object**, whatever the calls before, frees all its nodes, and never the
object. -/
theorem runThenDestroy_holds
    (h : create kind hasOut rejected elemSize arena flags env = (.ok box, heap)) (calls : List ι) :
    ∃ heap', runThenDestroy kind elemSize arena flags env (box, heap) calls = some heap' ∧
      heap'.Holds {b | b ∈ Allocators.ofHeap false arena NodeArea.self} := by
  obtain ⟨hcreated, hholds⟩ := create_ok h
  unfold runThenDestroy
  generalize createConfig V elemSize arena flags env = cfg at hcreated ⊢
  obtain ⟨ofHeap, shape, hsound, hstart⟩ :=
    kind.sound cfg.elements (cfg.source kind env) (cfg.fromArena kind)
  have hnodes : HoldsNodes ofHeap (Allocators.ofHeap false arena .self) [] heap := by
    refine ⟨fun n hmem => ?_, ?_⟩
    · unfold Allocators.ofHeap at hmem
      split at hmem
      · cases hmem
      · cases List.mem_singleton.mp hmem
    · cases ofHeap <;> exact hholds
  have hbegin : shape box.core [] := by
    rw [hcreated.core]
    exact hstart
  obtain ⟨nodes, hshape, hrun⟩ := hsound.run (s := (box.core, heap)) ⟨[], hbegin, hnodes⟩ calls
  generalize hfinal : (kind.core cfg.elements (cfg.source kind env) (cfg.fromArena kind)).run
    (box.core, heap) calls = r at hshape hrun
  obtain ⟨core, hclear, hfreed⟩ := hsound.clear hshape
  have hleft := (hfreed _ _ hrun).holds
  have hafter : run kind cfg env (box, heap) calls = ({ box with core := r.1 }, r.2) := by
    rw [← hfinal]
    rfl
  have hdeinit : deinit kind cfg env { box with core := r.1 } r.2 =
      some (r.2.replay ((cfg.nodeCore kind env).clearBlocks r.1)) := by
    unfold deinit
    rw [show (cfg.nodeCore kind env).clear r.1 = some core from hclear, Option.map_some]
    dsimp only
    rw [hcreated.nodePool]
    unfold releaseNodePool
    split <;> rfl
  refine ⟨r.2.replay ((cfg.nodeCore kind env).clearBlocks r.1), ?_, ?_⟩
  · dsimp only
    rw [hafter]
    unfold destroyOwnedObject
    dsimp only
    rw [hdeinit, Option.map_some, hcreated.dynamicStorage, if_neg (by simp)]
  · cases ofHeap <;> exact hleft

/-- **What was obtained is freed** exactly if there is an arena. -/
theorem runThenDestroy_settled_iff
    (h : create kind hasOut rejected elemSize arena flags env = (.ok box, heap)) (calls : List ι) :
    ∃ heap', runThenDestroy kind elemSize arena flags env (box, heap) calls = some heap' ∧
      (heap'.Settled ↔ arena = true) := by
  obtain ⟨heap', hdestroy, hholds⟩ := runThenDestroy_holds h calls
  refine ⟨heap', hdestroy, hholds.settled_iff_eq_nil.trans ?_⟩
  cases arena <;> simp [Allocators.ofHeap]

end NodeBox

/-! ## The three boxes -/

/-- The sizes of a node without its element and of the object. -/
structure NodeLayout (w : ℕ) where
  headerSize : BitVec w
  objBytes : BitVec w

/-- The core of the `list_box`, over nodes whose memory has any contents. -/
def ListBox.kind (layout : NodeLayout w) (links : ℕ → Option ℕ) (memory : ℕ → V) :
    NodeKind w V (SList V) (SList.Call V) (Option (Answer V)) where
  headerSize := layout.headerSize
  objBytes := layout.objBytes
  bindsArena := false
  core elements src _ := SList.nodeCore ⟨elements.policy, elements.needsDestroy, src⟩
  start elements src := SList.init ⟨elements.policy, elements.needsDestroy, src⟩ links memory
  sound _ _ _ := ⟨_, _, SList.nodeCore_sound _, SList.inv_init _ links memory⟩

/-- `list_create`. -/
def ListBox.create (layout : NodeLayout w) (links : ℕ → Option ℕ) (memory : ℕ → V) (hasOut : Bool)
    (elemSize : BitVec w) (arena : Bool) (flags : NodeBoxFlags) (env : Allocators w NodeArea) :
    Except Status (NodeBox (SList V)) × Ledger (Block NodeArea) :=
  NodeBox.create (ListBox.kind layout links memory) hasOut (elemSize == 0) elemSize arena flags env

/-- The core of the `dlist_box`. -/
def DListBox.kind (layout : NodeLayout w) (links : ℕ → Option ℕ) (memory : ℕ → V) :
    NodeKind w V (DList V) (DList.Call V) (Option (Answer V)) where
  headerSize := layout.headerSize
  objBytes := layout.objBytes
  bindsArena := false
  core elements src _ := DList.nodeCore ⟨elements.policy, elements.needsDestroy, src⟩
  start elements src := DList.init ⟨elements.policy, elements.needsDestroy, src⟩ links memory
  sound _ _ _ := ⟨_, _, DList.nodeCore_sound _, DList.inv_init _ links memory⟩

/-- `dlist_create`. -/
def DListBox.create (layout : NodeLayout w) (links : ℕ → Option ℕ) (memory : ℕ → V)
    (hasOut : Bool) (elemSize : BitVec w) (arena : Bool) (flags : NodeBoxFlags)
    (env : Allocators w NodeArea) :
    Except Status (NodeBox (DList V)) × Ledger (Block NodeArea) :=
  NodeBox.create (DListBox.kind layout links memory) hasOut (elemSize == 0) elemSize arena flags env

/-- The core of the `btree_box`; without a `compare_fn` it is not used. -/
def BTreeBox.kind (layout : NodeLayout w) (links : ℕ → Option ℕ) (memory : ℕ → V)
    (compareFn : Option (V → V → ℤ)) :
    NodeKind w V (BTree V) (BTree.Call V) (Option (BTree.Reply V)) where
  headerSize := layout.headerSize
  objBytes := layout.objBytes
  bindsArena := true
  core elements src fromArena :=
    BTree.nodeCore ⟨elements.policy, elements.needsDestroy, src, compareFn.getD fun _ _ => 0⟩
      fromArena
  start elements src :=
    BTree.init ⟨elements.policy, elements.needsDestroy, src, compareFn.getD fun _ _ => 0⟩ links memory
  sound _ _ fromArena := by
    obtain ⟨free, hinv⟩ := BTree.inv_init ⟨_, _, _, compareFn.getD fun _ _ => 0⟩ links memory
    exact ⟨_, _, BTree.nodeCore_sound _ fromArena, .nil, free, hinv, rfl⟩

/-- `btree_create`. -/
def BTreeBox.create (layout : NodeLayout w) (links : ℕ → Option ℕ) (memory : ℕ → V)
    (hasOut : Bool) (elemSize : BitVec w) (compareFn : Option (V → V → ℤ)) (arena : Bool)
    (flags : NodeBoxFlags) (env : Allocators w NodeArea) :
    Except Status (NodeBox (BTree V)) × Ledger (Block NodeArea) :=
  NodeBox.create (BTreeBox.kind layout links memory compareFn) hasOut
    (elemSize == 0 || compareFn.isNone) elemSize arena flags env

/-- **Creating and destroying** a list, a doubly linked list or a tree, with any calls in between,
frees what was obtained from the heap once and nothing else exactly if there is an arena. -/
theorem create_destroy_iff (layout : NodeLayout w) (links : ℕ → Option ℕ) (memory : ℕ → V)
    (hasOut : Bool) (elemSize : BitVec w) (arena : Bool) (flags : NodeBoxFlags)
    (env : Allocators w NodeArea) :
    (∀ box heap,
      ListBox.create layout links memory hasOut elemSize arena flags env = (.ok box, heap) →
      ∀ calls, ∃ heap', NodeBox.runThenDestroy (ListBox.kind layout links memory) elemSize arena
          flags env (box, heap) calls = some heap' ∧ (heap'.Settled ↔ arena = true)) ∧
    (∀ box heap,
      DListBox.create layout links memory hasOut elemSize arena flags env = (.ok box, heap) →
      ∀ calls, ∃ heap', NodeBox.runThenDestroy (DListBox.kind layout links memory) elemSize arena
          flags env (box, heap) calls = some heap' ∧ (heap'.Settled ↔ arena = true)) ∧
    (∀ compareFn box heap,
      BTreeBox.create layout links memory hasOut elemSize compareFn arena flags env =
        (.ok box, heap) →
      ∀ calls, ∃ heap', NodeBox.runThenDestroy (BTreeBox.kind layout links memory compareFn)
          elemSize arena flags env (box, heap) calls = some heap' ∧
        (heap'.Settled ↔ arena = true)) := by
  refine ⟨?_, ?_, ?_⟩
  · intro box heap hcreate calls
    exact NodeBox.runThenDestroy_settled_iff hcreate calls
  · intro box heap hcreate calls
    exact NodeBox.runThenDestroy_settled_iff hcreate calls
  · intro compareFn box heap hcreate calls
    exact NodeBox.runThenDestroy_settled_iff hcreate calls

/-- The sizes of the list on a machine of 64 bits. -/
def plainLayout : NodeLayout 64 := ⟨8, 128⟩

/-- A heap and an arena that grant every request. -/
def plainMemory : Allocators 64 NodeArea := ⟨true, fun _ _ => .ok, fun _ _ => true⟩

/-- `list_create` without flags, for elements of four bytes. -/
def plainList (arena : Bool) : Except Status (NodeBox (SList ℕ)) × Ledger (Block NodeArea) :=
  ListBox.create plainLayout (fun _ => none) (fun _ => 0) true 4 arena
    ⟨false, false, false, false, false⟩ plainMemory

/-- A list in an arena: an element is pushed, and everything is freed. -/
theorem create_destroy_iff_arena :
    ∃ box heap heap', plainList true = (.ok box, heap) ∧
      NodeBox.runThenDestroy (ListBox.kind plainLayout (fun _ => none) fun _ => 0) 4 true
        ⟨false, false, false, false, false⟩ plainMemory (box, heap) [.pushBack 7] = some heap' ∧
      (heap'.Settled ↔ true = true) := by
  have hcreate : plainList true = (.ok _, _) := rfl
  obtain ⟨heap', hdestroy, hiff⟩ := (create_destroy_iff plainLayout (fun _ => none)
    (fun _ : ℕ => 0) true 4 true ⟨false, false, false, false, false⟩ plainMemory).1 _ _ hcreate
    [.pushBack 7]
  exact ⟨_, _, heap', hcreate, hdestroy, hiff⟩

/-- **The object is not freed**: a list of the heap, after an element was pushed. -/
theorem created_list_leaks :
    ∃ box heap heap', plainList false = (.ok box, heap) ∧
      NodeBox.runThenDestroy (ListBox.kind plainLayout (fun _ => none) fun _ => 0) 4 false
        ⟨false, false, false, false, false⟩ plainMemory (box, heap) [.pushBack 7] = some heap' ∧
      ¬ heap'.Settled :=
  ⟨_, _, _, rfl, rfl, by decide +kernel⟩

end Memkit
