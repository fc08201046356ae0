import Memkit.Memory.ContainerParts

/-! # Containers in one arena

Containers call `init_from_arena` on one arena, in any order and number, between other calls of the
arena and resets. An `init_from_arena` that fails after its first part keeps what it has allocated.

* **`Carving`** — the arena, and the storage of the containers and callers since the last reset.
* **`carved_apart_iff`** — the storage that they use is inside the backing block and apart from that
  of the others exactly if none of the sizes wraps.

The containers multiply without a test, so the sizes may wrap. -/

namespace Memkit

variable {w : ℕ}

/-- A part at the address that the arena gave. -/
structure Region (w : ℕ) where
  addr : BitVec w
  part : StoragePart w

namespace Region

/-- The block that the arena has reserved. -/
def block (r : Region w) : ArenaBlock w := ⟨r.addr, r.part.bytes, r.part.alignment⟩

/-- The bytes in use end before the others start. -/
def Disjoint (r s : Region w) : Prop :=
  r.addr.toNat + r.part.used ≤ s.addr.toNat ∨ s.addr.toNat + s.part.used ≤ r.addr.toNat

end Region

namespace MemoryArena

/-- Allocate parts in turn, up to the first failure. -/
def allocateParts (a : MemoryArena w) :
    List (StoragePart w) → (Status × List (Region w)) × MemoryArena w
  | [] => ((.ok, []), a)
  | part :: parts =>
    match a.allocate part.bytes part.alignment (some 0) with
    | ((.ok, some ptr), a) =>
      let ((st, regions), a) := a.allocateParts parts
      ((st, ⟨ptr, part⟩ :: regions), a)
    | ((st, _), a) => ((st, []), a)

end MemoryArena

/-- `init_from_arena`: the status, the storage of the container and the arena. -/
def Container.initFromArena (c : Container w) (a : MemoryArena w) :
    (Status × List (Region w)) × MemoryArena w :=
  if c.admitted = false then ((.invalid, []), a)
  else
    let ((st, regions), a) := a.allocateParts c.parts
    if st ≠ .ok then ((st, []), a)
    else if c.accepted = false then ((.invalid, []), a)
    else ((.ok, regions), a)

/-- The arena, and the storage in use since the last reset. -/
structure Carving (w : ℕ) where
  arena : MemoryArena w
  held : List (Region w)

namespace Carving

/-- What happens to the arena. -/
inductive Call (w : ℕ)
  | initFromArena (container : Container w)
  /-- A call of the arena, or a write to memory. -/
  | of (call : ArenaHistory.Call w)

/-- The block that a call of the arena asks for. -/
def asked : ArenaHistory.Call w → List (StoragePart w)
  | .alloc size alignment _ => [.block size alignment]
  | .calloc count size alignment _ =>
    [⟨count * size, alignment, count.toNat * size.toNat, fun _ => BitVec.toNat_mul count size⟩]
  | .reset => []
  | .write _ _ => []

/-- The storage in use after a call of the arena. -/
def keep (held : List (Region w)) (call : ArenaHistory.Call w) :
    MemoryArena.Reply w → List (Region w)
  | .block .ok (some ptr) => (asked call).map (Region.mk ptr) ++ held
  | .block _ _ => held
  | .done =>
    match call with
    | .reset => []
    | _ => held

/-- One call; it answers with a status, unless it has none. -/
def step (s : Carving w) : Call w → Option Status × Carving w
  | .initFromArena container =>
    let ((st, regions), arena) := container.initFromArena s.arena
    (some st, ⟨arena, regions ++ s.held⟩)
  | .of call =>
    let (reply, arena) := s.arena.call call
    let st :=
      match reply with
      | .block st _ => some st
      | .done => none
    (st, ⟨arena, keep s.held call reply⟩)

/-- An arena over a backing storage, with nothing in it. -/
def init (base capacity : BitVec w) (memory : BitVec w → BitVec 8) : Carving w :=
  ⟨.init base capacity memory, []⟩

/-- The parts in use after a call with its status. -/
def inUse (parts : List (StoragePart w)) : Call w × Option Status → List (StoragePart w)
  | (.initFromArena container, st) => if st = some .ok then container.parts ++ parts else parts
  | (.of .reset, _) => []
  | (.of call, st) => if st = some .ok then asked call ++ parts else parts

/-- The storage in use is aligned, inside the backing block and disjoint. -/
structure Apart (base capacity : BitVec w) (s : Carving w) : Prop where
  aligned : ∀ r ∈ s.held, r.addr.toNat % r.part.alignment.toNat = 0
  inside : ∀ r ∈ s.held, base.toNat ≤ r.addr.toNat ∧
    r.addr.toNat + r.part.used ≤ base.toNat + capacity.toNat
  disjoint : s.held.Pairwise Region.Disjoint

/-! ## What an allocation reserves -/

/-- The regions lie in the part of the arena that was free before and is not free afterwards. -/
structure Reserves (a : MemoryArena w) (regions : List (Region w)) (a' : MemoryArena w) : Prop where
  base : a'.base = a.base
  capacity : a'.capacityBytes = a.capacityBytes
  offset_le : a.offsetBytes.toNat ≤ a'.offsetBytes.toNat
  fits : a'.offsetBytes ≤ a.capacityBytes
  aligned : ∀ r ∈ regions, r.addr.toNat % r.part.alignment.toNat = 0
  nonempty : ∀ r ∈ regions, r.part.bytes ≠ 0
  inside : ∀ r ∈ regions, a.base.toNat + a.offsetBytes.toNat ≤ r.addr.toNat ∧
    r.addr.toNat + r.part.bytes.toNat ≤ a.base.toNat + a'.offsetBytes.toNat
  disjoint : (regions.map Region.block).Pairwise ArenaBlock.Disjoint

variable {a a' a'' : MemoryArena w} {regions more : List (Region w)} {r : Region w}

theorem Reserves.nothing (h : a.offsetBytes ≤ a.capacityBytes) : Reserves a [] a where
  base := rfl
  capacity := rfl
  offset_le := le_rfl
  fits := h
  aligned _ hr := absurd hr List.not_mem_nil
  nonempty _ hr := absurd hr List.not_mem_nil
  inside _ hr := absurd hr List.not_mem_nil
  disjoint := List.Pairwise.nil

/-- What was reserved in vain stays reserved. -/
theorem Reserves.forget (h : Reserves a regions a') : Reserves a [] a' where
  base := h.base
  capacity := h.capacity
  offset_le := h.offset_le
  fits := h.fits
  aligned _ hr := absurd hr List.not_mem_nil
  nonempty _ hr := absurd hr List.not_mem_nil
  inside _ hr := absurd hr List.not_mem_nil
  disjoint := List.Pairwise.nil

/-- One allocation after the other: the later regions lie behind the earlier ones. -/
theorem Reserves.append (h : Reserves a regions a') (hmore : Reserves a' more a'') :
    Reserves a (regions ++ more) a'' where
  base := hmore.base.trans h.base
  capacity := hmore.capacity.trans h.capacity
  offset_le := h.offset_le.trans hmore.offset_le
  fits := h.capacity ▸ hmore.fits
  aligned r hr := (List.mem_append.mp hr).elim (h.aligned r) (hmore.aligned r)
  nonempty r hr := (List.mem_append.mp hr).elim (h.nonempty r) (hmore.nonempty r)
  inside r hr := by
    have hle := h.offset_le
    have hle' := hmore.offset_le
    rcases List.mem_append.mp hr with hr | hr
    · obtain ⟨hlow, hhigh⟩ := h.inside r hr
      exact ⟨hlow, by omega⟩
    · obtain ⟨hlow, hhigh⟩ := hmore.inside r hr
      rw [h.base] at hlow hhigh
      exact ⟨by omega, hhigh⟩
  disjoint := by
    rw [List.map_append, List.pairwise_append]
    refine ⟨h.disjoint, hmore.disjoint, fun b hb c hc => .inl ?_⟩
    obtain ⟨r, hr, rfl⟩ := List.mem_map.mp hb
    obtain ⟨s, hs, rfl⟩ := List.mem_map.mp hc
    have hend := (h.inside r hr).2
    have hstart := (hmore.inside s hs).1
    rw [h.base] at hstart
    exact hend.trans hstart

/-- The order of what was reserved does not matter. -/
theorem Reserves.reverse_append (h : Reserves a (regions ++ more) a') :
    Reserves a (more ++ regions) a' where
  base := h.base
  capacity := h.capacity
  offset_le := h.offset_le
  fits := h.fits
  aligned r hr := h.aligned r (List.perm_append_comm.mem_iff.mp hr)
  nonempty r hr := h.nonempty r (List.perm_append_comm.mem_iff.mp hr)
  inside r hr := h.inside r (List.perm_append_comm.mem_iff.mp hr)
  disjoint := by
    have hperm : (more ++ regions).map Region.block |>.Perm ((regions ++ more).map Region.block) :=
      List.perm_append_comm.map _
    exact (hperm.pairwise_iff fun {_ _} => Or.symm).mpr h.disjoint

/-- Arenas with the same C arena are equal. -/
theorem Twin.eq_of_twin {c : Arena w} (h : MemoryArena.Twin c a) (h' : MemoryArena.Twin c a') :
    a = a' := by
  obtain ⟨base, capacity, offset, count, memory⟩ := a
  obtain ⟨base', capacity', offset', count', memory'⟩ := a'
  obtain ⟨rfl, rfl, rfl, rfl, rfl⟩ := h
  obtain ⟨rfl, rfl, rfl, rfl, rfl⟩ := h'
  rfl

/-- `allocate` refuses blocks of no bytes. -/
theorem allocate_zero (a : MemoryArena w) (alignment : BitVec w) (out : Option (BitVec w)) :
    (a.allocate 0 alignment out).1.1 ≠ .ok := by
  unfold MemoryArena.allocate
  by_cases hout : out = none
  · rw [if_pos hout]
    rintro ⟨⟩
  rw [if_neg hout]
  by_cases hbacking : a.base = 0 ∨ a.capacityBytes = 0
  · rw [if_pos hbacking]
    rintro ⟨⟩
  rw [if_neg hbacking, if_pos (.inl rfl)]
  rintro ⟨⟩

/-- **`allocate`** reserves a region or changes nothing. -/
theorem allocate_cases (hfit : a.base.toNat + a.capacityBytes.toNat ≤ 2 ^ w)
    (part : StoragePart w) (out : Option (BitVec w)) :
    (∃ ptr a', a.allocate part.bytes part.alignment out = ((.ok, some ptr), a') ∧
        Reserves a [⟨ptr, part⟩] a') ∨
      ∃ st ptr, st ≠ .ok ∧ a.allocate part.bytes part.alignment out = ((st, ptr), a) := by
  have htwin : MemoryArena.Twin
      ⟨a.base, a.capacityBytes, a.offsetBytes, a.allocationCount, a.memory⟩ a :=
    ⟨rfl, rfl, rfl, rfl, rfl⟩
  obtain ⟨hresult, hafter⟩ := htwin.allocate part.bytes part.alignment out
  have hzero := allocate_zero a part.alignment out
  generalize hcall : a.allocate part.bytes part.alignment out = call at hresult hafter
  obtain ⟨⟨st, ptr⟩, a'⟩ := call
  rcases Arena.alloc_cases (a := ⟨a.base, a.capacityBytes, a.offsetBytes, a.allocationCount,
    a.memory⟩) hfit part.bytes part.alignment out with
    ⟨ptr', b, halloc, hplaced⟩ | ⟨status, ptr', hstatus, halloc⟩
  · rw [halloc] at hresult hafter
    obtain ⟨rfl, rfl⟩ := Prod.mk.inj hresult
    refine .inl ⟨ptr', a', rfl, ?_⟩
    have hbase : a'.base = a.base := hafter.base.trans (congrArg Arena.base hplaced.frame)
    have hcap : a'.capacityBytes = a.capacityBytes :=
      hafter.capacity.trans (congrArg Arena.capacity hplaced.frame)
    have hstart := hplaced.start
    have hstop := hplaced.stop
    have hfits := hplaced.fits
    rw [← hafter.offset] at hstop hfits
    dsimp only at hstart hstop hfits
    refine ⟨hbase, hcap, by omega, hfits, ?_, ?_, ?_, List.pairwise_singleton ..⟩
    · rintro r hr
      rw [List.mem_singleton.mp hr]
      exact hplaced.aligned
    · rintro r hr
      rw [List.mem_singleton.mp hr]
      intro hnone
      rw [hnone] at hcall
      exact hzero (by rw [hcall]; rfl)
    · rintro r hr
      rw [List.mem_singleton.mp hr]
      exact ⟨hstart, hstop.le⟩
  · rw [halloc] at hresult
    obtain ⟨rfl, rfl⟩ := Prod.mk.inj hresult
    rw [halloc] at hafter
    have hsame : a' = a := Twin.eq_of_twin hafter htwin
    exact .inr ⟨_, _, mt MemoryArena.toStatus_eq_ok.mp hstatus, congrArg (Prod.mk _) hsame⟩

/-! ## The containers -/

/-- Parts are reserved one after the other. -/
theorem allocateParts_cases (parts : List (StoragePart w)) {a : MemoryArena w}
    (hfit : a.base.toNat + a.capacityBytes.toNat ≤ 2 ^ w)
    (hoffset : a.offsetBytes ≤ a.capacityBytes) :
    (∃ regions a', a.allocateParts parts = ((.ok, regions), a') ∧
        regions.map Region.part = parts ∧ Reserves a regions a') ∨
      ∃ st regions a', st ≠ .ok ∧ a.allocateParts parts = ((st, regions), a') ∧
        Reserves a [] a' := by
  induction parts generalizing a with
  | nil => exact .inl ⟨[], a, rfl, rfl, .nothing hoffset⟩
  | cons part parts ih =>
    rw [MemoryArena.allocateParts]
    rcases allocate_cases hfit part (some 0) with ⟨ptr, a', hcall, hfirst⟩ | ⟨st, ptr, hst, hcall⟩
    · have hfit' : a'.base.toNat + a'.capacityBytes.toNat ≤ 2 ^ w := by
        rw [hfirst.base, hfirst.capacity]
        exact hfit
      have hoffset' : a'.offsetBytes ≤ a'.capacityBytes := hfirst.capacity.symm ▸ hfirst.fits
      simp only [hcall]
      rcases ih hfit' hoffset' with
        ⟨regions, a'', hrest, hparts, hreserves⟩ | ⟨st, regions, a'', hst, hrest, hreserves⟩
      · refine .inl ⟨⟨ptr, part⟩ :: regions, a'', by rw [hrest], ?_, hfirst.append hreserves⟩
        rw [List.map_cons, hparts]
      · -- the first part stays allocated
        exact .inr ⟨st, _, a'', hst, by rw [hrest], (hfirst.append hreserves).forget⟩
    · refine .inr ⟨st, [], a, hst, ?_, .nothing hoffset⟩
      rw [hcall]
      cases st with
      | ok => exact absurd rfl hst
      | _ => rfl

/-- **`init_from_arena`** reserves the regions that it returns. -/
theorem initFromArena_reserves (c : Container w)
    (hfit : a.base.toNat + a.capacityBytes.toNat ≤ 2 ^ w)
    (hoffset : a.offsetBytes ≤ a.capacityBytes) :
    Reserves a (c.initFromArena a).1.2 (c.initFromArena a).2 := by
  unfold Container.initFromArena
  by_cases hadmitted : c.admitted = false
  · rw [if_pos hadmitted]
    exact .nothing hoffset
  rw [if_neg hadmitted]
  rcases allocateParts_cases c.parts hfit hoffset with
    ⟨regions, a', hparts, -, hreserves⟩ | ⟨st, regions, a', hst, hparts, hreserves⟩
  · simp only [hparts, ne_eq, not_true_eq_false, if_false]
    split_ifs
    · exact hreserves.forget
    · exact hreserves
  · simp only [hparts, ne_eq, hst, not_false_eq_true, if_true]
    exact hreserves

/-- A container that is accepted has a region for each part; one that is refused has none. -/
theorem initFromArena_parts (c : Container w)
    (hfit : a.base.toNat + a.capacityBytes.toNat ≤ 2 ^ w)
    (hoffset : a.offsetBytes ≤ a.capacityBytes) :
    (c.initFromArena a).1.2.map Region.part =
      if (c.initFromArena a).1.1 = .ok then c.parts else [] := by
  unfold Container.initFromArena
  by_cases hadmitted : c.admitted = false
  · rw [if_pos hadmitted]
    rfl
  rw [if_neg hadmitted]
  rcases allocateParts_cases c.parts hfit hoffset with
    ⟨regions, a', hparts, hmap, -⟩ | ⟨st, regions, a', hst, hparts, -⟩
  · simp only [hparts, ne_eq, not_true_eq_false, if_false]
    by_cases haccepted : c.accepted = false
    · rw [if_pos haccepted]
      rfl
    · rw [if_neg haccepted]
      exact hmap
  · simp only [hparts, ne_eq, hst, not_false_eq_true, if_true, if_false]
    rfl

/-! ## The calls of the arena -/

/-- What is reserved does not depend on the contents of the memory and on the counter. -/
theorem Reserves.congr (h : Reserves a regions a') (hbase : a''.base = a'.base)
    (hcapacity : a''.capacityBytes = a'.capacityBytes)
    (hoffset : a''.offsetBytes = a'.offsetBytes) :
    Reserves a regions a'' where
  base := hbase.trans h.base
  capacity := hcapacity.trans h.capacity
  offset_le := hoffset ▸ h.offset_le
  fits := hoffset ▸ h.fits
  aligned := h.aligned
  nonempty := h.nonempty
  inside := hoffset ▸ h.inside
  disjoint := h.disjoint

/-- **`calloc`** reserves a region for all its objects or changes nothing. -/
theorem calloc_cases (hfit : a.base.toNat + a.capacityBytes.toNat ≤ 2 ^ w)
    (count size alignment : BitVec w) (out : Option (BitVec w)) :
    (∃ ptr a', a.calloc count size alignment out = ((.ok, some ptr), a') ∧
        Reserves a ((asked (.calloc count size alignment out)).map (Region.mk ptr)) a') ∨
      ∃ st ptr, st ≠ .ok ∧ a.calloc count size alignment out = ((st, ptr), a) := by
  unfold MemoryArena.calloc
  by_cases hover : count ≠ 0 ∧ mulWouldOverflow count size = true
  · exact .inr ⟨.invalid, out, by decide, if_pos hover⟩
  rw [if_neg hover]
  rcases allocate_cases hfit
      ⟨count * size, alignment, count.toNat * size.toNat, fun _ => BitVec.toNat_mul count size⟩
      out with
    ⟨ptr, a', hcall, hreserves⟩ | ⟨st, ptr, hst, hcall⟩
  · simp only [hcall]
    exact .inl ⟨ptr, _, rfl, hreserves.congr rfl rfl rfl⟩
  · refine .inr ⟨st, ptr, hst, ?_⟩
    simp only [hcall]
    cases st with
    | ok => exact absurd rfl hst
    | _ => rfl

variable {base capacity : BitVec w} {memory : BitVec w → BitVec 8} {s : Carving w}

/-- The invariant: what is in use has been reserved since the arena was empty. -/
def Inv (base capacity : BitVec w) (memory : BitVec w → BitVec 8) (s : Carving w) : Prop :=
  Reserves (.init base capacity memory) s.held s.arena

theorem Inv.fits (h : Inv base capacity memory s) (hfit : base.toNat + capacity.toNat ≤ 2 ^ w) :
    s.arena.base.toNat + s.arena.capacityBytes.toNat ≤ 2 ^ w := by
  rw [h.base, h.capacity]
  exact hfit

theorem Inv.offset_le (h : Inv base capacity memory s) :
    s.arena.offsetBytes ≤ s.arena.capacityBytes := h.capacity.symm ▸ Reserves.fits h

theorem inv_init (base capacity : BitVec w) (memory : BitVec w → BitVec 8) :
    Inv base capacity memory (init base capacity memory) :=
  .nothing (ArenaHistory.zero_le capacity)

/-- Regions that are reserved now come on top. -/
theorem Inv.reserve (h : Inv base capacity memory s) (hmore : Reserves s.arena more a') :
    Inv base capacity memory ⟨a', more ++ s.held⟩ := (Reserves.append h hmore).reverse_append

/-- A call that fails hands out no region. -/
theorem keep_refused (held : List (Region w)) (call : ArenaHistory.Call w) {st : Status}
    (hst : st ≠ .ok) (ptr : Option (BitVec w)) : keep held call (.block st ptr) = held := by
  cases st with
  | ok => exact absurd rfl hst
  | _ => rfl

/-- **A step** of a container or a caller keeps the invariant. -/
theorem Inv.step (h : Inv base capacity memory s) (hfit : base.toNat + capacity.toNat ≤ 2 ^ w)
    (c : Call w) : Inv base capacity memory (step s c).2 := by
  cases c with
  | initFromArena container =>
    exact h.reserve (initFromArena_reserves container (h.fits hfit) h.offset_le)
  | of call =>
    unfold Carving.step MemoryArena.call
    cases call with
    | alloc size alignment out =>
      rcases allocate_cases (h.fits hfit) (.block size alignment) out with
        ⟨ptr, a', hcall, hreserves⟩ | ⟨st, ptr, hst, hcall⟩
      · change s.arena.allocate size alignment out = _ at hcall
        simp only [hcall, keep]
        exact h.reserve hreserves
      · change s.arena.allocate size alignment out = _ at hcall
        simp only [hcall, keep_refused s.held _ hst]
        exact h
    | calloc count size alignment out =>
      rcases calloc_cases (h.fits hfit) count size alignment out with
        ⟨ptr, a', hcall, hreserves⟩ | ⟨st, ptr, hst, hcall⟩
      · simp only [hcall, keep]
        exact h.reserve hreserves
      · simp only [hcall, keep_refused s.held _ hst]
        exact h
    | reset =>
      -- the arena is empty again, and nobody may use its storage
      have hempty : Reserves (.init base capacity memory) [] (.init base capacity memory) :=
        inv_init base capacity memory
      exact hempty.congr h.base h.capacity rfl
    | write addr byte => exact Reserves.congr h rfl rfl rfl

/-- **A step** leaves the parts in use that its status says. -/
theorem Inv.inUse_eq (h : Inv base capacity memory s) (hfit : base.toNat + capacity.toNat ≤ 2 ^ w)
    (c : Call w) :
    (Carving.step s c).2.held.map Region.part =
      inUse (s.held.map Region.part) (c, (Carving.step s c).1) := by
  cases c with
  | initFromArena container =>
    have hparts := initFromArena_parts container (h.fits hfit) h.offset_le
    simp only [Carving.step, inUse, List.map_append, Option.some.injEq, hparts]
    split_ifs
    · rfl
    · rfl
  | of call =>
    cases call with
    | alloc size alignment out =>
      unfold Carving.step MemoryArena.call
      rcases allocate_cases (h.fits hfit) (.block size alignment) out with
        ⟨ptr, a', hcall, -⟩ | ⟨st, ptr, hst, hcall⟩
      · change s.arena.allocate size alignment out = _ at hcall
        simp only [hcall]
        rfl
      · change s.arena.allocate size alignment out = _ at hcall
        simp only [hcall, keep_refused s.held _ hst, inUse, Option.some.injEq, hst, if_false]
    | calloc count size alignment out =>
      unfold Carving.step MemoryArena.call
      rcases calloc_cases (h.fits hfit) count size alignment out with
        ⟨ptr, a', hcall, -⟩ | ⟨st, ptr, hst, hcall⟩
      · simp only [hcall]
        rfl
      · simp only [hcall, keep_refused s.held _ hst, inUse, Option.some.injEq, hst, if_false]
    | reset => rfl
    | write addr byte => rfl

/-- **A run** keeps the invariant, and leaves the parts in use that its statuses say. -/
theorem Inv.final (hfit : base.toNat + capacity.toNat ≤ 2 ^ w) (calls : List (Call w))
    {s : Carving w} (h : Inv base capacity memory s) :
    Inv base capacity memory (Mealy.final Carving.step s calls) ∧
      (Mealy.final Carving.step s calls).held.map Region.part =
        (calls.zip (Mealy.outputs Carving.step s calls)).foldl inUse (s.held.map Region.part) := by
  induction calls generalizing s with
  | nil => exact ⟨h, rfl⟩
  | cons c calls ih =>
    obtain ⟨hinv, hheld⟩ := ih (h.step hfit c)
    refine ⟨hinv, ?_⟩
    rw [Mealy.final_cons, hheld, h.inUse_eq hfit c]
    rfl

/-- Storage in use without a wrapped size is as large as what was reserved for it. -/
theorem Inv.bytes_eq (h : Inv base capacity memory s) (hr : r ∈ s.held)
    (hlt : r.part.used < 2 ^ w) :
    r.part.bytes.toNat = r.part.used :=
  (r.part.exact (Reserves.nonempty h r hr)).trans (Nat.mod_eq_of_lt hlt)

/-- Without a wrapped size the storage in use is apart. -/
theorem Inv.apart (h : Inv base capacity memory s) (hlt : ∀ r ∈ s.held, r.part.used < 2 ^ w) :
    Apart base capacity s where
  aligned := Reserves.aligned h
  inside r hr := by
    obtain ⟨hlow, hhigh⟩ := Reserves.inside h r hr
    have hfits := Reserves.fits h
    rw [BitVec.le_def] at hfits
    rw [h.bytes_eq hr (hlt r hr)] at hhigh
    exact ⟨le_trans (Nat.le_add_right _ _) hlow, hhigh.trans (Nat.add_le_add_left hfits _)⟩
  disjoint := by
    have hpairs := List.pairwise_map.mp (Reserves.disjoint h)
    refine hpairs.imp_of_mem fun {r r'} hr hr' hdisjoint => ?_
    rw [Region.Disjoint, ← h.bytes_eq hr (hlt r hr), ← h.bytes_eq hr' (hlt r' hr')]
    exact hdisjoint

/-- A wrapped size is too large for every backing block. -/
theorem Inv.used_lt (h : Inv base capacity memory s) (hfit : base.toNat + capacity.toNat ≤ 2 ^ w)
    (hapart : Apart base capacity s) (hr : r ∈ s.held) : r.part.used < 2 ^ w := by
  by_contra hge
  have hinside := (hapart.inside r hr).2
  have hall : r.part.used = 2 ^ w := by omega
  -- the only size that would fit is the whole address space, which wraps to nothing
  have hzero := r.part.exact (Reserves.nonempty h r hr)
  rw [hall, Nat.mod_self] at hzero
  exact Reserves.nonempty h r hr (BitVec.eq_of_toNat_eq (hzero.trans BitVec.toNat_zero.symm))

/-- **Containers in one arena are apart exactly if no size wraps**: after any calls, the storage
that containers and callers use since the last reset is aligned, inside the backing block and
disjoint, if and only if what each of the parts that were granted uses fits in a word. -/
theorem carved_apart_iff (base capacity : BitVec w) (memory : BitVec w → BitVec 8)
    (hfit : base.toNat + capacity.toNat ≤ 2 ^ w) (calls : List (Call w)) :
    Apart base capacity (Mealy.final step (init base capacity memory) calls) ↔
      ∀ part ∈ (calls.zip (Mealy.outputs step (init base capacity memory) calls)).foldl inUse [],
        part.used < 2 ^ w := by
  obtain ⟨hinv, hheld⟩ := Inv.final hfit calls (inv_init base capacity memory)
  change _ = List.foldl inUse [] _ at hheld
  rw [← hheld, List.forall_mem_map]
  constructor
  · intro hapart r hr
    exact hinv.used_lt hfit hapart hr
  · exact hinv.apart

/-- Containers side by side; a container whose size wraps is granted four bytes for all its
objects. -/
theorem carved_apart_iff_words :
    Apart 0x1001 0x40 (Mealy.final step (init (0x1001 : BitVec 64) 0x40 fun _ => 0)
        [.initFromArena (.bitset 9), .initFromArena (.vector 3 halfType),
          .initFromArena (.doubleBuffer 8 halfType), .of (.calloc 2 4 4 (some 0))]) ∧
      ¬ Apart 0x1001 0x40 (Mealy.final step (init (0x1001 : BitVec 64) 0x40 fun _ => 0)
        [.initFromArena (.bitset 9), .initFromArena (.vector 0x4000000000000001 halfType)]) :=
  ⟨(carved_apart_iff 0x1001 0x40 (fun _ => 0) (by decide) _).mpr (by decide +kernel),
    fun h => absurd ((carved_apart_iff 0x1001 0x40 (fun _ => 0) (by decide) _).mp h)
      (by decide +kernel)⟩

end Carving

end Memkit
