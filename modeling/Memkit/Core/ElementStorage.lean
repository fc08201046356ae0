import Memkit.Core.Status

/-! # Configurations of boxes with one block of elements

`stack_box` and `pqueue_box` of `c_api` check their configurations alike.

* **`ElementConfig`** — the members that they check, apart from `elem_size`.
* **`validateElementConfig`** — the check. -/

namespace Memkit

variable {w : ℕ}

/-- The bits about storage in the flags of a configuration and in `c_flags_`. -/
structure ElementFlags where
  /-- `OWNS_STORAGE`. -/
  ownsStorage : Bool
  /-- `DYNAMIC_STORAGE`. -/
  dynamicStorage : Bool
  /-- `ARENA_STORAGE`. -/
  arenaStorage : Bool
  deriving DecidableEq, Repr

namespace ElementFlags

/-- `config->flags` without the bits about storage: how every `init` starts `c_flags_`. -/
def cleared : ElementFlags := ⟨false, false, false⟩

/-- `wants_stack_storage`, `wants_pqueue_storage`. -/
def wantsStorage (flags : ElementFlags) : Bool :=
  flags.ownsStorage || flags.dynamicStorage || flags.arenaStorage

end ElementFlags

/-- The members of a configuration that tell of its storage. -/
structure ElementConfig (w : ℕ) where
  /-- `capacity`. -/
  capacity : BitVec w
  /-- `storage`, which may be null. -/
  storage : Option ℕ
  /-- `storage_bytes`. -/
  storageBytes : BitVec w
  /-- `arena`, which may be null. -/
  arena : Option ℕ
  /-- `flags`. -/
  flags : ElementFlags
  deriving DecidableEq, Repr

/-- `validate_config`; `none` is a null pointer. -/
def validateElementConfig (elemSize : BitVec w) : Option (ElementConfig w) → Status
  | none => .nullPtr
  | some config =>
    if elemSize = 0 then .invalid
    else if config.storage = none ∧ config.capacity = 0 ∧ config.arena = none ∧
        config.flags.dynamicStorage = false then .invalid
    else if config.storage = none ∧ config.flags.wantsStorage = false ∧ config.arena = none then
      .invalid
    else if config.storage ≠ none then
      if config.capacity = 0 then .invalid
      else if config.storageBytes < elemSize * config.capacity then .invalid
      else .ok
    else .ok

/-- What a configuration that is accepted has. -/
theorem validateElementConfig_ok {elemSize : BitVec w} {config : ElementConfig w}
    (h : validateElementConfig elemSize (some config) = .ok) :
    elemSize ≠ 0 ∧ (config.storage ≠ none →
      config.capacity ≠ 0 ∧ elemSize * config.capacity ≤ config.storageBytes) := by
  unfold validateElementConfig at h
  dsimp only at h
  split at h
  · cases h
  next helem =>
  refine ⟨helem, fun hstorage => ?_⟩
  rw [if_neg fun hnone => hstorage hnone.1, if_neg fun hnone => hstorage hnone.1,
    if_pos hstorage] at h
  split at h
  · cases h
  next hcapacity =>
  split at h
  · cases h
  next hbytes => exact ⟨hcapacity, BitVec.not_lt.mp hbytes⟩

end Memkit
