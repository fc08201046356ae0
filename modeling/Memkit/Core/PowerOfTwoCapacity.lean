import Memkit.Core.Status

/-! # Power-of-two capacities

The lock-free queues accept a capacity of at least two that is a power of two, and reduce their
free-running positions to cells with `position & mask_`. `PowerOfTwoCapacity` carries the checks of
`init` with the two members; the lemmas say what the reduction computes. -/

namespace Memkit

/-- The members `capacity_` and `mask_`, with the checks that `init` made on them. -/
structure PowerOfTwoCapacity (w : ℕ) where
  /-- `capacity_`. -/
  capacity : BitVec w
  /-- `mask_`. -/
  mask : BitVec w
  capacity_ge : 2 ≤ capacity.toNat
  capacity_pow : isPowerOfTwo capacity = true
  mask_eq : mask = capacity - 1

namespace PowerOfTwoCapacity

variable {w : ℕ}

/-- The members after the checks of `init`. -/
def ofChecks {hasStorage : Bool} {capacityPow2 : BitVec w}
    (h : hasStorage = true ∧ 2 ≤ capacityPow2.toNat ∧ isPowerOfTwo capacityPow2 = true) :
    PowerOfTwoCapacity w :=
  ⟨capacityPow2, capacityPow2 - 1, h.2.1, h.2.2, rfl⟩

/-- The smallest capacity. -/
def two : PowerOfTwoCapacity 64 := ⟨2, 1, by decide, by decide, by decide⟩

/-- The capacity as a number. -/
def cap (c : PowerOfTwoCapacity w) : ℕ := c.capacity.toNat

/-- The reduction `position & mask_`. -/
def index (c : PowerOfTwoCapacity w) (position : BitVec w) : ℕ := (position &&& c.mask).toNat

theorem cap_ge (c : PowerOfTwoCapacity w) : 2 ≤ c.cap := c.capacity_ge

theorem cap_lt (c : PowerOfTwoCapacity w) : c.cap < 2 ^ w := c.capacity.isLt

/-- The capacity is a power of two below the word size and the mask is one less. -/
theorem exists_log (c : PowerOfTwoCapacity w) :
    ∃ k ≤ w, c.cap = 2 ^ k ∧ c.mask.toNat = 2 ^ k - 1 := by
  obtain ⟨k, hk, hcap⟩ := (isPowerOfTwo_iff c.capacity).mp c.capacity_pow
  have hone : (1 : BitVec w).toNat = 1 := BitVec.toNat_one (by omega)
  refine ⟨k, hk.le, hcap, ?_⟩
  have hle : (1 : BitVec w) ≤ c.capacity := by
    rw [BitVec.le_def, hone]
    exact le_trans (by norm_num) c.capacity_ge
  rw [c.mask_eq, BitVec.toNat_sub_of_le hle, hone, hcap]

/-- A position word picks the cell of its exact count modulo the capacity. -/
theorem index_ofNat (c : PowerOfTwoCapacity w) (n : ℕ) :
    c.index (BitVec.ofNat w n) = n % c.cap := by
  obtain ⟨k, hk, hcap, hmask⟩ := c.exists_log
  rw [index, WrapCounter.toNat_and_mask hk hmask, hcap]

/-- A position word picks the cell of its value modulo the capacity. -/
theorem index_eq (c : PowerOfTwoCapacity w) (position : BitVec w) :
    c.index position = position.toNat % c.cap := by
  have h := c.index_ofNat position.toNat
  rwa [BitVec.ofNat_toNat, BitVec.setWidth_eq] at h

/-- Two positions less than a capacity apart use different cells. -/
theorem slot_ne (c : PowerOfTwoCapacity w) {i j : ℕ} (hij : i < j) (hlt : j < i + c.cap) :
    i % c.cap ≠ j % c.cap := by
  intro h
  exact hij.ne (WrapCounter.eq_of_mod_eq hij.le (by omega) h)

/-- Two counts at most a capacity apart have different words. -/
theorem ofNat_ne (c : PowerOfTwoCapacity w) {a b : ℕ} (hab : a < b) (hle : b ≤ a + c.cap) :
    BitVec.ofNat w a ≠ BitVec.ofNat w b := by
  intro h
  have hcap := c.cap_lt
  exact hab.ne ((WrapCounter.ofNat_eq_iff hab.le (by omega)).mp h)

end PowerOfTwoCapacity

end Memkit
