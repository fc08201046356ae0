import Memkit.Foundations.WrapCounter
import Mathlib.Data.BitVec
import Mathlib.Data.List.Pairwise

/-! # Records in a pool

Records of equal layout, one after the other from a base address on. The distance of two records and
the size of the pool are machine words.

* **`RecordLayout`** — the stride and the parts of a record.
* **`Sound`** — every part of every record is aligned, parts and records do not overlap, and the last
  record ends inside the pool.
* **`sound_iff`** — what this asks of the stride and the offsets alone. -/

/-- A part of a record. -/
structure RecordPart where
  offset : ℕ
  size : ℕ
  align : ℕ

/-- The layout of the records of a pool. -/
structure RecordLayout (w : ℕ) where
  stride : BitVec w
  parts : List RecordPart

namespace RecordLayout

variable {w : ℕ}

/-- Where record `i` starts, from the base on. -/
def place (l : RecordLayout w) (i : ℕ) : ℕ := i * l.stride.toNat % 2 ^ w

/-- The size of a pool. -/
def poolBytes (l : RecordLayout w) (capacity : BitVec w) : BitVec w := capacity * l.stride

/-- Every access to a record of the pool is aligned and touches that record only. -/
structure Sound (l : RecordLayout w) (base : ℕ) (capacity : BitVec w) : Prop where
  aligned : ∀ i < capacity.toNat, ∀ p ∈ l.parts, p.align ∣ base + l.place i + p.offset
  ordered : l.parts.Pairwise fun p q => p.offset + p.size ≤ q.offset
  separate : ∀ i, i + 1 < capacity.toNat → ∀ p ∈ l.parts,
    l.place i + (p.offset + p.size) ≤ l.place (i + 1)
  inside : ∀ p ∈ l.parts,
    l.place (capacity.toNat - 1) + (p.offset + p.size) ≤ (l.poolBytes capacity).toNat

/-- What soundness asks of the stride and the offsets. -/
structure Regular (l : RecordLayout w) (capacity : BitVec w) : Prop where
  ordered : l.parts.Pairwise fun p q => p.offset + p.size ≤ q.offset
  fits : ∀ p ∈ l.parts, p.offset + p.size ≤ l.stride.toNat
  noWrap : capacity.toNat * l.stride.toNat < 2 ^ w
  offset : ∀ p ∈ l.parts, p.align ∣ p.offset
  stride : 2 ≤ capacity.toNat → ∀ p ∈ l.parts, p.align ∣ l.stride.toNat

variable {l : RecordLayout w} {capacity : BitVec w} {base i : ℕ}

theorem toNat_poolBytes (l : RecordLayout w) (capacity : BitVec w) :
    (l.poolBytes capacity).toNat = capacity.toNat * l.stride.toNat % 2 ^ w :=
  BitVec.toNat_mul ..

theorem place_zero (l : RecordLayout w) : l.place 0 = 0 := by
  rw [place, Nat.zero_mul, Nat.zero_mod]

theorem place_of_lt (h : i * l.stride.toNat < 2 ^ w) : l.place i = i * l.stride.toNat :=
  Nat.mod_eq_of_lt h

/-- A step that does not come out lower does not wrap. -/
theorem succ_mul_lt {i s m k : ℕ} (hs : s < m) (hi : i * s < m) (hk : 0 < k)
    (hstep : i * s + k ≤ (i + 1) * s % m) : (i + 1) * s < m := by
  by_contra hge
  rw [not_lt] at hge
  have hsucc : (i + 1) * s = i * s + s := Nat.succ_mul i s
  rw [Nat.mod_eq_sub_mod hge, Nat.mod_eq_of_lt (by omega)] at hstep
  omega

/-- No record of a sound pool starts at a wrapped place. -/
theorem Sound.mul_lt (h : l.Sound base capacity) {p : RecordPart} (hp : p ∈ l.parts)
    (hpos : 0 < p.offset + p.size) (hi : i < capacity.toNat) : i * l.stride.toNat < 2 ^ w := by
  induction i with
  | zero =>
    rw [Nat.zero_mul]
    exact Nat.two_pow_pos w
  | succ i ih =>
    have hlt := ih (Nat.lt_of_succ_lt hi)
    have hsep := h.separate i hi p hp
    rw [place_of_lt hlt] at hsep
    exact succ_mul_lt l.stride.isLt hlt hpos hsep

/-- **Sound pools are the regular ones**, for a base that is aligned for every part. -/
theorem sound_iff (hbase : ∀ p ∈ l.parts, p.align ∣ base) (hcap : 0 < capacity.toNat)
    {p : RecordPart} (hp : p ∈ l.parts) (hpos : 0 < p.offset + p.size) :
    l.Sound base capacity ↔ l.Regular capacity := by
  constructor
  · intro h
    have hlast : (capacity.toNat - 1) * l.stride.toNat < 2 ^ w := h.mul_lt hp hpos (by omega)
    have hpred : capacity.toNat - 1 + 1 = capacity.toNat := Nat.sub_add_cancel hcap
    have hwrap : capacity.toNat * l.stride.toNat < 2 ^ w := by
      have hin := h.inside p hp
      rw [place_of_lt hlast, toNat_poolBytes] at hin
      rw [← hpred] at hin ⊢
      exact succ_mul_lt l.stride.isLt hlast hpos (by simpa using hin)
    refine ⟨h.ordered, fun q hq => ?_, hwrap, fun q hq => ?_, fun htwo q hq => ?_⟩
    · have hin := h.inside q hq
      rw [place_of_lt hlast, toNat_poolBytes, Nat.mod_eq_of_lt hwrap] at hin
      have hsucc : (capacity.toNat - 1 + 1) * l.stride.toNat = _ := Nat.succ_mul _ _
      rw [hpred] at hsucc
      omega
    · have hzero := h.aligned 0 hcap q hq
      rw [place_zero, Nat.add_zero] at hzero
      exact (Nat.dvd_add_right (hbase q hq)).mp hzero
    · -- the second record is aligned where the first one is
      have hzero := h.aligned 0 hcap q hq
      have hone := h.aligned 1 htwo q hq
      rw [place_zero, Nat.add_zero] at hzero
      rw [place_of_lt (h.mul_lt hp hpos htwo), Nat.one_mul, Nat.add_right_comm] at hone
      exact (Nat.dvd_add_right hzero).mp hone
  · intro h
    have hlt : ∀ i < capacity.toNat, i * l.stride.toNat < 2 ^ w := fun i hi =>
      (Nat.mul_le_mul_right _ hi.le).trans_lt h.noWrap
    refine ⟨fun i hi q hq => ?_, h.ordered, fun i hi q hq => ?_, fun q hq => ?_⟩
    · rw [place_of_lt (hlt i hi)]
      apply (Nat.dvd_add_right ?_).mpr (h.offset q hq)
      rcases Nat.eq_zero_or_pos i with rfl | hpos
      · rw [Nat.zero_mul, Nat.add_zero]
        exact hbase q hq
      · exact (hbase q hq).add ((h.stride (by omega) q hq).mul_left i)
    · rw [place_of_lt (hlt i (Nat.lt_of_succ_lt hi)), place_of_lt (hlt _ hi), Nat.succ_mul]
      exact Nat.add_le_add_left (h.fits q hq) _
    · rw [place_of_lt (hlt _ (by omega)), toNat_poolBytes, Nat.mod_eq_of_lt h.noWrap]
      have hsucc : (capacity.toNat - 1 + 1) * l.stride.toNat = _ := Nat.succ_mul _ _
      rw [Nat.sub_add_cancel hcap] at hsucc
      rw [hsucc]
      exact Nat.add_le_add_left (h.fits q hq) _

end RecordLayout
