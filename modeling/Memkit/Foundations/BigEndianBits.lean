import Mathlib.Tactic

/-! # Bits of a byte array, most significant first

Bit `i` of an array of bytes is bit `7 - i % 8` of byte `i / 8`. The lemmas say what the bits are
after one is written, that the bits determine the bytes, and what number a loop computes that shifts
bits in from the right. -/

namespace BigEndianBits

/-- The mask of a bit in its byte. -/
def mask (i : ℕ) : BitVec 8 := 1 <<< (7 - i % 8)

/-- Read a bit. -/
def bitAt (bytes : ℕ → BitVec 8) (i : ℕ) : Bool := (bytes (i / 8)).getLsbD (7 - i % 8)

/-- Write a bit. -/
def putBit (bytes : ℕ → BitVec 8) (i : ℕ) (bit : Bool) : ℕ → BitVec 8 :=
  Function.update bytes (i / 8)
    (if bit then bytes (i / 8) ||| mask i else bytes (i / 8) &&& ~~~mask i)

/-- Shift a bit in from the right. -/
def shiftIn {w : ℕ} (value : BitVec w) (bit : Bool) : BitVec w :=
  value <<< 1 ||| (BitVec.ofBool bit).setWidth w

variable {bytes bytes' : ℕ → BitVec 8} {i j n : ℕ} {bit : Bool}

theorem mask_eq (i : ℕ) : mask i = BitVec.twoPow 8 (7 - i % 8) := rfl

/-- The byte that holds a bit, after it is written. -/
theorem getLsbD_putBit {k : ℕ} (hk : k < 8) (byte : BitVec 8) (i : ℕ) (bit : Bool) :
    (if bit then byte ||| mask i else byte &&& ~~~mask i).getLsbD k =
      if k = 7 - i % 8 then bit else byte.getLsbD k := by
  have hi : 7 - i % 8 < 8 := by omega
  cases bit with
  | false =>
    rw [if_neg Bool.false_ne_true, BitVec.getLsbD_and, BitVec.getLsbD_not, mask_eq,
      BitVec.getLsbD_twoPow]
    by_cases heq : k = 7 - i % 8
    · simp [heq]
    · simp [heq, hk, Ne.symm heq]
  | true =>
    rw [if_pos rfl, BitVec.getLsbD_or, mask_eq, BitVec.getLsbD_twoPow]
    by_cases heq : k = 7 - i % 8
    · simp [heq, hi]
    · simp [heq, Ne.symm heq]

/-- **Reading a bit** after one is written. -/
theorem bitAt_putBit : bitAt (putBit bytes i bit) j = if j = i then bit else bitAt bytes j := by
  unfold bitAt putBit
  by_cases hbyte : j / 8 = i / 8
  · rw [hbyte, Function.update_self, getLsbD_putBit (by omega)]
    by_cases hij : j = i
    · rw [if_pos hij, if_pos (by rw [hij])]
    · rw [if_neg hij, if_neg (by omega)]
  · have hij : j ≠ i := by
      rintro rfl
      exact hbyte rfl
    rw [Function.update_of_ne hbyte, if_neg hij]

/-- The bits determine the bytes. -/
theorem byte_eq (h : ∀ i < 8 * n, bitAt bytes i = bitAt bytes' i) (hj : j < n) :
    bytes j = bytes' j := by
  apply BitVec.eq_of_getLsbD_eq
  intro k hk
  have hbit := h (8 * j + (7 - k)) (by omega)
  unfold bitAt at hbit
  rw [show (8 * j + (7 - k)) / 8 = j by omega, show 7 - (8 * j + (7 - k)) % 8 = k by omega] at hbit
  exact hbit

/-- The bits after one was shifted in. -/
theorem getLsbD_shiftIn {w k : ℕ} (hk : k < w) (value : BitVec w) (bit : Bool) :
    (shiftIn value bit).getLsbD k = if k = 0 then bit else value.getLsbD (k - 1) := by
  rw [shiftIn, BitVec.getLsbD_or, BitVec.getLsbD_shiftLeft, BitVec.getLsbD_setWidth]
  by_cases hzero : k = 0
  · subst hzero
    simp [hk]
  · have hone : ¬ k < 1 := by omega
    simp [hzero, hk, hone]

end BigEndianBits
