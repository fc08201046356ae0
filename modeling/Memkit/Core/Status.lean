import Memkit.Foundations.WrapCounter

/-! # Status codes and word arithmetic

`memkit::status` and the helpers of `detail/utility.hpp` that the containers call. `size_t` is
`BitVec w` for a word width `w`, so that every `+`, `-` and `&` is the wrapping machine
operation. -/

namespace Memkit

/-- The status codes of `status.hpp`, in source order. -/
inductive Status
  | ok
  | nullPtr
  | invalid
  | empty
  | full
  | oom
  | unsupported
  | notFound
  deriving DecidableEq, Repr

/-- `is_power_of_two`: `value != 0 && (value & (value - 1)) == 0`. -/
def isPowerOfTwo {w : ℕ} (value : BitVec w) : Bool :=
  value != 0 && (value &&& (value - 1)) == 0

/-- `is_power_of_two` accepts exactly the powers of two that fit the word. -/
theorem isPowerOfTwo_iff {w : ℕ} (value : BitVec w) :
    isPowerOfTwo value = true ↔ ∃ k < w, value.toNat = 2 ^ k := by
  by_cases hv : value = 0
  · subst hv
    have hpow : ∀ k, (0 : ℕ) ≠ 2 ^ k := fun k => (Nat.two_pow_pos k).ne
    simp [isPowerOfTwo, hpow]
  · have hne : (value != 0) = true := by simpa using hv
    rw [← WrapCounter.and_sub_one_eq_zero_iff hv, isPowerOfTwo, hne, Bool.true_and, beq_iff_eq]

end Memkit
