import Mathlib.Order.Basic
import Mathlib.Tactic

/-! # Integral types

The integer types of C++ with their arithmetic. Operands narrower than `int` are promoted to it; an
unsigned result is reduced to its type, a signed result must fit its type; a conversion reduces to
the type it goes to.

* **`IntegralType`** — `bool`, and the signed and unsigned types of each width.
* **`Value`** — an integer that the type holds.
* **`convert`** — `static_cast`.
* **`evaluate`**, **`quotient`** — what an operator gives in the promoted type, or how it fails. -/

/-- The widths of the integer types. -/
inductive IntWidth
  | w8
  | w16
  | w32
  | w64
  deriving DecidableEq

/-- The number of bits. -/
def IntWidth.bits : IntWidth → ℕ
  | .w8 => 8
  | .w16 => 16
  | .w32 => 32
  | .w64 => 64

/-- An integral type. -/
inductive IntegralType
  | bool
  | int (signed : Bool) (width : IntWidth)
  deriving DecidableEq

/-- How an arithmetic operation fails. -/
inductive ArithmeticFault
  /-- The result of a signed operation does not fit. -/
  | overflow
  /-- The divisor is zero. -/
  | divideByZero
  deriving DecidableEq

namespace IntegralType

/-- The size of an object in bits. -/
def bits : IntegralType → ℕ
  | .bool => 8
  | .int _ width => width.bits

/-- The least value. -/
def lo : IntegralType → ℤ
  | .bool => 0
  | .int false _ => 0
  | .int true width => -2 ^ (width.bits - 1)

/-- The greatest value. -/
def hi : IntegralType → ℤ
  | .bool => 1
  | .int false width => 2 ^ width.bits - 1
  | .int true width => 2 ^ (width.bits - 1) - 1

/-- The type holds an integer. -/
def Holds (τ : IntegralType) (v : ℤ) : Prop := τ.lo ≤ v ∧ v ≤ τ.hi

instance (τ : IntegralType) (v : ℤ) : Decidable (τ.Holds v) :=
  inferInstanceAs (Decidable (_ ∧ _))

/-- A value of the type. -/
abbrev Value (τ : IntegralType) := {v : ℤ // τ.Holds v}

/-- Whether the type has a sign. -/
def isSigned : IntegralType → Bool
  | .bool => false
  | .int signed _ => signed

/-- The integer that a conversion to the type gives. -/
def reduce : IntegralType → ℤ → ℤ
  | .bool, v => if v = 0 then 0 else 1
  | .int signed width, v =>
    (v - (IntegralType.int signed width).lo) % 2 ^ width.bits + (IntegralType.int signed width).lo

/-- The type that operands of a type are promoted to. -/
def promote : IntegralType → IntegralType
  | .bool => .int true .w32
  | .int signed width => if width.bits < 32 then .int true .w32 else .int signed width

variable {τ : IntegralType} {v : ℤ} {signed : Bool} {width : IntWidth}

/-! ## Ranges -/

theorem hi_int (signed : Bool) (width : IntWidth) :
    (int signed width).hi = (int signed width).lo + 2 ^ width.bits - 1 := by
  cases signed with
  | false => simp [lo, hi]
  | true => cases width <;> norm_num [lo, hi, IntWidth.bits]

theorem two_pow_bits_pos (width : IntWidth) : (0 : ℤ) < 2 ^ width.bits := by positivity

theorem lo_nonpos (τ : IntegralType) : τ.lo ≤ 0 := by
  rcases τ with _ | ⟨_ | _, width⟩
  · exact le_rfl
  · exact le_rfl
  · exact neg_nonpos.mpr (by positivity)

theorem one_le_hi (τ : IntegralType) : 1 ≤ τ.hi := by
  rcases τ with _ | ⟨_ | _, _ | _ | _ | _⟩ <;> norm_num [hi, IntWidth.bits]

theorem holds_zero (τ : IntegralType) : τ.Holds 0 :=
  ⟨lo_nonpos τ, zero_le_one.trans (one_le_hi τ)⟩

/-- What lies between two values is a value. -/
theorem Holds.between {a b : ℤ} (ha : τ.Holds a) (hb : τ.Holds b) (hav : a ≤ v) (hvb : v ≤ b) :
    τ.Holds v :=
  ⟨ha.1.trans hav, hvb.trans hb.2⟩

/-- A promotion keeps every value. -/
theorem Holds.promote (h : τ.Holds v) : τ.promote.Holds v := by
  rcases τ with _ | ⟨_ | _, _ | _ | _ | _⟩ <;>
    simp [Holds, IntegralType.promote, lo, hi, IntWidth.bits] at h ⊢ <;> omega

/-! ## Conversions -/

theorem holds_reduce (τ : IntegralType) (v : ℤ) : τ.Holds (τ.reduce v) := by
  cases τ with
  | bool =>
    rw [reduce]
    split <;> decide
  | int signed width =>
    have hpos := two_pow_bits_pos width
    have hge := Int.emod_nonneg (v - (int signed width).lo) hpos.ne'
    have hlt := Int.emod_lt_of_pos (v - (int signed width).lo) hpos
    have hhi := hi_int signed width
    unfold Holds reduce
    constructor <;> linarith

/-- What the type holds is kept. -/
theorem reduce_of_holds (h : τ.Holds v) : τ.reduce v = v := by
  cases τ with
  | bool =>
    obtain ⟨hlo, hhi⟩ := h
    change 0 ≤ v at hlo
    change v ≤ 1 at hhi
    rw [reduce]
    split <;> omega
  | int signed width =>
    have hhi := hi_int signed width
    have hge : 0 ≤ v - (int signed width).lo := by linarith [h.1]
    have hlt : v - (int signed width).lo < 2 ^ width.bits := by linarith [h.2]
    rw [reduce, Int.emod_eq_of_lt hge hlt]
    ring

/-- Values that differ by a multiple of the modulus are converted alike. -/
theorem reduce_add_mul (signed : Bool) (width : IntWidth) (v k : ℤ) :
    (int signed width).reduce (v + k * 2 ^ width.bits) = (int signed width).reduce v := by
  rw [reduce, reduce, add_sub_right_comm, Int.add_mul_emod_self_right]

/-- `static_cast` to the type. -/
def convert (τ : IntegralType) (v : ℤ) : τ.Value := ⟨τ.reduce v, holds_reduce τ v⟩

/-- The value zero, as `T{}`. -/
def zero (τ : IntegralType) : τ.Value := ⟨0, holds_zero τ⟩

theorem convert_of_holds (h : τ.Holds v) : τ.convert v = ⟨v, h⟩ := Subtype.ext (reduce_of_holds h)

/-! ## Operators -/

/-- The result of an operator in the promoted type, from its exact value. -/
def evaluate (τ : IntegralType) (v : ℤ) : Except ArithmeticFault τ.Value :=
  if τ.isSigned then
    if h : τ.Holds v then .ok ⟨v, h⟩ else .error .overflow
  else .ok (τ.convert v)

/-- The result of a division in the promoted type. -/
def quotient (τ : IntegralType) (a b : ℤ) : Except ArithmeticFault τ.Value :=
  if b = 0 then .error .divideByZero else τ.evaluate (a.tdiv b)

theorem evaluate_of_holds (h : τ.Holds v) : τ.evaluate v = .ok ⟨v, h⟩ := by
  rw [evaluate, dif_pos h, convert_of_holds h, ite_self]

theorem evaluate_overflow (hsigned : τ.isSigned = true) (h : ¬ τ.Holds v) :
    τ.evaluate v = .error .overflow := by
  rw [evaluate, if_pos hsigned, dif_neg h]

theorem evaluate_unsigned (hsigned : τ.isSigned = false) : τ.evaluate v = .ok (τ.convert v) := by
  rw [evaluate, if_neg (by rw [hsigned]; exact Bool.false_ne_true)]

theorem quotient_of_ne {a b : ℤ} (hb : b ≠ 0) : τ.quotient a b = τ.evaluate (a.tdiv b) :=
  if_neg hb

/-- What lies between the multiples of the bounds is divided into the type. -/
theorem holds_tdiv {a : ℤ} {n : ℕ} (hlo : τ.lo * n ≤ a) (hhi : a ≤ τ.hi * n) :
    τ.Holds (a.tdiv n) := by
  have hle := lo_nonpos τ
  have hge := (one_le_hi τ).trans' zero_le_one
  have hn : (0 : ℤ) ≤ n := n.cast_nonneg
  rcases hn.eq_or_lt with hzero | hpos
  · rw [← hzero, Int.tdiv_zero]
    exact holds_zero τ
  · rcases le_total 0 a with ha | ha
    · rw [Int.tdiv_eq_ediv_of_nonneg ha]
      exact ⟨hle.trans (Int.ediv_nonneg ha hn), Int.ediv_le_of_le_mul hpos hhi⟩
    · have hneg : 0 ≤ -a := neg_nonneg.mpr ha
      have hdiv : a.tdiv n = -((-a) / n) := by
        rw [← Int.tdiv_eq_ediv_of_nonneg hneg, Int.neg_tdiv, neg_neg]
      have hbound : (-a) / n ≤ -τ.lo := Int.ediv_le_of_le_mul hpos (by linarith)
      have hnonneg := Int.ediv_nonneg hneg hn
      rw [hdiv]
      constructor <;> linarith

theorem quotient_zero (a : ℤ) : τ.quotient a 0 = .error .divideByZero := if_pos rfl

/-- `a - b` for values of a type, converted back to it. -/
def sub (τ : IntegralType) (a b : τ.Value) : Except ArithmeticFault τ.Value :=
  (τ.promote.evaluate (a.val - b.val)).map fun d => τ.convert d.val

/-- A difference that the type holds is exact. -/
theorem sub_of_holds {a b : τ.Value} (h : τ.Holds (a.val - b.val)) :
    τ.sub a b = .ok ⟨a.val - b.val, h⟩ := by
  rw [sub, evaluate_of_holds h.promote, Except.map, convert_of_holds h]

end IntegralType
