import Memkit.Tables.LookupQueries

/-! # Interpolation between integral points

`interpolate` of `containers/lookup_table.hpp` for integral keys and values computes
`y0 + delta * (x - x0) / (x1 - x0)` with the differences converted to the value type first. Where a
conversion or an operation changes a number, the result can leave the interval of the two values, or
the divisor can become zero.

* **`interpolateIntegral`** — the function, operation by operation.
* **`SegmentFits`** — the numbers fit: then the result is sound.
* **`fits_of_segment_sound`** — at a key, between equal values, and where the gap of the keys is a
  value of `Y`, nothing else is.
* **`interpolation_sound`** — the same of whole tables. -/

namespace Memkit

open IntegralType

/-- The last three operations of `interpolate`, on the converted differences. -/
def interpolateTail (Y : IntegralType) (y0 delta numer denom : ℤ) :
    Except ArithmeticFault Y.Value := do
  let product ← Y.promote.evaluate (delta * numer)
  let quot ← Y.promote.quotient product.val denom
  let sum ← Y.promote.evaluate (y0 + quot.val)
  .ok (Y.convert sum.val)

/-- `interpolate` for integral `X` and `Y`. -/
def interpolateIntegral (X Y : IntegralType) (x0 : X.Value) (y0 : Y.Value) (x1 : X.Value)
    (y1 : Y.Value) (x : X.Value) : Except ArithmeticFault Y.Value :=
  if x1 = x0 then .ok y0
  else do
    let numer ← X.promote.evaluate (x.val - x0.val)
    let denom ← X.promote.evaluate (x1.val - x0.val)
    let slope ← Y.promote.evaluate (y1.val - y0.val)
    interpolateTail Y y0.val (Y.convert slope.val).val (Y.convert numer.val).val
      (Y.convert denom.val).val

/-- The operations of a table of integral keys and values. -/
def tableOps (X Y : IntegralType) : LookupOps X.Value Y.Value :=
  SortedTable.integralOps X (interpolateIntegral X Y) Y.zero

/-! ## Quotients -/

section Quotient

variable {delta n gap P : ℤ}

/-- `P` lies between zero and `delta * n`. -/
def Toward (delta n P : ℤ) : Prop :=
  (0 ≤ delta ∧ 0 ≤ P ∧ P ≤ delta * n) ∨ (delta ≤ 0 ∧ delta * n ≤ P ∧ P ≤ 0)

/-- The quotient of a number between zero and `delta * n` by a gap above `n`. -/
theorem tdiv_toward_nonneg (hn : 0 < n) (hgap : n < gap) (hdelta : 0 ≤ delta) (hP : 0 ≤ P)
    (hle : P ≤ delta * n) :
    0 ≤ P.tdiv gap ∧ P.tdiv gap ≤ delta ∧ (P.tdiv gap = delta → delta = 0) ∧
      (P.tdiv gap = 0 ↔ P < gap) := by
  have hpos : 0 < gap := hn.trans hgap
  rw [Int.tdiv_eq_ediv_of_nonneg hP]
  refine ⟨Int.ediv_nonneg hP hpos.le, ?_, fun heq => ?_, ?_⟩
  · apply Int.ediv_le_of_le_mul hpos
    exact hle.trans (mul_le_mul_of_nonneg_left hgap.le hdelta)
  · -- a positive `delta` is not reached, as `n` is below the gap
    by_contra hne
    have hless : P < delta * gap :=
      hle.trans_lt (mul_lt_mul_of_pos_left hgap (lt_of_le_of_ne hdelta (Ne.symm hne)))
    exact absurd heq (Int.ediv_lt_of_lt_mul hpos hless).ne
  · constructor
    · intro hzero
      by_contra hge
      have hone := Int.le_ediv_of_mul_le hpos (show 1 * gap ≤ P by omega)
      omega
    · exact Int.ediv_eq_zero_of_lt hP

/-- The quotient has the sign of `delta`, is less in size unless both are zero, and is zero exactly
below the gap. -/
theorem tdiv_toward (hn : 0 < n) (hgap : n < gap) (h : Toward delta n P) :
    ((0 ≤ delta ∧ 0 ≤ P.tdiv gap ∧ P.tdiv gap ≤ delta) ∨
      (delta ≤ 0 ∧ delta ≤ P.tdiv gap ∧ P.tdiv gap ≤ 0)) ∧
      (P.tdiv gap = delta → delta = 0) ∧ (P.tdiv gap = 0 ↔ |P| < gap) := by
  rcases h with ⟨hdelta, hP, hle⟩ | ⟨hdelta, hle, hP⟩
  · obtain ⟨hge, hless, hreached, hzero⟩ := tdiv_toward_nonneg hn hgap hdelta hP hle
    exact ⟨.inl ⟨hdelta, hge, hless⟩, hreached, by rw [abs_of_nonneg hP]; exact hzero⟩
  · obtain ⟨hge, hless, hreached, hzero⟩ :=
      tdiv_toward_nonneg (P := -P) hn hgap (neg_nonneg.mpr hdelta) (neg_nonneg.mpr hP)
        (by rw [neg_mul]; omega)
    rw [Int.neg_tdiv] at hge hless hreached hzero
    refine ⟨.inr ⟨hdelta, by omega, by omega⟩, by omega, ?_⟩
    rw [abs_of_nonpos hP, ← hzero]
    omega

end Quotient

/-! ## Promotions -/

section Promotion

variable {Y : IntegralType} {v : ℤ}

/-- A type that is promoted to an unsigned type is promoted to itself. -/
theorem promote_unsigned (h : Y.promote.isSigned = false) :
    Y.promote = Y ∧ ∃ width, Y = .int false width := by
  rcases Y with _ | ⟨_ | _, _ | _ | _ | _⟩ <;> first | exact ⟨rfl, _, rfl⟩ | cases h

/-- The result of an operator that does not fail. -/
theorem evaluate_eq (h : Y.promote.isSigned = true → Y.promote.Holds v) :
    Y.promote.evaluate v = .ok (Y.promote.convert v) := by
  cases hsigned : Y.promote.isSigned with
  | true => rw [evaluate_of_holds (h hsigned), convert_of_holds (h hsigned)]
  | false => exact evaluate_unsigned hsigned

/-- An operator does not fail exactly if its result is unsigned or fits. -/
theorem evaluate_ok {r : Y.promote.Value} (h : Y.promote.evaluate v = .ok r)
    (hsigned : Y.promote.isSigned = true) : Y.promote.Holds v := by
  by_contra hv
  rw [evaluate_overflow hsigned hv] at h
  cases h

/-- A conversion after the operator gives the conversion of the exact result. -/
theorem convert_promoted (h : Y.promote.isSigned = true → Y.promote.Holds v) :
    Y.convert (Y.promote.convert v).val = Y.convert v := by
  cases hsigned : Y.promote.isSigned with
  | true =>
    rw [convert_of_holds (h hsigned)]
  | false =>
    have hself := (promote_unsigned hsigned).1
    apply Subtype.ext
    change Y.reduce (Y.promote.reduce v) = Y.reduce v
    rw [hself]
    exact reduce_of_holds (holds_reduce Y v)

/-- The product of the differences lies between zero and its exact value. -/
theorem toward_product {delta n : ℤ} (hdelta : Y.Holds delta) (hn : 0 ≤ n)
    (h : Y.promote.isSigned = true → Y.promote.Holds (delta * n)) :
    Toward delta n (Y.promote.reduce (delta * n)) := by
  cases hsigned : Y.promote.isSigned with
  | true =>
    rw [reduce_of_holds (h hsigned)]
    rcases le_total 0 delta with hpos | hneg
    · exact .inl ⟨hpos, mul_nonneg hpos hn, le_rfl⟩
    · exact .inr ⟨hneg, le_rfl, mul_nonpos_of_nonpos_of_nonneg hneg hn⟩
  | false =>
    obtain ⟨hself, width, rfl⟩ := promote_unsigned hsigned
    have hpos : 0 ≤ delta := hdelta.1
    have hproduct : 0 ≤ delta * n := mul_nonneg hpos hn
    rw [hself]
    refine .inl ⟨hpos, (holds_reduce (.int false width) _).1, ?_⟩
    rw [reduce]
    change (delta * n - 0) % 2 ^ width.bits + 0 ≤ delta * n
    have hdivision := Int.emod_add_mul_ediv (delta * n) (2 ^ width.bits)
    have hwraps : 0 ≤ (2 : ℤ) ^ width.bits * (delta * n / 2 ^ width.bits) :=
      mul_nonneg (by positivity) (Int.ediv_nonneg hproduct (by positivity))
    rw [sub_zero, add_zero]
    linarith

end Promotion

/-! ## The tail -/

section Tail

variable {Y : IntegralType} {y0 y1 n gap : ℤ}

/-- The product as the code has it. -/
def wrappedProduct (Y : IntegralType) (rise n : ℤ) : ℤ := Y.promote.reduce (Y.reduce rise * n)

/-- A product of zero gives the lower value: only the divisor matters. -/
theorem interpolateTail_zero {delta numer denom : ℤ} (hy0 : Y.Holds y0) (hdenom : denom ≠ 0)
    (hproduct : delta * numer = 0) : interpolateTail Y y0 delta numer denom = .ok ⟨y0, hy0⟩ := by
  have hzero : Y.promote.evaluate (delta * numer) = .ok ⟨0, holds_zero _⟩ := by
    rw [hproduct]
    exact evaluate_of_holds (holds_zero _)
  have hquot : Y.promote.quotient 0 denom = .ok ⟨0, holds_zero _⟩ := by
    rw [quotient_of_ne hdenom, Int.zero_tdiv]
    exact evaluate_of_holds (holds_zero _)
  have hsum : Y.promote.evaluate (y0 + 0) = .ok ⟨y0, hy0.promote⟩ := by
    rw [add_zero]
    exact evaluate_of_holds hy0.promote
  rw [interpolateTail, hzero]
  change (Y.promote.quotient 0 denom >>= _) = _
  rw [hquot]
  change (Y.promote.evaluate (y0 + 0) >>= _) = _
  rw [hsum]
  exact congrArg Except.ok (convert_of_holds hy0)

/-- A divisor of zero makes the function fail. -/
theorem interpolateTail_divideByZero (Y : IntegralType) (y0 delta numer : ℤ) (v : Y.Value) :
    interpolateTail Y y0 delta numer 0 ≠ .ok v := by
  intro h
  rw [interpolateTail] at h
  cases hproduct : Y.promote.evaluate (delta * numer) with
  | error fault =>
    rw [hproduct] at h
    cases h
  | ok product =>
    rw [hproduct] at h
    have hrest : (do
        let quot ← Y.promote.quotient product.val 0
        let sum ← Y.promote.evaluate (y0 + quot.val)
        Except.ok (Y.convert sum.val)) = .ok v := h
    rw [quotient_zero] at hrest
    cases hrest

/-- Values of `bool`: every result is between the two. -/
theorem interpolateTail_bool (hy0 : IntegralType.bool.Holds y0) (hy1 : IntegralType.bool.Holds y1) :
    ∃ v, interpolateTail .bool y0 (IntegralType.bool.reduce (y1 - y0)) 1 1 = .ok v ∧
      min y0 y1 ≤ v.val ∧ v.val ≤ max y0 y1 := by
  have hcases : (y0 = 0 ∨ y0 = 1) ∧ (y1 = 0 ∨ y1 = 1) := by
    obtain ⟨hlo0, hhi0⟩ := hy0
    obtain ⟨hlo1, hhi1⟩ := hy1
    change 0 ≤ y0 at hlo0
    change y0 ≤ 1 at hhi0
    change 0 ≤ y1 at hlo1
    change y1 ≤ 1 at hhi1
    omega
  rcases hcases with ⟨rfl | rfl, rfl | rfl⟩
  · exact ⟨⟨0, by decide⟩, by decide, by decide, by decide⟩
  · exact ⟨⟨1, by decide⟩, by decide, by decide, by decide⟩
  · exact ⟨⟨1, by decide⟩, by decide, by decide, by decide⟩
  · exact ⟨⟨1, by decide⟩, by decide, by decide, by decide⟩

/-- The sum of the lower value and the quotient fits a signed promoted type. -/
theorem holds_sum {Q delta : ℤ} (hint : Y ≠ .bool) (hsigned : Y.promote.isSigned = true)
    (hy0 : Y.Holds y0) (hy1 : Y.Holds y1) (hrise : Y.promote.Holds (y1 - y0))
    (hdelta : delta = Y.reduce (y1 - y0))
    (hQ : (0 ≤ delta ∧ 0 ≤ Q ∧ Q ≤ delta) ∨ (delta ≤ 0 ∧ delta ≤ Q ∧ Q ≤ 0)) :
    Y.promote.Holds (y0 + Q) := by
  have hheld : Y.Holds delta := hdelta ▸ holds_reduce Y _
  rcases Y with _ | ⟨_ | _, _ | _ | _ | _⟩
  · exact absurd rfl hint
  -- the narrow types have room in `int`
  · simp [Holds, promote, lo, hi, IntWidth.bits] at hy0 hheld ⊢
    omega
  · simp [Holds, promote, lo, hi, IntWidth.bits] at hy0 hheld ⊢
    omega
  · cases hsigned
  · cases hsigned
  · simp [Holds, promote, lo, hi, IntWidth.bits] at hy0 hheld ⊢
    omega
  · simp [Holds, promote, lo, hi, IntWidth.bits] at hy0 hheld ⊢
    omega
  -- the wide ones hold the difference, and the sum lies between the two values
  · have hfits : (int true .w32).Holds (y1 - y0) := hrise
    rw [reduce_of_holds hfits] at hdelta
    simp [Holds, promote, lo, hi, IntWidth.bits] at hy0 hy1 ⊢
    omega
  · have hfits : (int true .w64).Holds (y1 - y0) := hrise
    rw [reduce_of_holds hfits] at hdelta
    simp [Holds, promote, lo, hi, IntWidth.bits] at hy0 hy1 ⊢
    omega

/-- Inside a segment whose gap fits the tail gives the converted sum. -/
theorem interpolateTail_inside (hint : Y ≠ .bool) (hy0 : Y.Holds y0) (hy1 : Y.Holds y1)
    (hn : 0 < n) (hless : n < gap)
    (hrise : Y.promote.isSigned = true → Y.promote.Holds (y1 - y0))
    (hproduct : Y.promote.isSigned = true → Y.promote.Holds (Y.reduce (y1 - y0) * n)) :
    interpolateTail Y y0 (Y.reduce (y1 - y0)) n gap =
      .ok (Y.convert (y0 + (wrappedProduct Y (y1 - y0) n).tdiv gap)) := by
  have htoward : Toward (Y.reduce (y1 - y0)) n (wrappedProduct Y (y1 - y0) n) :=
    toward_product (holds_reduce Y _) hn.le hproduct
  obtain ⟨hQ, -, -⟩ := tdiv_toward hn hless htoward
  set Q := (wrappedProduct Y (y1 - y0) n).tdiv gap with hQdef
  have hheld : Y.promote.Holds Q := by
    refine Holds.promote ?_
    rcases hQ with ⟨-, hlo, hhi⟩ | ⟨-, hlo, hhi⟩
    · exact (holds_zero Y).between (holds_reduce Y _) hlo hhi
    · exact (holds_reduce Y _).between (holds_zero Y) hlo hhi
  have hquot : Y.promote.quotient (wrappedProduct Y (y1 - y0) n) gap = .ok ⟨Q, hheld⟩ := by
    rw [quotient_of_ne (hn.trans hless).ne', ← hQdef, evaluate_of_holds hheld]
  have hsum : Y.promote.isSigned = true → Y.promote.Holds (y0 + Q) := fun hsigned =>
    holds_sum hint hsigned hy0 hy1 (hrise hsigned) rfl hQ
  rw [interpolateTail, evaluate_eq hproduct]
  change (Y.promote.quotient (wrappedProduct Y (y1 - y0) n) gap >>= _) = _
  rw [hquot]
  change (Y.promote.evaluate (y0 + Q) >>= _) = _
  rw [evaluate_eq hsum]
  exact congrArg Except.ok (convert_promoted hsum)

/-- The converted sum lies between the two values exactly if their difference fits `Y`, or the
quotient is zero. -/
theorem between_iff (hint : Y ≠ .bool) (hy0 : Y.Holds y0) (hy1 : Y.Holds y1) (hn : 0 < n)
    (hless : n < gap) (hproduct : Y.promote.isSigned = true →
      Y.promote.Holds (Y.reduce (y1 - y0) * n)) :
    (min y0 y1 ≤ Y.reduce (y0 + (wrappedProduct Y (y1 - y0) n).tdiv gap) ∧
      Y.reduce (y0 + (wrappedProduct Y (y1 - y0) n).tdiv gap) ≤ max y0 y1) ↔
      Y.Holds (y1 - y0) ∨ |wrappedProduct Y (y1 - y0) n| < gap := by
  -- the product as computed lies between zero and the exact one, on the side of the wrapped
  -- difference
  have htoward : Toward (Y.reduce (y1 - y0)) n (wrappedProduct Y (y1 - y0) n) :=
    toward_product (holds_reduce Y _) hn.le hproduct
  obtain ⟨hQ, hreached, hzero⟩ := tdiv_toward hn hless htoward
  rw [← hzero]
  set Q := (wrappedProduct Y (y1 - y0) n).tdiv gap
  obtain _ | ⟨signed, width⟩ := Y
  · exact absurd rfl hint
  by_cases hfits : (int signed width).Holds (y1 - y0)
  · -- the difference is exact: so is the sum, up to rounding towards the lower value
    rw [reduce_of_holds hfits] at hQ
    have hsum : (int signed width).Holds (y0 + Q) := by
      obtain ⟨hlo0, hhi0⟩ := hy0
      obtain ⟨hlo1, hhi1⟩ := hy1
      constructor <;> omega
    rw [reduce_of_holds hsum]
    exact iff_of_true (by omega) (.inl hfits)
  · -- a wrapped difference has the other sign: only a step of zero stays between the values
    rw [or_iff_right hfits]
    by_cases hQzero : Q = 0
    · rw [hQzero, add_zero, reduce_of_holds hy0]
      exact iff_of_true (by omega) rfl
    · refine iff_of_false ?_ hQzero
      have hhi := hi_int signed width
      have hpos := two_pow_bits_pos width
      have hwrap := reduce_add_mul signed width
      obtain ⟨hlo0, hhi0⟩ := hy0
      obtain ⟨hlo1, hhi1⟩ := hy1
      have hzeroHeld := holds_zero (int signed width)
      obtain ⟨hlo, hhi'⟩ := hzeroHeld
      rcases not_and_or.mp hfits with hbelow | habove
      · -- the difference wraps to a positive number: the sum is above `y0` or wraps below `y1`
        have hdelta : (int signed width).reduce (y1 - y0) = y1 - y0 + 2 ^ width.bits := by
          rw [← hwrap (y1 - y0) 1, one_mul]
          exact reduce_of_holds ⟨by omega, by omega⟩
        rw [hdelta] at hQ hreached
        by_cases hover : y0 + Q ≤ (int signed width).hi
        · rw [reduce_of_holds ⟨by omega, hover⟩]
          omega
        · have hsum : (int signed width).reduce (y0 + Q) = y0 + Q - 2 ^ width.bits := by
            rw [← hwrap (y0 + Q) (-1), neg_one_mul, ← sub_eq_add_neg]
            exact reduce_of_holds ⟨by omega, by omega⟩
          rw [hsum]
          omega
      · -- and the other way round
        have hdelta : (int signed width).reduce (y1 - y0) = y1 - y0 - 2 ^ width.bits := by
          rw [← hwrap (y1 - y0) (-1), neg_one_mul, ← sub_eq_add_neg]
          exact reduce_of_holds ⟨by omega, by omega⟩
        rw [hdelta] at hQ hreached
        by_cases hunder : (int signed width).lo ≤ y0 + Q
        · rw [reduce_of_holds ⟨hunder, by omega⟩]
          omega
        · have hsum : (int signed width).reduce (y0 + Q) = y0 + Q + 2 ^ width.bits := by
            rw [← hwrap (y0 + Q) 1, one_mul]
            exact reduce_of_holds ⟨by omega, by omega⟩
          rw [hsum]
          omega

end Tail

/-! ## One segment -/

section Segment

variable {X Y : IntegralType} {x0 x1 x : X.Value} {y0 y1 : Y.Value}

/-- What is wanted of one query in the segment from `x0` to `x1`. -/
def SegmentSound (X Y : IntegralType) (x0 : X.Value) (y0 : Y.Value) (x1 : X.Value) (y1 : Y.Value)
    (x : X.Value) : Prop :=
  ∃ v, interpolateIntegral X Y x0 y0 x1 y1 x = .ok v ∧ (x = x0 → v = y0) ∧
    (x0 < x → min y0.val y1.val ≤ v.val ∧ v.val ≤ max y0.val y1.val)

/-- The numbers of the query fit their types. -/
structure SegmentFits (X Y : IntegralType) (x0 : X.Value) (y0 : Y.Value) (x1 : X.Value)
    (y1 : Y.Value) (x : X.Value) : Prop where
  /-- The gap of the keys does not overflow. -/
  gap : X.promote.Holds (x1.val - x0.val)
  /-- The difference of the values does not overflow. -/
  rise : Y.promote.isSigned = true → Y.promote.Holds (y1.val - y0.val)
  /-- At the lower key and between equal values: the gap does not become zero as a value. -/
  divisor : x = x0 ∨ y0 = y1 → Y.reduce (x1.val - x0.val) ≠ 0
  /-- Elsewhere: the gap is a value, the product does not overflow, and the difference of the values
  is a value or the product is below the gap. -/
  inside : x0 < x → y0 ≠ y1 → Y ≠ .bool → Y.Holds (x1.val - x0.val) ∧
    (Y.promote.isSigned = true →
      Y.promote.Holds (Y.reduce (y1.val - y0.val) * (x.val - x0.val))) ∧
    (Y.Holds (y1.val - y0.val) ∨
      |wrappedProduct Y (y1.val - y0.val) (x.val - x0.val)| < x1.val - x0.val)

/-- An unsigned type holds the gap of its values. -/
theorem gap_holds_of_unsigned (hle : x0.val ≤ x1.val) (h : X.promote.isSigned = false) :
    X.promote.Holds (x1.val - x0.val) := by
  obtain ⟨hself, width, rfl⟩ := promote_unsigned h
  rw [hself]
  have hlo : 0 ≤ x0.val := x0.property.1
  have hhi := x1.property.2
  exact ⟨sub_nonneg.mpr hle, by omega⟩

/-- If the two subtractions do not overflow, the tail decides. -/
theorem interpolate_eq_tail (hle : x0.val ≤ x.val) (hlt : x.val < x1.val)
    (hgap : X.promote.Holds (x1.val - x0.val))
    (hrise : Y.promote.isSigned = true → Y.promote.Holds (y1.val - y0.val)) :
    interpolateIntegral X Y x0 y0 x1 y1 x =
      interpolateTail Y y0.val (Y.reduce (y1.val - y0.val)) (Y.reduce (x.val - x0.val))
        (Y.reduce (x1.val - x0.val)) := by
  have hne : x1 ≠ x0 := by
    intro heq
    rw [heq] at hlt
    omega
  have hnumer : X.promote.Holds (x.val - x0.val) :=
    (holds_zero _).between hgap (by omega) (by omega)
  rw [interpolateIntegral, if_neg hne, evaluate_of_holds hnumer]
  change (X.promote.evaluate (x1.val - x0.val) >>= _) = _
  rw [evaluate_of_holds hgap]
  change (Y.promote.evaluate (y1.val - y0.val) >>= _) = _
  rw [evaluate_eq hrise]
  change interpolateTail Y y0.val (Y.convert (Y.promote.convert (y1.val - y0.val)).val).val _ _ = _
  rw [convert_promoted hrise]
  rfl

/-- A result needs that the two subtractions do not overflow. -/
theorem fits_of_interpolate_ok {v : Y.Value} (hle : x0.val ≤ x.val) (hlt : x.val < x1.val)
    (h : interpolateIntegral X Y x0 y0 x1 y1 x = .ok v) :
    X.promote.Holds (x1.val - x0.val) ∧
      (Y.promote.isSigned = true → Y.promote.Holds (y1.val - y0.val)) := by
  have hne : x1 ≠ x0 := by
    intro heq
    rw [heq] at hlt
    omega
  rw [interpolateIntegral, if_neg hne] at h
  cases hnumer : X.promote.evaluate (x.val - x0.val) with
  | error fault =>
    rw [hnumer] at h
    cases h
  | ok numer =>
    cases hdenom : X.promote.evaluate (x1.val - x0.val) with
    | error fault =>
      rw [hnumer, hdenom] at h
      cases h
    | ok denom =>
      refine ⟨?_, fun hsigned => ?_⟩
      · cases hsigned : X.promote.isSigned with
        | true => exact evaluate_ok hdenom hsigned
        | false => exact gap_holds_of_unsigned (by omega) hsigned
      · cases hslope : Y.promote.evaluate (y1.val - y0.val) with
        | error fault =>
          rw [hnumer, hdenom] at h
          change (Y.promote.evaluate (y1.val - y0.val) >>= _) = _ at h
          rw [hslope] at h
          cases h
        | ok slope => exact evaluate_ok hslope hsigned

/-- At the lower key and between equal values the product is zero. -/
theorem product_eq_zero (h : x = x0 ∨ y0 = y1) :
    Y.reduce (y1.val - y0.val) * Y.reduce (x.val - x0.val) = 0 := by
  rcases h with rfl | rfl
  · rw [sub_self, reduce_of_holds (holds_zero Y), mul_zero]
  · rw [sub_self, reduce_of_holds (holds_zero Y), zero_mul]

/-- **If the numbers fit, the query is sound.** -/
theorem segment_sound_of_fits (hle : x0.val ≤ x.val) (hlt : x.val < x1.val)
    (h : SegmentFits X Y x0 y0 x1 y1 x) : SegmentSound X Y x0 y0 x1 y1 x := by
  have htail := interpolate_eq_tail hle hlt h.gap h.rise
  by_cases hflat : x = x0 ∨ y0 = y1
  · -- nothing is added to the lower value
    rw [interpolateTail_zero y0.property (h.divisor hflat) (product_eq_zero hflat)] at htail
    refine ⟨y0, htail, fun _ => rfl, fun hless => ?_⟩
    rcases hflat with rfl | rfl
    · exact absurd hless (lt_irrefl _)
    · exact ⟨min_le_left _ _, le_max_left _ _⟩
  · obtain ⟨hne, hsteep⟩ := not_or.mp hflat
    have hless : x0.val < x.val := lt_of_le_of_ne hle fun heq => hne (Subtype.ext heq.symm)
    by_cases hbool : Y = .bool
    · subst hbool
      have hnumer : IntegralType.bool.reduce (x.val - x0.val) = 1 := if_neg (by omega)
      have hdenom : IntegralType.bool.reduce (x1.val - x0.val) = 1 := if_neg (by omega)
      rw [hnumer, hdenom] at htail
      obtain ⟨v, hv, hbetween⟩ := interpolateTail_bool y0.property y1.property
      exact ⟨v, htail.trans hv, fun heq => absurd heq hne, fun _ => hbetween⟩
    · obtain ⟨hgap, hproduct, hrise⟩ := h.inside hless hsteep hbool
      have hn : Y.Holds (x.val - x0.val) := (holds_zero Y).between hgap (by omega) (by omega)
      rw [reduce_of_holds hn, reduce_of_holds hgap] at htail
      have hbetween := (between_iff hbool y0.property y1.property (by omega) (by omega)
        hproduct).mpr hrise
      rw [interpolateTail_inside hbool y0.property y1.property (by omega) (by omega) h.rise
        hproduct] at htail
      exact ⟨_, htail, fun heq => absurd heq hne, fun _ => hbetween⟩

/-- **Where the gap is a value or does not matter, a sound query fits.** -/
theorem fits_of_segment_sound (hle : x0.val ≤ x.val) (hlt : x.val < x1.val)
    (hrange : x0 < x → y0 ≠ y1 → Y ≠ .bool → Y.Holds (x1.val - x0.val))
    (h : SegmentSound X Y x0 y0 x1 y1 x) : SegmentFits X Y x0 y0 x1 y1 x := by
  obtain ⟨v, hok, -, hbetween⟩ := h
  obtain ⟨hgap, hrise⟩ := fits_of_interpolate_ok hle hlt hok
  have htail := interpolate_eq_tail hle hlt hgap hrise
  rw [hok] at htail
  refine ⟨hgap, hrise, fun _ hzero => ?_, fun hless hsteep hint => ?_⟩
  · rw [hzero] at htail
    exact interpolateTail_divideByZero Y _ _ _ v htail.symm
  · have hless' : x0.val < x.val := hless
    have hheld := hrange hless hsteep hint
    have hn : Y.Holds (x.val - x0.val) := (holds_zero Y).between hheld (by omega) (by omega)
    rw [reduce_of_holds hn, reduce_of_holds hheld] at htail
    have hproduct : Y.promote.isSigned = true →
        Y.promote.Holds (Y.reduce (y1.val - y0.val) * (x.val - x0.val)) := by
      intro hsigned
      rw [interpolateTail] at htail
      cases hp : Y.promote.evaluate (Y.reduce (y1.val - y0.val) * (x.val - x0.val)) with
      | error fault =>
        rw [hp] at htail
        cases htail
      | ok product => exact evaluate_ok hp hsigned
    rw [interpolateTail_inside hint y0.property y1.property (by omega) (by omega) hrise
      hproduct] at htail
    have hsound := hbetween hless
    rw [Except.ok.inj htail] at hsound
    exact ⟨hheld, hproduct, (between_iff hint y0.property y1.property (by omega) (by omega)
      hproduct).mp hsound⟩

/-- A gap that is zero as a value makes the query fail. -/
theorem not_sound_of_gap_zero (hle : x0.val ≤ x.val) (hlt : x.val < x1.val)
    (hzero : Y.reduce (x1.val - x0.val) = 0) : ¬ SegmentSound X Y x0 y0 x1 y1 x := by
  rintro ⟨v, hok, -, -⟩
  obtain ⟨hgap, hrise⟩ := fits_of_interpolate_ok hle hlt hok
  have htail := interpolate_eq_tail hle hlt hgap hrise
  rw [hok, hzero] at htail
  exact interpolateTail_divideByZero Y _ _ _ v htail.symm

end Segment

/-! ## Tables -/

section Table

open SortedTable

variable {w : ℕ} {X Y : IntegralType}

/-- What is wanted of a query in interpolate mode: no operation fails, a stored key has its value,
and between two neighbours the result is between theirs. -/
def QuerySound (t : SortedTable w X.Value Y.Value) (x : X.Value) : Prop :=
  ∃ v, t.atKey (tableOps X Y) x = .ok v ∧ (∀ i < t.size, t.keys i = x → v = t.values i) ∧
    ∀ i, i + 1 < t.size → t.keys i < x → x < t.keys (i + 1) →
      min (t.values i).val (t.values (i + 1)).val ≤ v.val ∧
        v.val ≤ max (t.values i).val (t.values (i + 1)).val

/-- A property of the segment that the query is interpolated in, if there is one. -/
def OnSegment (t : SortedTable w X.Value Y.Value) (x : X.Value)
    (P : X.Value → Y.Value → X.Value → Y.Value → X.Value → Prop) : Prop :=
  ∀ i, i + 1 < t.size → t.keys 0 < x → t.keys i ≤ x → x < t.keys (i + 1) →
    P (t.keys i) (t.values i) (t.keys (i + 1)) (t.values (i + 1)) x

/-- The numbers of the query fit their types. -/
def QueryFits (t : SortedTable w X.Value Y.Value) (x : X.Value) : Prop :=
  OnSegment t x (SegmentFits X Y)

/-- The gap of the keys around the query is a value of `Y`, unless the query is at a key or between
equal values. -/
def GapIsValue (t : SortedTable w X.Value Y.Value) (x : X.Value) : Prop :=
  OnSegment t x fun x0 y0 x1 y1 x => x0 < x → y0 ≠ y1 → Y ≠ .bool → Y.Holds (x1.val - x0.val)

/-- The segment of a query is unique. -/
theorem segment_unique {t : SortedTable w X.Value Y.Value} {x : X.Value} {i j : ℕ}
    (hi : i + 1 < t.size) (hj : j + 1 < t.size) (hilo : t.keys i ≤ x) (hihi : x < t.keys (i + 1))
    (hjlo : t.keys j ≤ x) (hjhi : x < t.keys (j + 1)) : i = j := by
  have hij : i < j + 1 := index_lt_of_key_lt (by omega) (hilo.trans_lt hjhi)
  have hji : j < i + 1 := index_lt_of_key_lt (by omega) (hjlo.trans_lt hihi)
  omega

/-- **A query is sound** exactly if it is sound on its segment. -/
theorem query_sound_iff (t : SortedTable w X.Value Y.Value) (hmode : t.mode = .interpolate)
    (x : X.Value) : QuerySound t x ↔ OnSegment t x (SegmentSound X Y) := by
  rcases range_cases t x with hfirst | hlast | ⟨hfirst, hlast⟩
  · -- below the first key the clamp answers
    refine iff_of_true ⟨t.values 0, atKey_first hfirst, fun i hi hkey => ?_, fun i hi hlo => ?_⟩
      fun i _ habove => absurd habove (not_lt.mpr hfirst)
    · rw [index_eq hi t.size_pos (le_antisymm (hkey.trans_le hfirst) (key_le (Nat.zero_le i) hi))]
    · exact absurd (hlo.trans_le hfirst) (not_lt.mpr (key_le (Nat.zero_le i) (by omega)))
  · refine iff_of_true ⟨t.values t.last, atKey_last hlast, fun i hi hkey => ?_,
      fun i hi _ hhi => ?_⟩ fun i hi _ _ hhi => ?_
    · have hle : i ≤ t.last := by
        rw [last]
        omega
      rw [index_eq hi t.last_lt (le_antisymm (key_le hle t.last_lt) (hlast.trans_eq hkey.symm))]
    · exact absurd (hlast.trans_lt hhi) (not_lt.mpr (key_le (by rw [last]; omega) t.last_lt))
    · exact absurd (hlast.trans_lt hhi) (not_lt.mpr (key_le (by rw [last]; omega) t.last_lt))
  · -- between the ends the search has one segment, and the table says what the segment says
    obtain ⟨lo, hi, h, hat⟩ := atKey_inside (tableOps X Y) hfirst hlast
    have hnext : lo.toNat + 1 < t.size := h.next ▸ h.hi_lt
    have hhi : x < t.keys (lo.toNat + 1) := h.next ▸ h.lt_hi
    rw [h.between_interpolate hmode, h.next] at hat
    constructor
    · rintro ⟨v, hv, hstored, hbetween⟩ i hi' - hilo hihi
      obtain rfl := segment_unique hi' hnext hilo hihi h.lo_le hhi
      rw [hat] at hv
      change Except.mapError _ (interpolateIntegral X Y _ _ _ _ x) = _ at hv
      cases hresult : interpolateIntegral X Y (t.keys lo.toNat) (t.values lo.toNat)
          (t.keys (lo.toNat + 1)) (t.values (lo.toNat + 1)) x with
      | error fault =>
        rw [hresult] at hv
        cases hv
      | ok u =>
        rw [hresult] at hv
        obtain rfl := Except.ok.inj hv
        exact ⟨u, hresult, fun heq => hstored _ h.lo_lt heq.symm,
          fun hless => hbetween _ hnext hless hhi⟩
    · intro hsound
      obtain ⟨v, hv, hstored, hbetween⟩ := hsound lo.toNat hnext hfirst h.lo_le hhi
      refine ⟨v, ?_, fun i hi' hkey => ?_, fun i hi' hilo hihi => ?_⟩
      · rw [hat]
        change Except.mapError _ (interpolateIntegral X Y _ _ _ _ x) = _
        rw [hv]
        rfl
      · have hless : i < lo.toNat + 1 := index_lt_of_key_lt hi' (hkey.trans_lt hhi)
        have hle : lo.toNat ≤ i := index_le_of_key_le h.lo_lt (hkey ▸ h.lo_le)
        obtain rfl : i = lo.toNat := by omega
        exact hstored hkey.symm
      · obtain rfl := segment_unique hi' hnext hilo.le hihi h.lo_le hhi
        exact hbetween hilo

/-- **Interpolation is sound where the numbers fit**, and only there at a key, between equal values
and as far as the gap of the keys is a value of `Y`; a gap that is zero as a value of `Y` is a
division by zero. -/
theorem interpolation_sound (t : SortedTable w X.Value Y.Value) (hmode : t.mode = .interpolate)
    (x : X.Value) :
    (QueryFits t x → QuerySound t x) ∧
      (GapIsValue t x → (QuerySound t x ↔ QueryFits t x)) ∧
      ∀ i, i + 1 < t.size → t.keys 0 < x → t.keys i ≤ x → x < t.keys (i + 1) →
        Y.reduce ((t.keys (i + 1)).val - (t.keys i).val) = 0 → ¬ QuerySound t x := by
  rw [query_sound_iff t hmode x]
  refine ⟨fun hfits i hi habove hlo hhi => ?_, fun hgap => ⟨fun hsound i hi habove hlo hhi => ?_,
    fun hfits i hi habove hlo hhi => ?_⟩, fun i hi habove hlo hhi hzero hsound => ?_⟩
  · exact segment_sound_of_fits hlo hhi (hfits i hi habove hlo hhi)
  · exact fits_of_segment_sound hlo hhi (hgap i hi habove hlo hhi) (hsound i hi habove hlo hhi)
  · exact segment_sound_of_fits hlo hhi (hfits i hi habove hlo hhi)
  · exact not_sound_of_gap_zero hlo hhi hzero (hsound i hi habove hlo hhi)

/-- 15 lies between 10 and 20, and its numbers fit `std::int32_t`. -/
theorem interpolation_sound_fourPoints :
    QuerySound (fourPoints .interpolate) (int32.convert 15) := by
  refine (interpolation_sound (fourPoints .interpolate) rfl (int32.convert 15)).1 ?_
  have hall : ∀ i < 4, i + 1 < 4 → (fourPoints .interpolate).keys i ≤ int32.convert 15 →
      int32.convert 15 < (fourPoints .interpolate).keys (i + 1) → i = 1 := by
    decide
  intro i hi _ hlo hhi
  obtain rfl := hall i (Nat.lt_of_succ_lt hi) hi hlo hhi
  exact ⟨by decide, fun _ => by decide, fun _ => by decide, fun _ _ _ => by decide⟩

/-- Keys 0 and 256 of `std::int32_t` with values 0 and 10 of `std::uint8_t`. -/
def wideGap : SortedTable 64 int32.Value (IntegralType.int false .w8).Value where
  keys i := int32.convert (256 * i)
  values i := (IntegralType.int false .w8).convert (10 * i)
  count := 2
  mode := .interpolate
  count_ne := by decide
  increasing i j hij hj := by
    have hall : ∀ j < 2, ∀ i < j, int32.convert (256 * (i : ℕ)) < int32.convert (256 * (j : ℕ)) := by
      decide
    exact hall j hj i hij

/-- The gap is zero as a `std::uint8_t`, and 128 divides by it. -/
theorem not_sound_wideGap : ¬ QuerySound wideGap (int32.convert 128) := by
  rintro ⟨v, hv, -, -⟩
  have hfails : wideGap.atKey (tableOps int32 (.int false .w8)) (int32.convert 128) =
      .error (.arithmetic .divideByZero) := by
    decide
  rw [hfails] at hv
  cases hv

end Table

end Memkit
