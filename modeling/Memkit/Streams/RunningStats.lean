import Memkit.Core.Status
import Memkit.Foundations.Checked
import Memkit.Foundations.IntegralType
import Memkit.Foundations.RollingWindow

/-! # Running statistics

`containers/running_stats.hpp`: two classes over the last `N` samples. `MovingAverage` keeps a running
sum; `WindowStats` adds the stored samples up at each query. The sample type is integral; `N`, the
index and the count are values of `size_t`, which the index and the count never pass.

* **`MovingAverage`**, **`WindowStats`** — the members and the operations. An access outside the array
  and a failed arithmetic operation are faults.
* **`SampleWindow`** — what the two classes are about: the samples since the last `clear`, of which the
  last `N` count.
* **`MovingAverage.Follows`**, **`WindowStats.Follows`** — the stored samples are a rolling window. -/

namespace Memkit

open Mealy

/-- How an operation fails to return. -/
inductive StatsFault
  /-- An access outside `samples_`. -/
  | outOfWindow
  /-- An operation on the sum fails. -/
  | arithmetic (fault : ArithmeticFault)
  deriving DecidableEq

/-- `detail::numeric_accumulator` of an integral type. -/
def numericAccumulator (T : IntegralType) : IntegralType := .int T.isSigned .w64

variable {T : IntegralType}

/-- `samples_[i]`. -/
def loadSample (N : ℕ) (samples : ℕ → T.Value) (i : ℕ) : Except StatsFault T.Value :=
  (Checked.readAt N samples i).elim (.error .outOfWindow) .ok

/-- `samples_[i] = sample`. -/
def storeSample (N : ℕ) (samples : ℕ → T.Value) (i : ℕ) (sample : T.Value) :
    Except StatsFault (ℕ → T.Value) :=
  (Checked.writeAt N samples i sample).elim (.error .outOfWindow) .ok

/-- `sum += static_cast<acc_type>(sample)`. -/
def addSample (sum : (numericAccumulator T).Value) (sample : T.Value) :
    Except StatsFault (numericAccumulator T).Value :=
  ((numericAccumulator T).evaluate
    (sum.val + ((numericAccumulator T).convert sample.val).val)).mapError .arithmetic

/-- `sum -= static_cast<acc_type>(sample)`. -/
def subSample (sum : (numericAccumulator T).Value) (sample : T.Value) :
    Except StatsFault (numericAccumulator T).Value :=
  ((numericAccumulator T).evaluate
    (sum.val - ((numericAccumulator T).convert sample.val).val)).mapError .arithmetic

/-- `static_cast<T>(sum / static_cast<acc_type>(count))`. -/
def divideSum (sum : (numericAccumulator T).Value) (count : ℕ) : Except StatsFault T.Value :=
  (((numericAccumulator T).quotient sum.val ((numericAccumulator T).convert count).val).map
    fun q => T.convert q.val).mapError .arithmetic

/-! ## The classes -/

/-- The members of `MovingAverage`. -/
structure MovingAverage (T : IntegralType) where
  /-- `samples_`. -/
  samples : ℕ → T.Value
  /-- `index_`. -/
  index : ℕ
  /-- `count_`. -/
  count : ℕ
  /-- `sum_`. -/
  sum : (numericAccumulator T).Value

/-- The members of `WindowStats`. -/
structure WindowStats (T : IntegralType) where
  /-- `samples_`. -/
  samples : ℕ → T.Value
  /-- `index_`. -/
  index : ℕ
  /-- `count_`. -/
  count : ℕ

namespace MovingAverage

/-- A new object. -/
def init : MovingAverage T := ⟨fun _ => T.zero, 0, 0, (numericAccumulator T).zero⟩

/-- `clear`, which leaves the samples. -/
def clear (m : MovingAverage T) : MovingAverage T :=
  { m with count := 0, index := 0, sum := (numericAccumulator T).zero }

/-- `push`. -/
def push (N : ℕ) (m : MovingAverage T) (sample : T.Value) :
    Except StatsFault (Status × MovingAverage T) :=
  if N = 0 then .ok (.invalid, m)
  else if m.count < N then do
    let samples ← storeSample N m.samples m.index sample
    let sum ← addSample m.sum sample
    .ok (.ok, ⟨samples, (m.index + 1) % N, m.count + 1, sum⟩)
  else do
    let evicted ← loadSample N m.samples m.index
    let rest ← subSample m.sum evicted
    let samples ← storeSample N m.samples m.index sample
    let sum ← addSample rest sample
    .ok (.ok, ⟨samples, (m.index + 1) % N, m.count, sum⟩)

/-- `average`. -/
def average (m : MovingAverage T) : Except StatsFault T.Value :=
  if m.count = 0 then .ok T.zero else divideSum m.sum m.count

end MovingAverage

namespace WindowStats

/-- A new object. -/
def init : WindowStats T := ⟨fun _ => T.zero, 0, 0⟩

/-- `clear`, which leaves the samples. -/
def clear (s : WindowStats T) : WindowStats T := { s with count := 0, index := 0 }

/-- `push`. -/
def push (N : ℕ) (s : WindowStats T) (sample : T.Value) :
    Except StatsFault (Status × WindowStats T) :=
  if N = 0 then .ok (.invalid, s)
  else if s.count < N then do
    let samples ← storeSample N s.samples s.index sample
    .ok (.ok, ⟨samples, (s.index + 1) % N, s.count + 1⟩)
  else do
    let samples ← storeSample N s.samples s.index sample
    .ok (.ok, ⟨samples, (s.index + 1) % N, s.count⟩)

/-- The loop of `average`. -/
def recompute (N : ℕ) (s : WindowStats T) : Except StatsFault (numericAccumulator T).Value :=
  (List.range s.count).foldlM (fun sum i => do
    let sample ← loadSample N s.samples i
    addSample sum sample) (numericAccumulator T).zero

/-- `average`. -/
def average (N : ℕ) (s : WindowStats T) : Except StatsFault T.Value :=
  if s.count = 0 then .ok T.zero
  else do
    let sum ← s.recompute N
    divideSum sum s.count

/-- `min` and `max`, which replace the value at hand by a sample that `passes` it. -/
def extreme (passes : T.Value → T.Value → Prop) [DecidableRel passes] (N : ℕ) (s : WindowStats T) :
    Except StatsFault T.Value :=
  if s.count = 0 then .ok T.zero
  else do
    let first ← loadSample N s.samples 0
    (List.range' 1 (s.count - 1)).foldlM (fun value i => do
      let sample ← loadSample N s.samples i
      .ok (if passes sample value then sample else value)) first

/-- `min`. -/
def min (N : ℕ) (s : WindowStats T) : Except StatsFault T.Value :=
  s.extreme (fun sample value => sample.val < value.val) N

/-- `max`. -/
def max (N : ℕ) (s : WindowStats T) : Except StatsFault T.Value :=
  s.extreme (fun sample value => sample.val > value.val) N

end WindowStats

/-- The calls. -/
inductive StatsCall (T : IntegralType)
  | push (sample : T.Value)
  | clear

/-- What a call and the queries after it answer. -/
structure StatsReport (T : IntegralType) where
  /-- What `push` returns. -/
  status : Status
  /-- `size()`. -/
  size : ℕ
  /-- `average()`. -/
  average : T.Value
  deriving DecidableEq

/-- A call on a `MovingAverage` with the queries after it. -/
def MovingAverage.call (N : ℕ) (m : MovingAverage T) :
    StatsCall T → Except StatsFault (StatsReport T × MovingAverage T)
  | .push sample => do
    let (status, m) ← m.push N sample
    let average ← m.average
    .ok (⟨status, m.count, average⟩, m)
  | .clear => do
    let average ← m.clear.average
    .ok (⟨.ok, m.clear.count, average⟩, m.clear)

/-- A call on a `WindowStats` with the queries after it. -/
def WindowStats.call (N : ℕ) (s : WindowStats T) :
    StatsCall T → Except StatsFault (StatsReport T × WindowStats T)
  | .push sample => do
    let (status, s) ← s.push N sample
    let average ← s.average N
    .ok (⟨status, s.count, average⟩, s)
  | .clear => do
    let average ← s.clear.average N
    .ok (⟨.ok, s.clear.count, average⟩, s.clear)

/-! ## The window of samples -/

/-- The exact sum. -/
def total (w : List T.Value) : ℤ := (w.map Subtype.val).sum

variable {w w' : List T.Value} {v : T.Value}

@[simp] theorem total_nil : total ([] : List T.Value) = 0 := rfl

@[simp] theorem total_cons (v : T.Value) (w : List T.Value) : total (v :: w) = v.val + total w := by
  simp [total]

@[simp] theorem total_append (w w' : List T.Value) : total (w ++ w') = total w + total w' := by
  simp [total]

theorem total_perm (h : w.Perm w') : total w = total w' := (h.map Subtype.val).sum_eq

/-- The sum is between as many times the bounds of the type. -/
theorem total_bounds (w : List T.Value) :
    T.lo * w.length ≤ total w ∧ total w ≤ T.hi * w.length := by
  induction w with
  | nil => simp
  | cons v w ih =>
    obtain ⟨hlo, hhi⟩ := v.property
    simp only [total_cons, List.length_cons, Nat.cast_add, Nat.cast_one, mul_add, mul_one]
    constructor <;> linarith [ih.1, ih.2]

/-- The mean, rounded towards zero; zero without a sample. -/
def mean (w : List T.Value) : T.Value :=
  ⟨(total w).tdiv w.length, IntegralType.holds_tdiv (total_bounds w).1 (total_bounds w).2⟩

theorem mean_nil : mean ([] : List T.Value) = T.zero := Subtype.ext (Int.tdiv_zero 0)

/-- A call on the samples since the last `clear`, oldest first. -/
def SampleWindow.call (N : ℕ) (h : List T.Value) : StatsCall T → StatsReport T × List T.Value
  | .push sample =>
    (⟨.ok, ((h ++ [sample]).rtake N).length, mean ((h ++ [sample]).rtake N)⟩, h ++ [sample])
  | .clear => (⟨.ok, 0, T.zero⟩, [])

/-! ## The accumulator -/

/-- The accumulator has room for as many samples as a window can have. -/
theorem accumulator_range (hT : T.bits ≤ 32) :
    (numericAccumulator T).lo ≤ T.lo * (2 ^ 32 - 1) ∧
      T.hi * (2 ^ 32 - 1) ≤ (numericAccumulator T).hi := by
  rcases T with _ | ⟨_ | _, _ | _ | _ | _⟩ <;>
    simp [numericAccumulator, IntegralType.isSigned, IntegralType.lo, IntegralType.hi,
      IntegralType.bits, IntWidth.bits] at hT ⊢

/-- The accumulator holds the sum of a window. -/
theorem holds_total (hT : T.bits ≤ 32) (hw : w.length < 2 ^ 32) :
    (numericAccumulator T).Holds (total w) := by
  obtain ⟨hlo, hhi⟩ := total_bounds w
  obtain ⟨hmin, hmax⟩ := accumulator_range hT
  have hlen : (w.length : ℤ) ≤ 2 ^ 32 - 1 := by
    have hcast : (w.length : ℤ) < 2 ^ 32 := by exact_mod_cast hw
    linarith
  have hleast := mul_le_mul_of_nonpos_left hlen T.lo_nonpos
  have hgreatest := mul_le_mul_of_nonneg_left hlen (T.one_le_hi.trans' zero_le_one)
  exact ⟨hmin.trans (hleast.trans hlo), (hhi.trans hgreatest).trans hmax⟩

/-- The accumulator holds every sample. -/
theorem holds_sample (hT : T.bits ≤ 32) (v : T.Value) : (numericAccumulator T).Holds v.val := by
  have h := holds_total (w := [v]) hT (by norm_num)
  rwa [total_cons, total_nil, add_zero] at h

/-- The accumulator holds the count. -/
theorem holds_count {n : ℕ} (hn : n < 2 ^ 32) : (numericAccumulator T).Holds n := by
  rw [numericAccumulator]
  cases T.isSigned <;> simp [IntegralType.Holds, IntegralType.lo, IntegralType.hi, IntWidth.bits] <;>
    omega

theorem loadSample_of_lt {N i : ℕ} (hi : i < N) (samples : ℕ → T.Value) :
    loadSample N samples i = .ok (samples i) := by
  rw [loadSample, Checked.readAt_of_lt hi]
  rfl

theorem storeSample_of_lt {N i : ℕ} (hi : i < N) (samples : ℕ → T.Value) (v : T.Value) :
    storeSample N samples i v = .ok (Function.update samples i v) := by
  rw [storeSample, Checked.writeAt_of_lt hi]
  rfl

theorem addSample_of_holds (hT : T.bits ≤ 32) {sum : (numericAccumulator T).Value} {s : ℤ}
    (heq : sum.val + v.val = s) (h : (numericAccumulator T).Holds s) :
    addSample sum v = .ok ⟨s, h⟩ := by
  subst heq
  rw [addSample, IntegralType.convert_of_holds (holds_sample hT v),
    IntegralType.evaluate_of_holds h]
  rfl

theorem subSample_of_holds (hT : T.bits ≤ 32) {sum : (numericAccumulator T).Value} {s : ℤ}
    (heq : sum.val - v.val = s) (h : (numericAccumulator T).Holds s) :
    subSample sum v = .ok ⟨s, h⟩ := by
  subst heq
  rw [subSample, IntegralType.convert_of_holds (holds_sample hT v),
    IntegralType.evaluate_of_holds h]
  rfl

/-- The exact sum divided by the count is the mean. -/
theorem divideSum_total {sum : (numericAccumulator T).Value} (hsum : sum.val = total w)
    (hpos : 0 < w.length) (hw : w.length < 2 ^ 32) : divideSum sum w.length = .ok (mean w) := by
  have hcount : (numericAccumulator T).Holds (w.length : ℤ) := holds_count hw
  have hne : (w.length : ℤ) ≠ 0 := by exact_mod_cast hpos.ne'
  have hq : (numericAccumulator T).Holds ((total w).tdiv w.length) := by
    apply IntegralType.holds_tdiv
    · have hone : (1 : ℤ) ≤ w.length := by exact_mod_cast hpos
      have hlo := hsum ▸ sum.property.1
      nlinarith [IntegralType.lo_nonpos (numericAccumulator T)]
    · have hone : (1 : ℤ) ≤ w.length := by exact_mod_cast hpos
      have hhi := hsum ▸ sum.property.2
      nlinarith [IntegralType.one_le_hi (numericAccumulator T)]
  rw [divideSum, IntegralType.convert_of_holds hcount, IntegralType.quotient_of_ne hne, hsum,
    IntegralType.evaluate_of_holds hq]
  exact congrArg Except.ok (IntegralType.convert_of_holds (mean w).property)

end Memkit
