import Memkit.Core.Status
import Memkit.Foundations.Meter

/-! # Token buckets

`TokenBucket` of `containers/token_bucket.hpp`: a bucket of at most `capacity` tokens, refilled at a
fixed rate per tick. The members are 32-bit words and a refill is computed in 64 bits. The exact
numbers behind the words are a meter: what is consumed over any part of a run is paid for by the
tokens at its start and by the refills in it. -/

namespace Memkit

open Mealy

/-- The members of `TokenBucket`. -/
@[ext]
structure TokenBucket where
  /-- `capacity_`. -/
  capacity : BitVec 32
  /-- `refill_per_tick_`. -/
  refillPerTick : BitVec 32
  /-- `tokens_`. -/
  tokens : BitVec 32
  deriving DecidableEq, Repr

namespace TokenBucket

/-- `init`. -/
def init (b : TokenBucket) (capacity refillPerTick : BitVec 32) : Status × TokenBucket :=
  if capacity = 0 then (.invalid, b) else (.ok, ⟨capacity, refillPerTick, capacity⟩)

/-- The product `added` of `refill`. -/
def added (b : TokenBucket) (ticks : BitVec 32) : BitVec 64 :=
  b.refillPerTick.setWidth 64 * ticks.setWidth 64

/-- The sum `next` of `refill`. -/
def next (b : TokenBucket) (ticks : BitVec 32) : BitVec 64 := b.tokens.setWidth 64 + b.added ticks

/-- `refill`. -/
def refill (b : TokenBucket) (ticks : BitVec 32) : TokenBucket :=
  if ticks = 0 ∨ b.capacity = 0 then b
  else
    let capped := if b.capacity.setWidth 64 < b.next ticks then b.capacity.setWidth 64
      else b.next ticks
    { b with tokens := capped.setWidth 32 }

/-- `try_consume`. -/
def tryConsume (b : TokenBucket) (count : BitVec 32) : Status × TokenBucket :=
  if count = 0 then (.invalid, b)
  else if b.tokens < count then (.empty, b)
  else (.ok, { b with tokens := b.tokens - count })

/-- A call on the bucket. -/
inductive Call
  | refill (ticks : BitVec 32)
  | tryConsume (count : BitVec 32)
  deriving DecidableEq, Repr

/-- Dispatch a call; a refill returns nothing. -/
def call (b : TokenBucket) : Call → Option Status × TokenBucket
  | .refill ticks => (none, b.refill ticks)
  | .tryConsume count =>
    let (st, b) := b.tryConsume count
    (some st, b)

/-- The tokens that a call takes by its reply. -/
def granted : Call → Option Status → ℕ
  | .tryConsume count, some .ok => count.toNat
  | _, _ => 0

/-- The tokens consumed by a sequence of calls. -/
def consumed (b : TokenBucket) (calls : List Call) : ℕ :=
  (List.zipWith granted calls (outputs call b calls)).sum

/-- The ticks refilled by a sequence of calls. -/
def ticksIn (calls : List Call) : ℕ :=
  (calls.map fun
    | .refill ticks => ticks.toNat
    | .tryConsume _ => 0).sum

variable {b : TokenBucket} {capacity rate : BitVec 32}

/-! ## The words are exact -/

/-- The product fits 64 bits. -/
theorem toNat_added (b : TokenBucket) (ticks : BitVec 32) :
    (b.added ticks).toNat = b.refillPerTick.toNat * ticks.toNat := by
  have hr := b.refillPerTick.isLt
  have ht := ticks.isLt
  have hmul : b.refillPerTick.toNat * ticks.toNat ≤ (2 ^ 32 - 1) * (2 ^ 32 - 1) :=
    Nat.mul_le_mul (by omega) (by omega)
  rw [added, BitVec.toNat_mul, BitVec.toNat_setWidth_of_le (by decide),
    BitVec.toNat_setWidth_of_le (by decide)]
  apply Nat.mod_eq_of_lt
  omega

/-- The sum fits 64 bits. -/
theorem toNat_next (b : TokenBucket) (ticks : BitVec 32) :
    (b.next ticks).toNat = b.tokens.toNat + b.refillPerTick.toNat * ticks.toNat := by
  have hr := b.refillPerTick.isLt
  have ht := ticks.isLt
  have htokens := b.tokens.isLt
  have hmul : b.refillPerTick.toNat * ticks.toNat ≤ (2 ^ 32 - 1) * (2 ^ 32 - 1) :=
    Nat.mul_le_mul (by omega) (by omega)
  rw [next, BitVec.toNat_add, BitVec.toNat_setWidth_of_le (by decide), toNat_added]
  apply Nat.mod_eq_of_lt
  omega

/-- A bucket after `init`, and after any calls. -/
structure Inv (capacity rate : BitVec 32) (b : TokenBucket) : Prop where
  capacity_eq : b.capacity = capacity
  rate_eq : b.refillPerTick = rate
  nonzero : capacity ≠ 0
  tokens_le : b.tokens ≤ capacity

theorem inv_init (hinit : (b.init capacity rate).1 = .ok) :
    Inv capacity rate (b.init capacity rate).2 := by
  by_cases hzero : capacity = 0
  · rw [init, if_pos hzero] at hinit
    cases hinit
  · rw [init, if_neg hzero]
    exact ⟨rfl, rfl, hzero, BitVec.le_refl _⟩

/-- A refill saturates at the capacity. -/
theorem toNat_refill (h : Inv capacity rate b) (ticks : BitVec 32) :
    (b.refill ticks).tokens.toNat =
      min (b.tokens.toNat + rate.toNat * ticks.toNat) capacity.toNat := by
  have hle := BitVec.le_def.mp h.tokens_le
  have hnonzero : b.capacity ≠ 0 := h.capacity_eq ▸ h.nonzero
  unfold refill
  by_cases hticks : ticks = 0
  · rw [if_pos (.inl hticks), hticks]
    simp [hle]
  · rw [if_neg (not_or.mpr ⟨hticks, hnonzero⟩)]
    have hnext := toNat_next b ticks
    have hcap : (b.capacity.setWidth 64).toNat = b.capacity.toNat :=
      BitVec.toNat_setWidth_of_le (by decide)
    rw [h.rate_eq] at hnext
    rw [← h.capacity_eq]
    by_cases hlt : b.capacity.setWidth 64 < b.next ticks
    · have hlt' := BitVec.lt_def.mp hlt
      rw [hcap, hnext] at hlt'
      dsimp only
      rw [if_pos hlt, min_eq_right hlt'.le, BitVec.toNat_setWidth, hcap,
        Nat.mod_eq_of_lt b.capacity.isLt]
    · have hge := BitVec.le_def.mp (BitVec.not_lt.mp hlt)
      rw [hcap, hnext] at hge
      dsimp only
      rw [if_neg hlt, min_eq_left hge, BitVec.toNat_setWidth, hnext]
      exact Nat.mod_eq_of_lt (hge.trans_lt b.capacity.isLt)

/-- A refill changes nothing else. -/
theorem refill_frame (b : TokenBucket) (ticks : BitVec 32) :
    (b.refill ticks).capacity = b.capacity ∧ (b.refill ticks).refillPerTick = b.refillPerTick := by
  unfold refill
  split
  · exact ⟨rfl, rfl⟩
  · exact ⟨rfl, rfl⟩

theorem Inv.refill (h : Inv capacity rate b) (ticks : BitVec 32) :
    Inv capacity rate (b.refill ticks) := by
  obtain ⟨hcap, hrate⟩ := refill_frame b ticks
  refine ⟨hcap.trans h.capacity_eq, hrate.trans h.rate_eq, h.nonzero, BitVec.le_def.mpr ?_⟩
  rw [toNat_refill h]
  exact min_le_right _ _

/-- Two refills are one, when the sum of the ticks is a word. -/
theorem refill_refill (h : Inv capacity rate b) {m n : BitVec 32}
    (hsum : m.toNat + n.toNat < 2 ^ 32) : (b.refill m).refill n = b.refill (m + n) := by
  have htokens : ((b.refill m).refill n).tokens = (b.refill (m + n)).tokens := by
    apply BitVec.eq_of_toNat_eq
    rw [toNat_refill (h.refill m), toNat_refill h, toNat_refill h, Meter.fill_fill, BitVec.toNat_add,
      Nat.mod_eq_of_lt hsum, Nat.mul_add]
  obtain ⟨hm, hm'⟩ := refill_frame b m
  obtain ⟨hn, hn'⟩ := refill_frame (b.refill m) n
  obtain ⟨hmn, hmn'⟩ := refill_frame b (m + n)
  exact TokenBucket.ext (by rw [hn, hm, hmn]) (by rw [hn', hm', hmn']) htokens

/-- What a refused consumption leaves. -/
theorem tryConsume_refused {count : BitVec 32} (h : (b.tryConsume count).1 ≠ .ok) :
    (b.tryConsume count).2 = b := by
  unfold tryConsume at h ⊢
  by_cases hzero : count = 0
  · rw [if_pos hzero]
  · rw [if_neg hzero] at h ⊢
    by_cases hlt : b.tokens < count
    · rw [if_pos hlt]
    · rw [if_neg hlt] at h
      exact absurd rfl h

/-! ## The meter behind the bucket -/

/-- What a call does to the meter. -/
def event (rate : BitVec 32) : Call → Meter.Event ℕ
  | .refill ticks => .fill (rate.toNat * ticks.toNat)
  | .tryConsume count => .draw count.toNat

/-- **A call is an event of the meter.** -/
theorem call_spec (h : Inv capacity rate b) (c : Call) :
    granted c (call b c).1 = (Meter.step capacity.toNat b.tokens.toNat (event rate c)).1 ∧
      (call b c).2.tokens.toNat =
        (Meter.step capacity.toNat b.tokens.toNat (event rate c)).2 ∧
      Inv capacity rate (call b c).2 := by
  cases c with
  | refill ticks => exact ⟨rfl, toNat_refill h ticks, h.refill ticks⟩
  | tryConsume count =>
    simp only [call, event, Meter.step]
    unfold tryConsume
    by_cases hzero : count = 0
    · rw [if_pos hzero, hzero]
      exact ⟨by simp [granted], by simp, h⟩
    · rw [if_neg hzero]
      by_cases hlt : b.tokens < count
      · have hlt' : ¬ count.toNat ≤ b.tokens.toNat := Nat.not_le.mpr (BitVec.lt_def.mp hlt)
        rw [if_pos hlt, if_neg hlt']
        exact ⟨rfl, rfl, h⟩
      · have hle := BitVec.not_lt.mp hlt
        have hsub : (b.tokens - count).toNat = b.tokens.toNat - count.toNat :=
          BitVec.toNat_sub_of_le hle
        rw [if_neg hlt, if_pos (BitVec.le_def.mp hle)]
        refine ⟨rfl, hsub, h.capacity_eq, h.rate_eq, h.nonzero, BitVec.le_def.mpr ?_⟩
        have htokens := BitVec.le_def.mp h.tokens_le
        show (b.tokens - count).toNat ≤ capacity.toNat
        omega

/-- Any calls keep the invariant. -/
theorem Inv.final (h : Inv capacity rate b) (calls : List Call) :
    Inv capacity rate (final call b calls) :=
  (everyCall_true b calls).final_invariant (Inv capacity rate) (fun _ c h _ => (call_spec h c).2.2) h

/-- **A run of the bucket is a run of the meter.** -/
theorem run_meter (h : Inv capacity rate b) (calls : List Call) :
    consumed b calls = (outputs (Meter.step capacity.toNat) b.tokens.toNat
      (calls.map (event rate))).sum := by
  induction calls generalizing b with
  | nil => rfl
  | cons c calls ih =>
    obtain ⟨hgranted, hlevel, hnext⟩ := call_spec h c
    have hrest := ih hnext
    unfold consumed at hrest ⊢
    rw [outputs_cons, List.zipWith_cons_cons, List.sum_cons, List.map_cons, outputs_cons,
      List.sum_cons, hgranted, hrest, hlevel]

/-- What the refills of a run fill in. -/
theorem sum_filled (rate : BitVec 32) (calls : List Call) :
    ((calls.map (event rate)).map Meter.Event.filled).sum = rate.toNat * ticksIn calls := by
  induction calls with
  | nil => rfl
  | cons c calls ih =>
    rw [List.map_cons, List.map_cons, List.sum_cons, ih, ticksIn, ticksIn, List.map_cons,
      List.sum_cons, Nat.mul_add]
    cases c with
    | refill ticks => rfl
    | tryConsume count => rfl

/-- **The bucket never grants more than it holds and is refilled with**: after `init` and any calls,
`calls` being any further ones. -/
theorem init_never_overgrants (b : TokenBucket) (capacity rate : BitVec 32)
    (hinit : (b.init capacity rate).1 = .ok) (before calls : List Call) (m n : BitVec 32) :
    let s := final call (b.init capacity rate).2 before
    s.tokens ≤ s.capacity ∧ s.capacity = capacity ∧ s.refillPerTick = rate ∧
      consumed s calls ≤ s.tokens.toNat + rate.toNat * ticksIn calls ∧
      (m.toNat + n.toNat < 2 ^ 32 → (s.refill m).refill n = s.refill (m + n)) ∧
      (s.added m).toNat = s.refillPerTick.toNat * m.toNat ∧
      (s.next m).toNat = s.tokens.toNat + s.refillPerTick.toNat * m.toNat ∧
      (s.refill m).tokens.toNat = min (s.next m).toNat capacity.toNat ∧
      ((s.tryConsume n).1 ≠ .ok → (s.tryConsume n).2 = s) := by
  intro s
  have h : Inv capacity rate s := (inv_init hinit).final before
  refine ⟨?_, h.capacity_eq, h.rate_eq, ?_, refill_refill h, toNat_added s m, toNat_next s m, ?_,
    tryConsume_refused⟩
  · rw [h.capacity_eq]
    exact h.tokens_le
  · rw [run_meter h, ← sum_filled]
    have hrun := Meter.drawn_add_final_le capacity.toNat s.tokens.toNat (calls.map (event rate))
    omega
  · rw [toNat_refill h, toNat_next, h.rate_eq]

/-- The largest rate and as many ticks as there are fill the largest bucket exactly. -/
theorem init_never_overgrants_largest :
    let s := final call
      (init ⟨0, 0, 0⟩ (BitVec.allOnes 32) (BitVec.allOnes 32)).2 [.tryConsume 5, .refill 0]
    s.tokens = BitVec.allOnes 32 - 5 ∧
      consumed s [.refill (BitVec.allOnes 32), .tryConsume (BitVec.allOnes 32), .tryConsume 1] ≤
        s.tokens.toNat + (BitVec.allOnes 32).toNat *
          ticksIn [.refill (BitVec.allOnes 32), .tryConsume (BitVec.allOnes 32), .tryConsume 1] ∧
      (s.refill 7).refill 8 = s.refill (7 + 8) := by
  obtain ⟨-, -, -, hbound, hsum, -⟩ := init_never_overgrants ⟨0, 0, 0⟩ (BitVec.allOnes 32)
    (BitVec.allOnes 32) (by decide) [.tryConsume 5, .refill 0]
    [.refill (BitVec.allOnes 32), .tryConsume (BitVec.allOnes 32), .tryConsume 1] 7 8
  exact ⟨by decide, hbound, hsum (by decide)⟩

end TokenBucket

end Memkit
