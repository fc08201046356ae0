import Memkit.Foundations.MeterConformance
import Memkit.Timing.TokenBucket

/-! # Which traffic a token bucket lets through

The whole interface of `TokenBucket` as a meter: `consume` and `reset` too. A bucket that is refilled
at a rate passes exactly the traffic that conforms to it: a sequence of requests is granted in full
iff no part of it asks for more than a full bucket and the refills inside that part provide. -/

namespace Memkit

open Mealy

namespace TokenBucket

variable {b : TokenBucket} {capacity rate : BitVec 32}

/-- `consume`. -/
def consume (b : TokenBucket) (count : BitVec 32) : Status × TokenBucket := b.tryConsume count

/-- `reset`. -/
def reset (b : TokenBucket) : TokenBucket := { b with tokens := b.capacity }

/-- A call of the whole interface. -/
inductive Request
  | refill (ticks : BitVec 32)
  | tryConsume (count : BitVec 32)
  | consume (count : BitVec 32)
  | reset
  deriving DecidableEq, Repr

/-- Dispatch a call; `refill` and `reset` return nothing. -/
def request (b : TokenBucket) : Request → Option Status × TokenBucket
  | .refill ticks => (none, b.refill ticks)
  | .tryConsume count =>
    let (st, b) := b.tryConsume count
    (some st, b)
  | .consume count =>
    let (st, b) := b.consume count
    (some st, b)
  | .reset => (none, b.reset)

/-- The tokens a call asks for. -/
def Request.asked : Request → ℕ
  | .tryConsume count => count.toNat
  | .consume count => count.toNat
  | _ => 0

/-- The tokens a call provides. -/
def Request.provided (capacity rate : BitVec 32) : Request → ℕ
  | .refill ticks => rate.toNat * ticks.toNat
  | .reset => capacity.toNat
  | _ => 0

/-- Whether a call asks for no tokens at all, which the bucket takes for a mistake. -/
def Request.asksNothing : Request → Bool
  | .tryConsume count => count = 0
  | .consume count => count = 0
  | _ => false

/-- What a call does to the meter. -/
def Request.event (capacity rate : BitVec 32) : Request → Meter.Event ℕ
  | .refill ticks => .fill (rate.toNat * ticks.toNat)
  | .tryConsume count => .draw count.toNat
  | .consume count => .draw count.toNat
  | .reset => .fill capacity.toNat

/-- No call of a run is refused. -/
def NoneRefused (b : TokenBucket) (requests : List Request) : Prop :=
  ∀ st ∈ outputs request b requests, st = none ∨ st = some .ok

instance (b : TokenBucket) (requests : List Request) : Decidable (NoneRefused b requests) :=
  inferInstanceAs (Decidable (∀ st ∈ outputs request b requests, st = none ∨ st = some .ok))

/-- A call that consumes is granted iff it asks for something the bucket has. -/
theorem tryConsume_ok_iff (b : TokenBucket) (count : BitVec 32) :
    (b.tryConsume count).1 = .ok ↔ count ≠ 0 ∧ count.toNat ≤ b.tokens.toNat := by
  rw [← BitVec.le_def, ← BitVec.not_lt]
  unfold tryConsume
  split
  · next hzero => simp [hzero]
  · next hzero =>
    split
    · next hlt => simp [hlt]
    · next hge => exact iff_of_true rfl ⟨hzero, hge⟩

/-- **A call is an event of the meter**, and the bucket stays a bucket of this capacity and rate. -/
theorem request_spec (h : Inv capacity rate b) (r : Request) :
    (b.request r).2.tokens.toNat =
        (Meter.step capacity.toNat b.tokens.toNat (r.event capacity rate)).2 ∧
      Inv capacity rate (b.request r).2 := by
  cases r with
  | refill ticks => exact (call_spec h (.refill ticks)).2
  | tryConsume count => exact (call_spec h (.tryConsume count)).2
  | consume count => exact (call_spec h (.tryConsume count)).2
  | reset =>
    refine ⟨?_, h.capacity_eq, h.rate_eq, h.nonzero, ?_⟩
    · show b.capacity.toNat = min (b.tokens.toNat + capacity.toNat) capacity.toNat
      rw [h.capacity_eq, min_eq_right (Nat.le_add_left _ _)]
    · show b.capacity ≤ capacity
      rw [h.capacity_eq]
      exact BitVec.le_refl _

/-- A single call is not refused iff it does not ask for nothing and the meter grants it. -/
theorem request_accepted_iff (capacity rate : BitVec 32) (b : TokenBucket) (r : Request) :
    ((b.request r).1 = none ∨ (b.request r).1 = some .ok) ↔
      r.asksNothing = false ∧
        (Meter.step capacity.toNat b.tokens.toNat (r.event capacity rate)).1 =
          (r.event capacity rate).drawn := by
  -- a draw that the meter refuses takes nothing, which is not what a request asks for
  have hdraw : ∀ count : BitVec 32, (b.tryConsume count).1 = .ok ↔
      decide (count = 0) = false ∧
        (Meter.step capacity.toNat b.tokens.toNat (.draw count.toNat)).1 = count.toNat := by
    intro count
    rw [tryConsume_ok_iff, decide_eq_false_iff_not, Meter.step]
    refine and_congr_right fun hzero => ?_
    have hpos : count.toNat ≠ 0 := fun h0 => hzero (BitVec.eq_of_toNat_eq (by simpa using h0))
    split
    · next hle => simp [hle]
    · next hgt => simp [hgt, hpos.symm]
  cases r with
  | refill ticks => simp [request, Request.asksNothing, Request.event, Meter.step, Meter.Event.drawn]
  | tryConsume count =>
    simp only [request, reduceCtorEq, Option.some.injEq, false_or]
    exact hdraw count
  | consume count =>
    simp only [request, reduceCtorEq, Option.some.injEq, false_or]
    exact hdraw count
  | reset => simp [request, Request.asksNothing, Request.event, Meter.step, Meter.Event.drawn]

/-- No call of a run is refused iff none asks for nothing and the meter grants every draw. -/
theorem noneRefused_iff_grantsAll (h : Inv capacity rate b) (requests : List Request) :
    NoneRefused b requests ↔
      (∀ r ∈ requests, r.asksNothing = false) ∧
        Meter.GrantsAll capacity.toNat b.tokens.toNat
          (requests.map (Request.event capacity rate)) := by
  induction requests generalizing b with
  | nil => simp [NoneRefused, Meter.GrantsAll]
  | cons r requests ih =>
    obtain ⟨hlevel, hnext⟩ := request_spec h r
    have hhead := request_accepted_iff capacity rate b r
    have htail := ih hnext
    rw [hlevel] at htail
    simp only [NoneRefused, Meter.GrantsAll, outputs_cons, List.map_cons, List.forall_mem_cons,
      List.cons.injEq] at htail ⊢
    rw [hhead, htail]
    tauto

/-- The demand of a run in the terms of its calls. -/
theorem demand_requests (capacity rate : BitVec 32) (requests : List Request) :
    Meter.demand (requests.map (Request.event capacity rate)) =
      (requests.map Request.asked).sum := by
  have hasked : Meter.Event.drawn ∘ Request.event capacity rate = Request.asked := by
    funext r
    cases r <;> rfl
  rw [Meter.demand, List.map_map, hasked]

/-- The supply of a run in the terms of its calls. -/
theorem supply_requests (capacity rate : BitVec 32) (requests : List Request) :
    Meter.supply (requests.map (Request.event capacity rate)) =
      (requests.map (Request.provided capacity rate)).sum := by
  have hprovided :
      Meter.Event.filled ∘ Request.event capacity rate = Request.provided capacity rate := by
    funext r
    cases r <;> rfl
  rw [Meter.supply, List.map_map, hprovided]

/-- Any calls keep the invariant. -/
theorem Inv.final_request (h : Inv capacity rate b) (requests : List Request) :
    Inv capacity rate (Mealy.final request b requests) :=
  (everyCall_true b requests).final_invariant (Inv capacity rate)
    (fun _ r h _ => (request_spec h r).2) h

/-- **A token bucket passes exactly the traffic that conforms to it.** After `init` and any calls,
no further call is refused iff none asks for nothing, no beginning of the calls asks for more than
the tokens at hand and its own refills, and no part of them asks for more than a full bucket and the
refills in that part. -/
theorem none_refused_iff_conforms (b : TokenBucket) (capacity rate : BitVec 32)
    (hinit : (b.init capacity rate).1 = .ok) (before requests : List Request) :
    let s := final request (b.init capacity rate).2 before
    NoneRefused s requests ↔
      (∀ r ∈ requests, r.asksNothing = false) ∧
      (∀ p, p <+: requests → (p.map Request.asked).sum ≤
        s.tokens.toNat + (p.map (Request.provided capacity rate)).sum) ∧
      (∀ p, p <:+: requests → (p.map Request.asked).sum ≤
        capacity.toNat + (p.map (Request.provided capacity rate)).sum) := by
  intro s
  have h : Inv capacity rate s := (inv_init hinit).final_request before
  rw [noneRefused_iff_grantsAll h, Meter.grantsAll_iff_conforms (BitVec.le_def.mp h.tokens_le)]
  refine and_congr_right fun _ => ⟨fun hconf => ⟨fun p hp => ?_, fun p hp => ?_⟩, fun hconf => ?_⟩
  · have hbound := hconf.beginnings _ (hp.map (Request.event capacity rate))
    rwa [demand_requests, supply_requests] at hbound
  · have hbound := hconf.windows _ (hp.map (Request.event capacity rate))
    rwa [demand_requests, supply_requests] at hbound
  · -- a beginning or a part of the events is that of the calls
    refine ⟨fun p hp => ?_, fun p hp => ?_⟩
    · obtain ⟨q, hq, rfl⟩ := List.prefix_map_iff.mp hp
      rw [demand_requests, supply_requests]
      exact hconf.1 q hq
    · obtain ⟨q, hq, rfl⟩ := List.infix_map_iff.mp hp
      rw [demand_requests, supply_requests]
      exact hconf.2 q hq

/-- A bucket of four tokens passes a burst of four and then two a tick; the part that begins with the
burst tells how much. -/
theorem none_refused_iff_conforms_burst :
    NoneRefused (init ⟨0, 0, 0⟩ 4 2).2 [.consume 4, .refill 1, .tryConsume 2, .reset, .consume 3] ∧
      (∀ p, p <:+: [.consume 4, .refill 1, .tryConsume 2, .reset, .consume 3] →
        (p.map Request.asked).sum ≤ 4 + (p.map (Request.provided 4 2)).sum) ∧
      ¬ NoneRefused (init ⟨0, 0, 0⟩ 4 2).2 [.consume 4, .refill 1, .tryConsume 3] := by
  have hiff := none_refused_iff_conforms ⟨0, 0, 0⟩ 4 2 (by decide) []
  have hpass : NoneRefused (init ⟨0, 0, 0⟩ 4 2).2
      [.consume 4, .refill 1, .tryConsume 2, .reset, .consume 3] := by decide
  refine ⟨hpass, ((hiff _).mp hpass).2.2, fun hnot => ?_⟩
  exact absurd (((hiff _).mp hnot).2.2 _ List.infix_rfl) (by decide)

end TokenBucket

end Memkit
