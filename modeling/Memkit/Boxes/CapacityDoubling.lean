import Memkit.Boxes.LruCacheBox
import Memkit.Core.GrowCapacity
import Memkit.Foundations.Loop

/-! # The doubling loops end

`grow_capacity` and `default_bucket_count` double a number until it is enough, and take what is
required when the next doubling would not fit a word. `doublingTurn` is one turn of both. A doubling
raises the binary logarithm by one, so there are fewer turns than bits in a word, and the guard
before it keeps it exact. -/

namespace Memkit

open Loop LruBoxConfig

variable {w : ℕ} {required capacity next : BitVec w}

/-- One turn of the loop of `grow_capacity` and of that of `default_bucket_count`. -/
def doublingTurn (required capacity : BitVec w) : Turn (BitVec w) (BitVec w) :=
  if capacity < required then
    if BitVec.allOnes w / 2 < capacity then .done required else .again (capacity * 2)
  else .done capacity

/-- A turn that goes on doubles exactly. -/
theorem doublingTurn_again (hpos : 0 < capacity.toNat)
    (h : doublingTurn required capacity = .again next) :
    capacity < required ∧ next.toNat = 2 * capacity.toNat := by
  unfold doublingTurn at h
  split at h
  · next hless =>
    split at h
    · cases h
    · next hhalf =>
      obtain rfl := Turn.again.inj h
      have hw : 0 < w := by
        rcases Nat.eq_zero_or_pos w with rfl | hw
        · have hlt := capacity.isLt
          omega
        · exact hw
      have hdouble : 2 ^ w = 2 * 2 ^ (w - 1) := by
        rw [← pow_succ', Nat.sub_add_cancel hw]
      rw [BitVec.not_lt, BitVec.le_def, toNat_half hw] at hhalf
      refine ⟨hless, ?_⟩
      rw [BitVec.toNat_mul]
      change capacity.toNat * (2 % 2 ^ w) % 2 ^ w = _
      rw [Nat.mul_mod_mod, Nat.mod_eq_of_lt (by omega), Nat.mul_comm]
  · cases h

/-- How a turn ends: with a number that is enough, or with what is required. -/
theorem doublingTurn_done {result : BitVec w} (h : doublingTurn required capacity = .done result) :
    (required ≤ capacity ∧ result = capacity) ∨ (capacity < required ∧ result = required) := by
  unfold doublingTurn at h
  split at h
  · next hless =>
    split at h
    · exact .inr ⟨hless, (Turn.done.inj h).symm⟩
    · cases h
  · next hless => exact .inl ⟨BitVec.not_lt.mp hless, (Turn.done.inj h).symm⟩

/-- A positive number stays positive. -/
theorem doublingTurn_reaches {start : BitVec w} (hpos : 0 < start.toNat)
    (h : Reaches (doublingTurn required) start capacity) : 0 < capacity.toNat := by
  induction h with
  | refl => exact hpos
  | tail _ hturn ih =>
    have hdouble := (doublingTurn_again ih hturn).2
    omega

/-- What the loop from `start` to `required` owes, with its result. -/
structure Doubles (start required result : BitVec w) : Prop where
  /-- The loop ends, after fewer turns than a word has bits. -/
  terminates : ∃ turns < w, Returns (doublingTurn required) start turns result
  /-- No doubling on the way wraps. -/
  exact : ∀ c c', Reaches (doublingTurn required) start c → doublingTurn required c = .again c' →
    c'.toNat = 2 * c.toNat
  /-- The result is enough, -/
  enough : required ≤ result
  /-- not below the start, -/
  start_le : start ≤ result
  /-- and not twice what is required, unless the start is. -/
  tight : start ≤ required → result = required ∨ result.toNat < 2 * required.toNat

/-- **The loop is sound.** -/
theorem exists_doubles {start : BitVec w} (hpos : 0 < start.toNat) (required : BitVec w) :
    ∃ result, Doubles start required result := by
  -- the measure counts the doublings up to the top bit
  have htotal := exists_returns (doublingTurn required) (s := start)
    (fun c => 0 < c.toNat ∧ start ≤ c ∧ (c = start ∨ c.toNat < 2 * required.toNat))
    (fun c => w - 1 - c.toNat.log2)
    (fun result => required ≤ result ∧ start ≤ result ∧
      (start ≤ required → result = required ∨ result.toNat < 2 * required.toNat)) ?_ ?_
    ⟨hpos, BitVec.le_refl _, .inl rfl⟩
  · obtain ⟨n, hn, result, hreturns, henough, hstart, htight⟩ := htotal
    have hw : 0 < w := by
      rcases Nat.eq_zero_or_pos w with rfl | hw
      · have hlt := start.isLt
        omega
      · exact hw
    refine ⟨result, ⟨n, by omega, hreturns⟩, ?_, henough, hstart, htight⟩
    intro c c' hreaches hturn
    exact (doublingTurn_again (doublingTurn_reaches hpos hreaches) hturn).2
  · rintro c c' ⟨hc, hstart, -⟩ hturn
    obtain ⟨hless, hdouble⟩ := doublingTurn_again hc hturn
    have hlog : c'.toNat.log2 = c.toNat.log2 + 1 := by
      rw [hdouble, Nat.mul_comm, Nat.log2_eq_log_two, Nat.log2_eq_log_two,
        Nat.log_mul_base Nat.one_lt_two hc.ne']
    have htop : c'.toNat.log2 < w := (Nat.log2_lt (by omega)).mpr c'.isLt
    rw [BitVec.le_def] at hstart
    rw [BitVec.lt_def] at hless
    refine ⟨⟨by omega, ?_, .inr (by omega)⟩, by omega⟩
    rw [BitVec.le_def]
    omega
  · rintro c result ⟨-, hstart, horigin⟩ hturn
    rcases doublingTurn_done hturn with ⟨henough, rfl⟩ | ⟨hless, rfl⟩
    · refine ⟨henough, hstart, fun hle => ?_⟩
      rcases horigin with rfl | hsmall
      · exact .inl (BitVec.le_antisymm hle henough)
      · exact .inr hsmall
    · exact ⟨BitVec.le_refl _, BitVec.le_trans hstart (BitVec.le_of_lt hless), fun _ => .inl rfl⟩

/-- The loop of `grow_capacity` is this loop. -/
theorem growLoop_of_returns {rounds turns : ℕ} {result : BitVec w}
    (h : Returns (doublingTurn required) capacity turns result) (hrounds : turns < rounds) :
    growLoop rounds capacity required = result := by
  induction h generalizing rounds with
  | done hdone =>
    obtain ⟨rounds, rfl⟩ := Nat.exists_eq_succ_of_ne_zero (Nat.ne_of_gt hrounds)
    rw [growLoop]
    unfold doublingTurn at hdone
    split at hdone <;> rename_i hless
    · rw [if_pos hless]
      split at hdone <;> rename_i hhalf
      · rw [if_pos hhalf, Turn.done.inj hdone]
      · cases hdone
    · rw [if_neg hless, Turn.done.inj hdone]
  | again hagain _ ih =>
    obtain ⟨rounds, rfl⟩ := Nat.exists_eq_succ_of_ne_zero (Nat.ne_of_gt (Nat.zero_lt_of_lt hrounds))
    rw [growLoop]
    unfold doublingTurn at hagain
    split at hagain <;> rename_i hless
    · rw [if_pos hless]
      split at hagain <;> rename_i hhalf
      · cases hagain
      · rw [if_neg hhalf, Turn.again.inj hagain]
        exact ih (by omega)
    · cases hagain

/-- The loop of `default_bucket_count` is the same. -/
theorem defaultBucketLoop_eq_growLoop (capacity : BitVec w) (rounds : ℕ) (buckets : BitVec w) :
    defaultBucketLoop capacity rounds buckets = growLoop rounds buckets capacity := by
  induction rounds generalizing buckets with
  | zero => rfl
  | succ rounds ih =>
    rw [defaultBucketLoop, growLoop, ih]

/-- The capacity that `grow_capacity` starts from. -/
def growStart (current : BitVec w) : BitVec w := if 0 < current then current else 1

/-- **`grow_capacity`** runs the loop to its end. -/
theorem doubles_growCapacity (current required : BitVec w)
    (hpos : 0 < (growStart current).toNat) :
    Doubles (growStart current) required (growCapacity current required) := by
  obtain ⟨result, h⟩ := exists_doubles hpos required
  obtain ⟨turns, hturns, hreturns⟩ := h.terminates
  rw [growCapacity, ← growStart, growLoop_of_returns hreturns hturns]
  exact h

/-- **`default_bucket_count`** runs the loop to its end. -/
theorem doubles_defaultBucketCount (hpos : 0 < (4 : BitVec w).toNat) (capacity : BitVec w) :
    Doubles 4 capacity (defaultBucketCount capacity) := by
  obtain ⟨result, h⟩ := exists_doubles hpos capacity
  obtain ⟨turns, hturns, hreturns⟩ := h.terminates
  rw [defaultBucketCount, defaultBucketLoop_eq_growLoop, growLoop_of_returns hreturns hturns]
  exact h

/-- **Growth terminates and suffices**: on 64-bit words `grow_capacity` and `default_bucket_count`
end without a doubling that wraps, with a number that is enough, not below the start, and less than
twice what is required unless it is that. -/
theorem capacity_growth_suffices (current required capacity : BitVec 64) :
    (Doubles (growStart current) required (growCapacity current required) ∧
      required ≤ growCapacity current required ∧
      max current.toNat 1 ≤ (growCapacity current required).toNat ∧
      (current < required → growCapacity current required = required ∨
        (growCapacity current required).toNat < 2 * required.toNat)) ∧
    Doubles 4 capacity (defaultBucketCount capacity) ∧
      capacity ≤ defaultBucketCount capacity ∧
      4 ≤ (defaultBucketCount capacity).toNat ∧
      (4 < capacity → defaultBucketCount capacity = capacity ∨
        (defaultBucketCount capacity).toNat < 2 * capacity.toNat) := by
  have hstart : (growStart current).toNat = max current.toNat 1 := by
    unfold growStart
    split
    · next h =>
      rw [BitVec.lt_def] at h
      exact (max_eq_left h).symm
    · next h =>
      rw [BitVec.lt_def, not_lt] at h
      exact (max_eq_right (h.trans (Nat.zero_le 1))).symm
  have hgrow := doubles_growCapacity current required (by rw [hstart]; omega)
  have hbuckets := doubles_defaultBucketCount (w := 64) (by decide) capacity
  refine ⟨⟨hgrow, hgrow.enough, ?_, fun hless => hgrow.tight ?_⟩, hbuckets, hbuckets.enough, ?_,
    fun hless => hbuckets.tight (BitVec.le_of_lt hless)⟩
  · rw [← hstart, ← BitVec.le_def]
    exact hgrow.start_le
  · rw [BitVec.le_def, hstart]
    rw [BitVec.lt_def] at hless
    omega
  · have h := hbuckets.start_le
    rwa [BitVec.le_def] at h

end Memkit
