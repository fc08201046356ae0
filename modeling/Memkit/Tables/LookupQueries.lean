import Memkit.Tables.LookupTable

/-! # What the queries of a lookup table return

* **`search_correct`** — `at` never reads outside the table and its search ends between neighbouring
  keys; in nearest mode its value is that of a key nearest to the query.
* **`scan_spec`** — the linear search of `lookup` in exact mode.
* **`lookup_agrees_iff`** — when `lookup` and `at` agree. `at` looks at the mode only inside the key
  range: outside it returns an end value in exact mode too. -/

namespace Memkit

namespace SortedTable

open Loop LookupTable

variable {w : ℕ} {X Y : Type} [LinearOrder X] {t : SortedTable w X Y} {x : X}
  {ops : LookupOps X Y} {lo hi : BitVec w}

/-! ## Faults -/

/-- Every query is below, above or inside the key range. -/
theorem range_cases (t : SortedTable w X Y) (x : X) :
    x ≤ t.keys 0 ∨ t.keys t.last ≤ x ∨ (t.keys 0 < x ∧ x < t.keys t.last) := by
  by_cases hfirst : x ≤ t.keys 0
  · exact .inl hfirst
  · by_cases hlast : t.keys t.last ≤ x
    · exact .inr (.inl hlast)
    · exact .inr (.inr ⟨not_le.mp hfirst, not_le.mp hlast⟩)

/-- The lower neighbour is in the table. -/
theorem Brackets.lo_lt (h : Brackets t x lo hi) : lo.toNat < t.size := by
  have hnext := h.next
  have hhi := h.hi_lt
  omega

/-- The nearest branch, with its reads done. -/
theorem Brackets.between_nearest (h : Brackets t x lo hi) (hmode : t.mode = .nearest) :
    t.between ops x lo hi = (do
      let dxLo ← (ops.sub x (t.keys lo.toNat)).mapError .arithmetic
      let dxHi ← (ops.sub (t.keys hi.toNat) x).mapError .arithmetic
      if dxHi < dxLo then .ok (t.values hi.toNat) else .ok (t.values lo.toNat)) := by
  rw [between, hmode, key_eq h.lo_lt, key_eq h.hi_lt, value_eq h.lo_lt, value_eq h.hi_lt]
  rfl

/-- The exact branch, with its reads done. -/
theorem Brackets.between_exact (h : Brackets t x lo hi) (hmode : t.mode = .exact) :
    t.between ops x lo hi =
      if t.keys lo.toNat = x then .ok (t.values lo.toNat) else .ok ops.zero := by
  rw [between, hmode, key_eq h.lo_lt, key_eq h.hi_lt, value_eq h.lo_lt, value_eq h.hi_lt]
  change (if t.keys lo.toNat = x then _ else if t.keys hi.toNat = x then _ else _) = _
  rw [if_neg h.lt_hi.ne']

/-- The interpolating branch, with its reads done. -/
theorem Brackets.between_interpolate (h : Brackets t x lo hi) (hmode : t.mode = .interpolate) :
    t.between ops x lo hi = (ops.interpolate (t.keys lo.toNat) (t.values lo.toNat) (t.keys hi.toNat)
      (t.values hi.toNat) x).mapError .arithmetic := by
  rw [between, hmode, key_eq h.lo_lt, key_eq h.hi_lt, value_eq h.lo_lt, value_eq h.hi_lt]
  rfl

/-- A query fails by an arithmetic operation only. -/
theorem atKey_fault {fault : LookupFault} (h : t.atKey ops x = .error fault) :
    ∃ a, fault = .arithmetic a := by
  rcases range_cases t x with hfirst | hlast | ⟨hfirst, hlast⟩
  · rw [atKey_first hfirst] at h
    cases h
  · rw [atKey_last hlast] at h
    cases h
  · obtain ⟨lo, hi, hbrackets, hat⟩ := atKey_inside ops hfirst hlast
    rw [hat] at h
    cases hmode : t.mode with
    | interpolate =>
      rw [hbrackets.between_interpolate hmode] at h
      cases hop : ops.interpolate (t.keys lo.toNat) (t.values lo.toNat) (t.keys hi.toNat)
          (t.values hi.toNat) x with
      | error a =>
        rw [hop] at h
        exact ⟨a, (Except.error.inj h).symm⟩
      | ok v =>
        rw [hop] at h
        cases h
    | exact =>
      rw [hbrackets.between_exact hmode] at h
      split at h <;> cases h
    | nearest =>
      rw [hbrackets.between_nearest hmode] at h
      cases hdxLo : ops.sub x (t.keys lo.toNat) with
      | error a =>
        rw [hdxLo] at h
        exact ⟨a, (Except.error.inj h).symm⟩
      | ok dxLo =>
        cases hdxHi : ops.sub (t.keys hi.toNat) x with
        | error a =>
          rw [hdxLo, hdxHi] at h
          exact ⟨a, (Except.error.inj h).symm⟩
        | ok dxHi =>
          rw [hdxLo, hdxHi] at h
          change (if dxHi < dxLo then _ else _) = _ at h
          split at h <;> cases h

/-! ## The nearest key -/

/-- The operations on integral keys. -/
def integralOps (τ : IntegralType)
    (interpolate : τ.Value → Y → τ.Value → Y → τ.Value → Except ArithmeticFault Y) (zero : Y) :
    LookupOps τ.Value Y :=
  ⟨τ.sub, interpolate, zero⟩

/-- The distance of a query to a key. -/
def distance {τ : IntegralType} (t : SortedTable w τ.Value Y) (x : τ.Value) (i : ℕ) : ℤ :=
  |x.val - (t.keys i).val|

/-- The key at an index is nearest to the query. -/
def Nearest {τ : IntegralType} (t : SortedTable w τ.Value Y) (x : τ.Value) (i : ℕ) : Prop :=
  i < t.size ∧ ∀ j < t.size, t.distance x i ≤ t.distance x j

/-- The differences of the keys are values of the key type. -/
def GapsFit {τ : IntegralType} (t : SortedTable w τ.Value Y) : Prop :=
  ∀ i j, i < j → j < t.size → τ.Holds ((t.keys j).val - (t.keys i).val)

section Nearest

variable {τ : IntegralType} {t : SortedTable w τ.Value Y} {x : τ.Value} {i j : ℕ}

theorem distance_of_le (h : t.keys i ≤ x) : t.distance x i = x.val - (t.keys i).val :=
  abs_of_nonneg (sub_nonneg.mpr h)

theorem distance_of_ge (h : x ≤ t.keys i) : t.distance x i = (t.keys i).val - x.val := by
  rw [distance, abs_sub_comm]
  exact abs_of_nonneg (sub_nonneg.mpr h)

/-- Below the query the later key is nearer, -/
theorem distance_anti (hij : i ≤ j) (hj : j < t.size) (h : t.keys j ≤ x) :
    t.distance x j ≤ t.distance x i := by
  have hle := key_le hij hj
  rw [distance_of_le h, distance_of_le (hle.trans h)]
  exact Int.sub_le_sub_left hle _

/-- and above it the earlier one. -/
theorem distance_mono (hij : i ≤ j) (hj : j < t.size) (h : x ≤ t.keys i) :
    t.distance x i ≤ t.distance x j := by
  have hle := key_le hij hj
  rw [distance_of_ge h, distance_of_ge (h.trans hle)]
  exact Int.sub_le_sub_right hle _

theorem nearest_first (h : x ≤ t.keys 0) : Nearest t x 0 :=
  ⟨t.size_pos, fun j hj => distance_mono (Nat.zero_le j) hj h⟩

theorem nearest_last (h : t.keys t.last ≤ x) : Nearest t x t.last := by
  refine ⟨t.last_lt, fun j hj => distance_anti ?_ t.last_lt h⟩
  rw [last]
  omega

/-- Of the two neighbours of a query the nearer one is nearest of all. -/
theorem Brackets.nearest {lo hi : BitVec w} (h : Brackets t x lo hi) :
    Nearest t x (if t.distance x hi.toNat < t.distance x lo.toNat then hi.toNat else lo.toNat) := by
  have hnearer : ∀ i, t.distance x i ≤ t.distance x lo.toNat →
      t.distance x i ≤ t.distance x hi.toNat → ∀ j < t.size, t.distance x i ≤ t.distance x j := by
    intro i hlo hhi j hj
    rcases Nat.lt_or_ge lo.toNat j with hless | hle
    · exact hhi.trans (distance_mono (by rw [h.next]; exact hless) hj h.lt_hi.le)
    · exact hlo.trans (distance_anti hle h.lo_lt h.lo_le)
  split
  · next hless => exact ⟨h.hi_lt, hnearer _ hless.le le_rfl⟩
  · next hless => exact ⟨h.lo_lt, hnearer _ le_rfl (not_lt.mp hless)⟩

/-- **Nearest mode** returns the value of a nearest key. -/
theorem atKey_nearest
    (interpolate : τ.Value → Y → τ.Value → Y → τ.Value → Except ArithmeticFault Y) (zero : Y)
    (hmode : t.mode = .nearest) (hgaps : GapsFit t) :
    ∃ i, Nearest t x i ∧ t.atKey (integralOps τ interpolate zero) x = .ok (t.values i) := by
  rcases range_cases t x with hfirst | hlast | ⟨hfirst, hlast⟩
  · exact ⟨0, nearest_first hfirst, atKey_first hfirst⟩
  · exact ⟨t.last, nearest_last hlast, atKey_last hlast⟩
  · obtain ⟨lo, hi, h, hat⟩ := atKey_inside (integralOps τ interpolate zero) hfirst hlast
    have hgap := hgaps lo.toNat hi.toNat (by rw [h.next]; exact Nat.lt_succ_self _) h.hi_lt
    have hlo : (t.keys lo.toNat).val ≤ x.val := h.lo_le
    have hhi : x.val < (t.keys hi.toNat).val := h.lt_hi
    -- both differences lie between zero and the gap of the neighbours
    have hdxLo := IntegralType.sub_of_holds
      ((IntegralType.holds_zero τ).between hgap (v := x.val - (t.keys lo.toNat).val)
        (by omega) (by omega))
    have hdxHi := IntegralType.sub_of_holds
      ((IntegralType.holds_zero τ).between hgap (v := (t.keys hi.toNat).val - x.val)
        (by omega) (by omega))
    refine ⟨_, h.nearest, ?_⟩
    rw [hat, h.between_nearest hmode]
    change (do
      let dxLo ← (τ.sub x (t.keys lo.toNat)).mapError LookupFault.arithmetic
      let dxHi ← (τ.sub (t.keys hi.toNat) x).mapError LookupFault.arithmetic
      if dxHi < dxLo then Except.ok (t.values hi.toNat) else .ok (t.values lo.toNat)) = _
    rw [hdxLo, hdxHi]
    rw [distance_of_le h.lo_le, distance_of_ge h.lt_hi.le]
    change (if (t.keys hi.toNat).val - x.val < x.val - (t.keys lo.toNat).val then
      Except.ok (t.values hi.toNat) else .ok (t.values lo.toNat)) = _
    rw [← apply_ite Except.ok, ← apply_ite t.values]

end Nearest

/-- **The search of `at` is correct**: for a query inside the key range it ends between neighbouring
keys around it, no query reads outside the table or goes on for ever, and in nearest mode over
integral keys with representable differences the value belongs to a nearest key. -/
theorem search_correct (w : ℕ) (Y : Type) :
    (∀ (X : Type) [LinearOrder X] (ops : LookupOps X Y) (t : SortedTable w X Y) (x : X),
      (t.keys 0 < x → x < t.keys t.last → ∃ turns < t.size, ∃ lo hi,
        Returns (t.searchTurn x) (0, t.count - 1) turns (.ok (lo, hi)) ∧
          t.search x = .ok (lo, hi) ∧ Brackets t x lo hi) ∧
      t.atKey ops x ≠ .error .outOfTable ∧ t.atKey ops x ≠ .error .endless) ∧
    ∀ (τ : IntegralType)
      (interpolate : τ.Value → Y → τ.Value → Y → τ.Value → Except ArithmeticFault Y) (zero : Y)
      (t : SortedTable w τ.Value Y) (x : τ.Value), t.mode = .nearest → GapsFit t →
      ∃ i, Nearest t x i ∧ t.atKey (integralOps τ interpolate zero) x = .ok (t.values i) := by
  refine ⟨fun X _ ops t x => ⟨search_spec, fun h => ?_, fun h => ?_⟩, ?_⟩
  · obtain ⟨a, ha⟩ := atKey_fault h
    cases ha
  · obtain ⟨a, ha⟩ := atKey_fault h
    cases ha
  · intro τ interpolate zero t x hmode hgaps
    exact atKey_nearest interpolate zero hmode hgaps

/-- `std::int32_t`. -/
def int32 : IntegralType := .int true .w32

/-- Keys 0, 10, 20 and 30 with values 100, 200, 300 and 400, in a mode. -/
def fourPoints (mode : LookupMode) : SortedTable 64 int32.Value int32.Value where
  keys i := int32.convert (10 * i)
  values i := int32.convert (100 + 100 * i)
  count := 4
  mode := mode
  count_ne := by decide
  increasing i j hij hj := by
    have hall : ∀ j < 4, ∀ i < j, int32.convert (10 * (i : ℕ)) < int32.convert (10 * (j : ℕ)) := by
      decide
    exact hall j hj i hij

/-- 16 lies between 10 and 20 and is nearest to one of them. -/
theorem search_correct_fourPoints :
    (∃ turns < 4, ∃ lo hi,
      Returns ((fourPoints .nearest).searchTurn (int32.convert 16)) (0, 3) turns (.ok (lo, hi)) ∧
        (fourPoints .nearest).search (int32.convert 16) = .ok (lo, hi) ∧
        Brackets (fourPoints .nearest) (int32.convert 16) lo hi) ∧
    ∃ i, Nearest (fourPoints .nearest) (int32.convert 16) i ∧
      (fourPoints .nearest).atKey (integralOps int32 (fun _ y _ _ _ => .ok y) int32.zero)
        (int32.convert 16) = .ok ((fourPoints .nearest).values i) := by
  have hgaps : GapsFit (fourPoints .nearest) := by
    have hall : ∀ j < 4, ∀ i < j, int32.Holds
        ((int32.convert (10 * (j : ℕ))).val - (int32.convert (10 * (i : ℕ))).val) := by
      decide
    exact fun i j hij hj => hall j hj i hij
  exact ⟨((search_correct 64 int32.Value).1 _ (integralOps int32 (fun _ y _ _ _ => .ok y) int32.zero)
      (fourPoints .nearest) (int32.convert 16)).1 (by decide) (by decide),
    (search_correct 64 int32.Value).2 int32 _ int32.zero (fourPoints .nearest) (int32.convert 16) rfl
      hgaps⟩

/-! ## The linear search -/

/-- What the linear search owes. -/
def Scanned (t : SortedTable w X Y) (x : X) (r : Except LookupFault (Option Y)) : Prop :=
  (∃ i < t.size, t.keys i = x ∧ r = .ok (some (t.values i))) ∨
    ((∀ i < t.size, t.keys i ≠ x) ∧ r = .ok none)

/-- The linear search has come to an index: the key is none of those before. -/
structure Scanning (t : SortedTable w X Y) (x : X) (i : BitVec w) : Prop where
  before : ∀ j < i.toNat, t.keys j ≠ x
  le : i.toNat ≤ t.size

/-- A turn that goes on passes a key that is another one. -/
theorem Scanning.again {i i' : BitVec w} (h : Scanning t x i) (hturn : t.scanTurn x i = .again i') :
    Scanning t x i' ∧ t.size - i'.toNat < t.size - i.toNat := by
  unfold scanTurn at hturn
  split at hturn
  · next hless =>
    rw [BitVec.lt_def] at hless
    rw [key_eq hless] at hturn
    dsimp only at hturn
    split at hturn
    · cases hturn
    · next hne =>
      obtain rfl := Turn.again.inj hturn
      have hsize : i.toNat < t.size := hless
      have hnext := WrapCounter.toNat_succ hless
      refine ⟨⟨fun j hj => ?_, by rw [hnext]; exact hless⟩, by omega⟩
      rw [hnext] at hj
      rcases Nat.lt_succ_iff_lt_or_eq.mp hj with hlt | rfl
      · exact h.before j hlt
      · exact hne
  · cases hturn

/-- A turn that ends has found the key, or come to the end of the table. -/
theorem Scanning.done {i : BitVec w} {r : Except LookupFault (Option Y)} (h : Scanning t x i)
    (hturn : t.scanTurn x i = .done r) : Scanned t x r := by
  unfold scanTurn at hturn
  split at hturn
  · next hless =>
    rw [BitVec.lt_def] at hless
    rw [key_eq hless, value_eq hless] at hturn
    dsimp only at hturn
    split at hturn
    · next heq => exact .inl ⟨i.toNat, hless, heq, (Turn.done.inj hturn).symm⟩
    · cases hturn
  · next hless =>
    rw [BitVec.lt_def, not_lt] at hless
    exact .inr ⟨fun j hj => h.before j (lt_of_lt_of_le hj hless), (Turn.done.inj hturn).symm⟩

/-- **The linear search** of `lookup` ends and finds the key if it is there. -/
theorem scan_spec (t : SortedTable w X Y) (x : X) : Scanned t x (t.scan x) := by
  have hstart : Scanning t x 0 := by
    constructor
    · rw [toNat_zero_index]
      exact fun j hj => absurd hj (Nat.not_lt_zero j)
    · rw [toNat_zero_index]
      exact Nat.zero_le _
  obtain ⟨turns, hturns, r, hreturns, hscanned⟩ :=
    exists_returns (t.scanTurn x) (Scanning t x) (fun i => t.size - i.toNat) (Scanned t x)
      (fun i i' h hturn => h.again hturn) (fun i r h hturn => h.done hturn) hstart
  rw [toNat_zero_index, Nat.sub_zero] at hturns
  have hrun := hreturns.run_eq (Nat.lt_succ_of_le hturns)
  rw [size] at hrun
  rw [scan, hrun, Option.getD_some]
  exact hscanned

/-! ## The two queries -/

/-- `lookup` in exact mode, by what the linear search finds. -/
theorem lookup_exact (hmode : t.mode = .exact) (ops : LookupOps X Y) (x : X) :
    (∃ i < t.size, t.keys i = x ∧ t.lookup ops x = .ok (.ok, some (t.values i))) ∨
      ((∀ i < t.size, t.keys i ≠ x) ∧ t.lookup ops x = .ok (.notFound, none)) := by
  rw [lookup, if_neg t.count_ne, if_pos hmode]
  rcases scan_spec t x with ⟨i, hi, hkey, hscan⟩ | ⟨hnone, hscan⟩
  · rw [hscan]
    exact .inl ⟨i, hi, hkey, rfl⟩
  · rw [hscan]
    exact .inr ⟨hnone, rfl⟩

/-- `lookup` in the other modes asks `at`. -/
theorem lookup_other (hmode : t.mode ≠ .exact) {ops : LookupOps X Y} {st : Status} {out : Option Y}
    (hlookup : t.lookup ops x = .ok (st, out)) :
    ∃ v, t.atKey ops x = .ok v ∧ st = .ok ∧ out = some v := by
  rw [lookup, if_neg t.count_ne, if_neg hmode] at hlookup
  cases hat : t.atKey ops x with
  | error fault =>
    rw [hat] at hlookup
    cases hlookup
  | ok v =>
    rw [hat] at hlookup
    obtain ⟨hst, hout⟩ := Prod.mk.inj (Except.ok.inj hlookup)
    exact ⟨v, rfl, hst.symm, hout.symm⟩

/-- `at` of a stored key in exact mode. -/
theorem atKey_stored (hmode : t.mode = .exact) {i : ℕ} (hi : i < t.size) (hkey : t.keys i = x) :
    t.atKey ops x = .ok (t.values i) := by
  rcases range_cases t x with hfirst | hlast | ⟨hfirst, hlast⟩
  · have hzero : i = 0 := index_eq hi t.size_pos
      (le_antisymm (hkey.trans_le hfirst) (key_le (Nat.zero_le i) hi))
    rw [atKey_first hfirst, hzero]
  · have hend : i = t.last := index_eq hi t.last_lt
      (le_antisymm (key_le (by rw [last]; omega) t.last_lt) (hlast.trans_eq hkey.symm))
    rw [atKey_last hlast, hend]
  · obtain ⟨lo, hi', h, hat⟩ := atKey_inside ops hfirst hlast
    have hlo : i = lo.toNat := by
      have hless : i < hi'.toNat := index_lt_of_key_lt hi (hkey ▸ h.lt_hi)
      have hle : lo.toNat ≤ i := index_le_of_key_le h.lo_lt (hkey ▸ h.lo_le)
      have hnext := h.next
      omega
    rw [hat, h.between_exact hmode, hlo, if_pos (hlo ▸ hkey)]

/-- `at` in exact mode inside the key range, of a key that is not stored. -/
theorem atKey_missing (hmode : t.mode = .exact) (hnone : ∀ i < t.size, t.keys i ≠ x)
    (hfirst : t.keys 0 ≤ x) (hlast : x ≤ t.keys t.last) : t.atKey ops x = .ok ops.zero := by
  obtain ⟨lo, hi, h, hat⟩ := atKey_inside ops
    (lt_of_le_of_ne hfirst (hnone 0 t.size_pos)) (lt_of_le_of_ne hlast (hnone _ t.last_lt).symm)
  rw [hat, h.between_exact hmode, if_neg (hnone _ h.lo_lt)]

/-- `lookup` and `at` agree on a query. -/
def Agrees (ops : LookupOps X Y) (t : SortedTable w X Y) (x : X) : Prop :=
  (∀ v, t.lookup ops x = .ok (.ok, some v) → t.atKey ops x = .ok v) ∧
    ∀ out, t.lookup ops x = .ok (.notFound, out) → t.atKey ops x = .ok ops.zero

/-- **`lookup` and `at` agree** exactly if the mode is not exact, or the query is in the key range, or
the end value that `at` returns outside it is the value of no match. -/
theorem lookup_agrees_iff (ops : LookupOps X Y) (t : SortedTable w X Y) (x : X) :
    Agrees ops t x ↔ t.mode ≠ .exact ∨ (t.keys 0 ≤ x ∧ x ≤ t.keys t.last) ∨
      (x < t.keys 0 ∧ t.values 0 = ops.zero) ∨
      (t.keys t.last < x ∧ t.values t.last = ops.zero) := by
  by_cases hmode : t.mode = .exact
  · rcases lookup_exact hmode ops x with ⟨i, hi, hkey, hlookup⟩ | ⟨hnone, hlookup⟩
    · -- a stored key is in the range
      have hrange : t.keys 0 ≤ x ∧ x ≤ t.keys t.last :=
        ⟨hkey ▸ key_le (Nat.zero_le i) hi, hkey ▸ key_le (by rw [last]; omega) t.last_lt⟩
      refine iff_of_true ⟨fun v hv => ?_, fun out hout => ?_⟩ (.inr (.inl hrange))
      · obtain rfl : t.values i = v := by
          rw [hlookup] at hv
          exact Option.some.inj (Prod.mk.inj (Except.ok.inj hv)).2
        exact atKey_stored hmode hi hkey
      · rw [hlookup] at hout
        cases hout
    · have hiff : Agrees ops t x ↔ t.atKey ops x = .ok ops.zero := by
        refine ⟨fun h => h.2 none hlookup, fun h => ⟨fun v hv => ?_, fun _ _ => h⟩⟩
        rw [hlookup] at hv
        cases hv
      rw [hiff]
      rcases lt_or_ge x (t.keys 0) with hbelow | hfirst
      · have hlast : x < t.keys t.last := hbelow.trans_le (key_le (Nat.zero_le _) t.last_lt)
        rw [atKey_first hbelow.le, Except.ok.injEq]
        simp [hmode, hbelow, hbelow.not_ge, hlast.not_gt]
      · rcases lt_or_ge (t.keys t.last) x with habove | hlast
        · rw [atKey_last habove.le, Except.ok.injEq]
          simp [hmode, habove, habove.not_ge, hfirst.not_gt]
        · exact iff_of_true (atKey_missing hmode hnone hfirst hlast) (.inr (.inl ⟨hfirst, hlast⟩))
  · refine iff_of_true ⟨fun v hv => ?_, fun out hout => ?_⟩ (.inl hmode)
    · obtain ⟨u, hat, -, hout⟩ := lookup_other hmode hv
      rw [hat, Option.some.inj hout]
    · obtain ⟨u, -, hst, -⟩ := lookup_other hmode hout
      cases hst

/-- In exact mode a query of -5 is not found, and `at` returns the first value. -/
theorem not_agrees_below :
    ¬ Agrees (integralOps int32 (fun _ y _ _ _ => .ok y) int32.zero) (fourPoints .exact)
      (int32.convert (-5)) := by
  intro h
  have hlookup : (fourPoints .exact).lookup
      (integralOps int32 (fun _ y _ _ _ => .ok y) int32.zero) (int32.convert (-5)) =
        .ok (.notFound, none) := by
    decide
  have hat := h.2 none hlookup
  revert hat
  decide

end SortedTable

end Memkit
