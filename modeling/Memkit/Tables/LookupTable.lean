import Memkit.Core.Status
import Memkit.Foundations.Checked
import Memkit.Foundations.IntegralType
import Memkit.Foundations.Loop

/-! # The lookup table

`containers/lookup_table.hpp`: keys in increasing order with a value each, queried through `at` with
a binary search and through `lookup`, which in exact mode has a linear search of its own.

* **`LookupTable`** — the arrays of the caller, the count and the mode.
* **`atKey`**, **`lookup`** — the two queries. A read outside the table, a search without an end and a
  failed arithmetic operation are faults.
* **`SortedTable`** — a table that is not empty and whose keys increase.
* **`search_spec`** — the binary search brackets the query. -/

namespace Memkit

/-- `lookup_mode`. -/
inductive LookupMode
  | interpolate
  | nearest
  | exact
  deriving DecidableEq

/-- How a query fails to return. -/
inductive LookupFault
  /-- A read outside the table. -/
  | outOfTable
  /-- The search does not end. -/
  | endless
  /-- An operation on keys or values fails. -/
  | arithmetic (fault : ArithmeticFault)
  deriving DecidableEq

/-- What the queries use of the types `X` and `Y` beside the order of the keys. -/
structure LookupOps (X Y : Type) where
  /-- The difference of two keys as a key. -/
  sub : X → X → Except ArithmeticFault X
  /-- `interpolate`. -/
  interpolate : X → Y → X → Y → X → Except ArithmeticFault Y
  /-- `Y{}`. -/
  zero : Y

/-- The members of `LookupTable` with the arrays they point to. -/
structure LookupTable (w : ℕ) (X Y : Type) where
  /-- `keys_`. -/
  keys : ℕ → X
  /-- `values_`. -/
  values : ℕ → Y
  /-- `count_`. -/
  count : BitVec w
  /-- `mode_`. -/
  mode : LookupMode

namespace LookupTable

open Loop

variable {w : ℕ} {X Y : Type}

/-- `init`, which rejects null arrays and an empty table. -/
def init (keys : Option (ℕ → X)) (values : Option (ℕ → Y)) (count : BitVec w)
    (mode : LookupMode) : Except Status (LookupTable w X Y) :=
  match keys, values with
  | some keys, some values =>
    if count = 0 then .error .invalid else .ok ⟨keys, values, count, mode⟩
  | _, _ => .error .invalid

/-- `keys_[i]`. -/
def key (t : LookupTable w X Y) (i : BitVec w) : Except LookupFault X :=
  (Checked.readAt t.count.toNat t.keys i.toNat).elim (.error .outOfTable) .ok

/-- `values_[i]`. -/
def value (t : LookupTable w X Y) (i : BitVec w) : Except LookupFault Y :=
  (Checked.readAt t.count.toNat t.values i.toNat).elim (.error .outOfTable) .ok

variable [LinearOrder X]

/-- One turn of the binary search, on `lo` and `hi`. -/
def searchTurn (t : LookupTable w X Y) (x : X) (s : BitVec w × BitVec w) :
    Turn (BitVec w × BitVec w) (Except LookupFault (BitVec w × BitVec w)) :=
  if s.1 + 1 < s.2 then
    match t.key (s.1 + ((s.2 - s.1) >>> 1)) with
    | .error fault => .done (.error fault)
    | .ok key =>
      if key ≤ x then .again (s.1 + ((s.2 - s.1) >>> 1), s.2)
      else .again (s.1, s.1 + ((s.2 - s.1) >>> 1))
  else .done (.ok s)

/-- The binary search. -/
def search (t : LookupTable w X Y) (x : X) : Except LookupFault (BitVec w × BitVec w) :=
  (Loop.run (t.searchTurn x) t.count.toNat (0, t.count - 1)).getD (.error .endless)

/-- The part of `at` after the search, by mode. -/
def between (ops : LookupOps X Y) (t : LookupTable w X Y) (x : X) (lo hi : BitVec w) :
    Except LookupFault Y :=
  match t.mode with
  | .nearest => do
    let keyLo ← t.key lo
    let dxLo ← (ops.sub x keyLo).mapError .arithmetic
    let keyHi ← t.key hi
    let dxHi ← (ops.sub keyHi x).mapError .arithmetic
    if dxHi < dxLo then t.value hi else t.value lo
  | .exact => do
    let keyLo ← t.key lo
    if keyLo = x then t.value lo
    else do
      let keyHi ← t.key hi
      if keyHi = x then t.value hi else .ok ops.zero
  | .interpolate => do
    let x0 ← t.key lo
    let y0 ← t.value lo
    let x1 ← t.key hi
    let y1 ← t.value hi
    (ops.interpolate x0 y0 x1 y1 x).mapError .arithmetic

/-- `at`. -/
def atKey (ops : LookupOps X Y) (t : LookupTable w X Y) (x : X) : Except LookupFault Y :=
  if t.count = 0 then .ok ops.zero
  else if t.count = 1 then t.value 0
  else do
    let first ← t.key 0
    if x ≤ first then t.value 0
    else do
      let last ← t.key (t.count - 1)
      if last ≤ x then t.value (t.count - 1)
      else do
        let s ← t.search x
        t.between ops x s.1 s.2

/-- One turn of the linear search of `lookup`, on its index. -/
def scanTurn (t : LookupTable w X Y) (x : X) (i : BitVec w) :
    Turn (BitVec w) (Except LookupFault (Option Y)) :=
  if i < t.count then
    match t.key i with
    | .error fault => .done (.error fault)
    | .ok key => if key = x then .done ((t.value i).map some) else .again (i + 1)
  else .done (.ok none)

/-- The linear search of `lookup`: the value that it finds. -/
def scan (t : LookupTable w X Y) (x : X) : Except LookupFault (Option Y) :=
  (Loop.run (t.scanTurn x) (t.count.toNat + 1) 0).getD (.error .endless)

/-- `lookup`: its status and what it writes to `out`. -/
def lookup (ops : LookupOps X Y) (t : LookupTable w X Y) (x : X) :
    Except LookupFault (Status × Option Y) :=
  if t.count = 0 then .ok (.invalid, none)
  else if t.mode = .exact then do
    match ← t.scan x with
    | some value => .ok (.ok, some value)
    | none => .ok (.notFound, none)
  else do
    let value ← t.atKey ops x
    .ok (.ok, some value)

end LookupTable

/-- A table that is not empty, with strictly increasing keys. -/
structure SortedTable (w : ℕ) (X Y : Type) [LinearOrder X] extends LookupTable w X Y where
  count_ne : count ≠ 0
  increasing : ∀ i j, i < j → j < count.toNat → keys i < keys j

namespace SortedTable

open Loop LookupTable

variable {w : ℕ} {X Y : Type} [LinearOrder X] {t : SortedTable w X Y} {x : X}

/-- The number of entries. -/
def size (t : SortedTable w X Y) : ℕ := t.count.toNat

/-- The last index. -/
def last (t : SortedTable w X Y) : ℕ := t.size - 1

theorem size_pos (t : SortedTable w X Y) : 0 < t.size := by
  by_contra h
  apply t.count_ne
  apply BitVec.eq_of_toNat_eq
  exact (Nat.le_zero.mp (not_lt.mp h)).trans BitVec.toNat_zero.symm

theorem size_lt (t : SortedTable w X Y) : t.size < 2 ^ w := t.count.isLt

theorem last_lt (t : SortedTable w X Y) : t.last < t.size := Nat.sub_one_lt t.size_pos.ne'

/-- The keys increase with the index. -/
theorem key_le {i j : ℕ} (hij : i ≤ j) (hj : j < t.size) : t.keys i ≤ t.keys j := by
  rcases hij.lt_or_eq with hlt | rfl
  · exact (t.increasing i j hlt hj).le
  · exact le_rfl

theorem index_lt_of_key_lt {i j : ℕ} (hi : i < t.size) (h : t.keys i < t.keys j) : i < j := by
  by_contra hij
  exact absurd (key_le (not_lt.mp hij) hi) (not_le.mpr h)

theorem index_le_of_key_le {i j : ℕ} (hi : i < t.size) (h : t.keys i ≤ t.keys j) : i ≤ j := by
  by_contra hij
  exact absurd h (not_le.mpr (t.increasing j i (not_le.mp hij) hi))

/-- Different indices have different keys. -/
theorem index_eq {i j : ℕ} (hi : i < t.size) (hj : j < t.size) (h : t.keys i = t.keys j) :
    i = j := by
  rcases lt_trichotomy i j with hlt | heq | hgt
  · exact absurd h (t.increasing i j hlt hj).ne
  · exact heq
  · exact absurd h (t.increasing j i hgt hi).ne'

/-! ## Reads -/

theorem key_eq {i : BitVec w} (h : i.toNat < t.size) : t.key i = .ok (t.keys i.toNat) := by
  rw [LookupTable.key, Checked.readAt_of_lt (by exact h)]
  rfl

theorem value_eq {i : BitVec w} (h : i.toNat < t.size) : t.value i = .ok (t.values i.toNat) := by
  rw [LookupTable.value, Checked.readAt_of_lt (by exact h)]
  rfl

theorem toNat_last (t : SortedTable w X Y) : (t.count - 1).toNat = t.last := by
  have h := WrapCounter.toNat_pred t.count_ne
  rw [last, size, ← h, Nat.add_sub_cancel]

theorem toNat_zero_index (w : ℕ) : (0 : BitVec w).toNat = 0 := BitVec.toNat_zero

theorem key_zero (t : SortedTable w X Y) : t.key 0 = .ok (t.keys 0) := by
  rw [key_eq (by rw [toNat_zero_index]; exact t.size_pos), toNat_zero_index]

theorem value_zero (t : SortedTable w X Y) : t.value 0 = .ok (t.values 0) := by
  rw [value_eq (by rw [toNat_zero_index]; exact t.size_pos), toNat_zero_index]

theorem key_last (t : SortedTable w X Y) : t.key (t.count - 1) = .ok (t.keys t.last) := by
  rw [key_eq (by rw [toNat_last]; exact t.last_lt), toNat_last]

theorem value_last (t : SortedTable w X Y) : t.value (t.count - 1) = .ok (t.values t.last) := by
  rw [value_eq (by rw [toNat_last]; exact t.last_lt), toNat_last]

/-! ## The binary search -/

/-- The bounds enclose the query. -/
structure Encloses (t : SortedTable w X Y) (x : X) (s : BitVec w × BitVec w) : Prop where
  lt : s.1.toNat < s.2.toNat
  hi_lt : s.2.toNat < t.size
  lo_le : t.keys s.1.toNat ≤ x
  lt_hi : x < t.keys s.2.toNat

/-- The middle of the bounds. -/
theorem toNat_mid {lo hi : BitVec w} (h : lo.toNat ≤ hi.toNat) :
    (lo + ((hi - lo) >>> 1)).toNat = lo.toNat + (hi.toNat - lo.toNat) / 2 := by
  have hlt := hi.isLt
  rw [BitVec.toNat_add, BitVec.toNat_ushiftRight, BitVec.toNat_sub_of_le (BitVec.le_def.mpr h),
    Nat.shiftRight_one, Nat.mod_eq_of_lt (by omega)]

/-- The test of the loop. -/
theorem add_one_lt_iff {lo hi : BitVec w} (h : lo.toNat < hi.toNat) :
    lo + 1 < hi ↔ lo.toNat + 1 < hi.toNat := by
  rw [BitVec.lt_def, WrapCounter.toNat_succ h]

/-- A turn that goes on halves the bounds and encloses the query. -/
theorem Encloses.again {s s' : BitVec w × BitVec w} (h : Encloses t x s)
    (hturn : t.searchTurn x s = .again s') :
    Encloses t x s' ∧ s'.2.toNat - s'.1.toNat < s.2.toNat - s.1.toNat := by
  have hmid := toNat_mid h.lt.le
  have hlt := h.lt
  have hhi := h.hi_lt
  unfold searchTurn at hturn
  split at hturn
  · next htest =>
    rw [add_one_lt_iff hlt] at htest
    rw [key_eq (by rw [hmid]; omega)] at hturn
    dsimp only at hturn
    split at hturn
    · next hle =>
      obtain rfl := Turn.again.inj hturn
      refine ⟨⟨?_, hhi, hle, h.lt_hi⟩, ?_⟩ <;> dsimp only <;> rw [hmid] <;> omega
    · next hgt =>
      obtain rfl := Turn.again.inj hturn
      refine ⟨⟨?_, ?_, h.lo_le, not_le.mp hgt⟩, ?_⟩ <;> dsimp only <;> rw [hmid] <;> omega
  · cases hturn

/-- A turn that ends has found neighbours. -/
theorem Encloses.done {s : BitVec w × BitVec w} {r : Except LookupFault (BitVec w × BitVec w)}
    (h : Encloses t x s) (hturn : t.searchTurn x s = .done r) :
    r = .ok s ∧ s.2.toNat = s.1.toNat + 1 := by
  have hmid := toNat_mid h.lt.le
  have hlt := h.lt
  have hhi := h.hi_lt
  unfold searchTurn at hturn
  split at hturn
  · next htest =>
    rw [add_one_lt_iff hlt] at htest
    rw [key_eq (by rw [hmid]; omega)] at hturn
    dsimp only at hturn
    split at hturn <;> cases hturn
  · next htest =>
    rw [add_one_lt_iff hlt] at htest
    exact ⟨(Turn.done.inj hturn).symm, by omega⟩

/-- What the search owes: neighbours around the query. -/
structure Brackets (t : SortedTable w X Y) (x : X) (lo hi : BitVec w) : Prop where
  next : hi.toNat = lo.toNat + 1
  hi_lt : hi.toNat < t.size
  lo_le : t.keys lo.toNat ≤ x
  lt_hi : x < t.keys hi.toNat

/-- **The binary search**, inside the key range: it ends, reads inside the table and brackets the
query. -/
theorem search_spec (hfirst : t.keys 0 < x) (hlast : x < t.keys t.last) :
    ∃ turns < t.size, ∃ lo hi, Returns (t.searchTurn x) (0, t.count - 1) turns (.ok (lo, hi)) ∧
      t.search x = .ok (lo, hi) ∧ Brackets t x lo hi := by
  have hends : 0 < t.last := index_lt_of_key_lt t.size_pos (hfirst.trans hlast)
  have hstart : Encloses t x (0, t.count - 1) := by
    refine ⟨?_, ?_, ?_, ?_⟩ <;> dsimp only
    · rw [toNat_zero_index, toNat_last]
      exact hends
    · rw [toNat_last]
      exact t.last_lt
    · rw [toNat_zero_index]
      exact hfirst.le
    · rw [toNat_last]
      exact hlast
  obtain ⟨turns, hturns, r, hreturns, s, rfl, hs, hnext⟩ :=
    exists_returns (t.searchTurn x) (Encloses t x) (fun s => s.2.toNat - s.1.toNat)
      (fun r => ∃ s, r = .ok s ∧ Encloses t x s ∧ s.2.toNat = s.1.toNat + 1)
      (fun s s' h hturn => h.again hturn)
      (fun s r h hturn => ⟨s, (h.done hturn).1, h, (h.done hturn).2⟩) hstart
  dsimp only at hturns
  rw [toNat_last, toNat_zero_index, Nat.sub_zero] at hturns
  have hless : turns < t.size := hturns.trans_lt t.last_lt
  refine ⟨turns, hless, s.1, s.2, hreturns, ?_, hnext, hs.hi_lt, hs.lo_le, hs.lt_hi⟩
  have hrun := hreturns.run_eq hless
  rw [size] at hrun
  rw [search, hrun, Option.getD_some]

/-! ## The branches of `at` -/

variable {ops : LookupOps X Y}

theorem one_lt_size (h : t.count ≠ 1) : 1 < t.size := by
  rcases Nat.lt_or_eq_of_le t.size_pos with hlt | heq
  · exact hlt
  · refine absurd (BitVec.eq_of_toNat_eq ?_) h
    have hone : (1 : BitVec w).toNat = 1 := BitVec.toNat_one (by
      rcases w with _ | w
      · have hlt := t.size_lt
        rw [← heq] at hlt
        exact absurd hlt (by decide)
      · exact Nat.succ_pos w)
    rw [hone]
    exact heq.symm

theorem size_of_count_one (h : t.count = 1) : t.size = 1 := by
  have hpos := t.size_pos
  have hle : (1 : BitVec w).toNat ≤ 1 := BitVec.toNat_ofNat 1 w ▸ Nat.mod_le _ _
  rw [size, h] at hpos ⊢
  omega

/-- At or below the first key: the first value. -/
theorem atKey_first (h : x ≤ t.keys 0) : t.atKey ops x = .ok (t.values 0) := by
  rw [atKey, if_neg t.count_ne, value_zero, key_zero]
  split
  · rfl
  · change (if x ≤ t.keys 0 then _ else _) = _
    rw [if_pos h]

/-- At or above the last key: the last value. -/
theorem atKey_last (h : t.keys t.last ≤ x) : t.atKey ops x = .ok (t.values t.last) := by
  by_cases hone : t.count = 1
  · have hlast : t.last = 0 := by rw [last, size_of_count_one hone]
    rw [atKey, if_neg t.count_ne, if_pos hone, value_zero, hlast]
  · have hfirst : t.keys 0 < x := by
      refine lt_of_lt_of_le (t.increasing 0 t.last ?_ t.last_lt) h
      have hsize := one_lt_size hone
      rw [last]
      omega
    rw [atKey, if_neg t.count_ne, if_neg hone, key_zero, key_last, value_last]
    change (if x ≤ t.keys 0 then _ else if t.keys t.last ≤ x then _ else _) = _
    rw [if_neg (not_le.mpr hfirst), if_pos h]

/-- Inside the key range: what the search brackets decides. -/
theorem atKey_inside (ops : LookupOps X Y) (hfirst : t.keys 0 < x) (hlast : x < t.keys t.last) :
    ∃ lo hi, Brackets t x lo hi ∧ t.atKey ops x = t.between ops x lo hi := by
  obtain ⟨-, -, lo, hi, -, hsearch, hbrackets⟩ := search_spec hfirst hlast
  have hends : 0 < t.last := index_lt_of_key_lt t.size_pos (hfirst.trans hlast)
  have hone : t.count ≠ 1 := by
    intro hone
    rw [last, size_of_count_one hone] at hends
    exact absurd hends (Nat.lt_irrefl 0)
  refine ⟨lo, hi, hbrackets, ?_⟩
  rw [atKey, if_neg t.count_ne, if_neg hone, key_zero, key_last, hsearch]
  change (if x ≤ t.keys 0 then _ else if t.keys t.last ≤ x then _ else _) = _
  rw [if_neg (not_le.mpr hfirst), if_neg (not_le.mpr hlast)]
  rfl

end SortedTable

end Memkit
