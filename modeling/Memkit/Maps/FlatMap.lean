import Mathlib.Data.Finmap
import Memkit.Foundations.SortedArray
import Memkit.Foundations.Transition
import Memkit.Trees.OrderedSetReference

/-! # Flat maps

`flat_map_core` of `detail/flat_map_core.hpp`: entries of a key and a value in an array sorted by
key. Keys and values are plain, so that copies are assignments and nothing is destroyed. Indices
never pass the capacity, so they are natural numbers.

* **`call`** — the operations.
* **`FiniteMap.callFlat`** — the reference: a finite map with room for a bounded number of keys.
* **`init_refines_map`** — every sequence of calls answers as the reference, and the array is
  sorted. -/

namespace Memkit

open Mealy BinaryHeap SortedArray

variable {K V : Type*}

/-- The members of `flat_map_core`. -/
structure FlatMap (K V : Type*) where
  /-- What `storage_` points to. -/
  entries : ℕ → K × V
  /-- `capacity_`. -/
  capacity : ℕ
  /-- `size_`. -/
  size : ℕ

namespace FlatMap

/-- `init`; the storage is `none` if the pointer is null. -/
def init (s : FlatMap K V) (entryStorage : Option (ℕ → K × V)) (capacity : ℕ) :
    Status × FlatMap K V :=
  match entryStorage with
  | none => (.invalid, s)
  | some entries => if capacity = 0 then (.invalid, s) else (.ok, ⟨entries, capacity, 0⟩)

/-- `full`. -/
def full (s : FlatMap K V) : Bool := decide (s.capacity ≤ s.size)

/-- `find_index`, for keys that are there: the status, and what is written to `out_index`. -/
def findIndex (compare : K → K → ℤ) (s : FlatMap K V) (key : K) : Status × ℕ :=
  match bisect (fun mid => compare (s.entries mid).1 key) s.size 0 s.size with
  | (true, index) => (.ok, index)
  | (false, index) => (.notFound, index)

/-- `shift_right_from`. -/
def shiftRightFrom (s : FlatMap K V) (index : ℕ) : FlatMap K V :=
  { s with entries := openGap index s.size s.entries }

/-- `shift_left_from`. -/
def shiftLeftFrom (s : FlatMap K V) (index : ℕ) : FlatMap K V :=
  { s with entries := closeGap (s.size - index) index s.entries }

/-- `put`. -/
def put (compare : K → K → ℤ) (s : FlatMap K V) (key : K) (value : V) : Status × FlatMap K V :=
  let (st, index) := findIndex compare s key
  if st = .ok then
    let entry := ((s.entries index).1, value)
    (.ok, { s with entries := Function.update s.entries index entry })
  else if s.full then (.full, s)
  else
    let s := if index < s.size then s.shiftRightFrom index else s
    let s := { s with entries := Function.update s.entries index (key, value) }
    (.ok, { s with size := s.size + 1 })

/-- `get`: the status, and what is written to `out_value`. -/
def get (compare : K → K → ℤ) (s : FlatMap K V) (key : K) (outValue : V) : Status × V :=
  let (st, index) := findIndex compare s key
  if st ≠ .ok then (.notFound, outValue) else (.ok, (s.entries index).2)

/-- `remove`; `out_value` may be null. -/
def remove (compare : K → K → ℤ) (s : FlatMap K V) (key : K) (outValue : Option V) :
    (Status × Option V) × FlatMap K V :=
  let (st, index) := findIndex compare s key
  if st ≠ .ok then ((.notFound, outValue), s)
  else
    let outValue := outValue.map fun _ => (s.entries index).2
    let s := s.shiftLeftFrom (index + 1)
    ((.ok, outValue), { s with size := s.size - 1 })

/-- `contains`. -/
def contains (compare : K → K → ℤ) (s : FlatMap K V) (key : K) : Bool :=
  decide ((findIndex compare s key).1 = .ok)

/-- `clear`. -/
def clear (s : FlatMap K V) : FlatMap K V := { s with size := 0 }

/-- A call on the map; a key or a value is `none` if the pointer is null. -/
inductive Call (K V : Type*)
  | put (key : Option K) (value : Option V)
  | get (key : Option K) (outValue : V)
  | remove (key : Option K) (outValue : Option V)
  | contains (key : Option K)
  | clear
  deriving DecidableEq, Repr

/-- What a call returns, and what it writes to the memory of the caller. -/
inductive Reply (V : Type*)
  | status (result : Status)
  | value (result : Status) (out : Option V)
  | contains (result : Bool)
  | done
  deriving DecidableEq, Repr

/-- Dispatch a call. -/
def call (compare : K → K → ℤ) (s : FlatMap K V) : Call K V → Reply V × FlatMap K V
  | .put (some key) (some value) =>
    let (st, s) := put compare s key value
    (.status st, s)
  | .put _ _ => (.status .nullPtr, s)
  | .get none outValue => (.value .notFound (some outValue), s)
  | .get (some key) outValue =>
    let (st, out) := get compare s key outValue
    (.value st (some out), s)
  | .remove none outValue => (.value .notFound outValue, s)
  | .remove (some key) outValue =>
    let ((st, out), s) := remove compare s key outValue
    (.value st out, s)
  | .contains none => (.contains false, s)
  | .contains (some key) => (.contains (contains compare s key), s)
  | .clear => (.done, s.clear)

/-- The entries that are stored, in order. -/
def stored (s : FlatMap K V) : List (K × V) := items s.entries s.size

end FlatMap

/-- A strict total order of the keys, as the signs of a comparison. -/
structure StrictTotalOrder (compare : K → K → ℤ) : Prop extends TotalPreorder compare where
  eq_of_compare : ∀ a b, compare a b = 0 → a = b

/-- The reference: a finite map with room for `capacity` keys. -/
def FiniteMap.callFlat [DecidableEq K] (capacity : ℕ) (m : Finmap fun _ : K => V) :
    FlatMap.Call K V → FlatMap.Reply V × Finmap fun _ : K => V
  | .put (some key) (some value) =>
    if m.lookup key = none ∧ capacity ≤ m.keys.card then (.status .full, m)
    else (.status .ok, m.insert key value)
  | .put _ _ => (.status .nullPtr, m)
  | .get none outValue => (.value .notFound (some outValue), m)
  | .get (some key) outValue =>
    match m.lookup key with
    | none => (.value .notFound (some outValue), m)
    | some value => (.value .ok (some value), m)
  | .remove none outValue => (.value .notFound outValue, m)
  | .remove (some key) outValue =>
    match m.lookup key with
    | none => (.value .notFound outValue, m)
    | some value => (.value .ok (outValue.map fun _ => value), m.erase key)
  | .contains none => (.contains false, m)
  | .contains (some key) => (.contains (m.lookup key).isSome, m)
  | .clear => (.done, ∅)

namespace FlatMap

variable {compare : K → K → ℤ} {s : FlatMap K V} {key : K} {value : V} {i : ℕ}
  {as bs : List (K × V)}

/-- Entries are compared by their keys. -/
def byKey (compare : K → K → ℤ) (x y : K × V) : ℤ := compare x.1 y.1

theorem totalPreorder_byKey (h : TotalPreorder compare) :
    TotalPreorder (byKey (V := V) compare) where
  swap a b := h.swap a.1 b.1
  trans a b c := h.trans a.1 b.1 c.1

/-- The array is strictly sorted by key. -/
def Sorted (compare : K → K → ℤ) (s : FlatMap K V) : Prop :=
  OrderedSet.Sorted (byKey compare) s.stored

/-! ## Searching -/

/-- Where a key is, or would be inserted: what `find_index` gives. -/
structure Located (compare : K → K → ℤ) (s : FlatMap K V) (key : K) (index : ℕ) : Prop where
  le_size : index ≤ s.size
  before : ∀ i < index, compare (s.entries i).1 key < 0
  behind : ∀ i, index ≤ i → i < s.size → 0 < compare (s.entries i).1 key

/-- **The binary search** finds the entry of a key, or its insertion point. -/
theorem findIndex_spec (hcmp : StrictTotalOrder compare) (hsorted : Sorted compare s) (key : K) :
    (∃ index < s.size, (s.entries index).1 = key ∧ findIndex compare s key = (.ok, index)) ∨
      ∃ index, Located compare s key index ∧ findIndex compare s key = (.notFound, index) := by
  have hgraded : Graded (fun mid => compare (s.entries mid).1 key) s.size := by
    intro i j hij hj hle
    exact hcmp.lt_of_lt_of_le (pairwise_items.mp hsorted i j hij hj) hle
  have hfound := bisect_spec hgraded
  unfold findIndex
  generalize bisect (fun mid => compare (s.entries mid).1 key) s.size 0 s.size = r at hfound ⊢
  obtain ⟨_ | _, index⟩ := r
  · obtain ⟨hle, hbefore, hbehind⟩ := hfound
    exact .inr ⟨index, ⟨hle, hbefore, hbehind⟩, rfl⟩
  · obtain ⟨hlt, hzero⟩ := hfound
    exact .inl ⟨index, hlt, hcmp.eq_of_compare _ _ hzero, rfl⟩

/-! ## What the operations do to the array -/

/-- **A new value** for a key that is there. -/
theorem put_found (hi : i < s.size) (hkey : (s.entries i).1 = key)
    (hfind : findIndex compare s key = (.ok, i)) (value : V) :
    ∃ s', put compare s key value = (.ok, s') ∧ s'.capacity = s.capacity ∧ s'.size = s.size ∧
      s'.stored = s.stored.take i ++ (key, value) :: s.stored.drop (i + 1) := by
  refine ⟨{ s with entries := Function.update s.entries i (key, value) }, ?_, rfl, rfl, ?_⟩
  · unfold put
    rw [hfind]
    simp only [if_true, hkey]
  · exact items_update hi s.entries (key, value)

/-- A new key when the array is full. -/
theorem put_full (hfind : findIndex compare s key = (.notFound, i)) (hfull : s.capacity ≤ s.size)
    (value : V) : put compare s key value = (.full, s) := by
  have hfull' : s.full = true := decide_eq_true hfull
  unfold put
  rw [hfind]
  simp only [reduceCtorEq, if_false, hfull', if_true]

/-- **A new key**: the entries from the insertion point on move up. -/
theorem put_new (hi : i ≤ s.size) (hfind : findIndex compare s key = (.notFound, i))
    (hroom : s.size < s.capacity) (value : V) :
    ∃ s', put compare s key value = (.ok, s') ∧ s'.capacity = s.capacity ∧
      s'.size = s.size + 1 ∧ s'.stored = s.stored.take i ++ (key, value) :: s.stored.drop i := by
  have hfull : s.full = false := decide_eq_false (Nat.not_le.mpr hroom)
  refine ⟨{ s with
      entries := Function.update (openGap i s.size s.entries) i (key, value)
      size := s.size + 1 }, ?_, rfl, rfl, ?_⟩
  · unfold put
    rw [hfind]
    simp only [reduceCtorEq, if_false, hfull, Bool.false_eq_true]
    by_cases hlt : i < s.size
    · rw [if_pos hlt]
      rfl
    · rw [if_neg hlt, openGap_of_le (Nat.not_lt.mp hlt)]
  · exact items_openGap hi s.entries (key, value)

/-- **Removing** a key: the entries behind it move down. -/
theorem remove_found (hi : i < s.size) (hfind : findIndex compare s key = (.ok, i))
    (outValue : Option V) :
    ∃ s', remove compare s key outValue = ((.ok, outValue.map fun _ => (s.entries i).2), s') ∧
      s'.capacity = s.capacity ∧ s'.size + 1 = s.size ∧
      s'.stored = s.stored.take i ++ s.stored.drop (i + 1) := by
  refine ⟨{ s with
      entries := closeGap (s.size - (i + 1)) (i + 1) s.entries
      size := s.size - 1 }, ?_, rfl, ?_, ?_⟩
  · unfold remove
    rw [hfind]
    rfl
  · show s.size - 1 + 1 = s.size
    omega
  · exact items_closeGap hi s.entries

/-! ## The order -/

/-- A key that is there has its entry between those before and those behind it. -/
theorem Sorted.around (h : Sorted compare s) (hcmp : StrictTotalOrder compare) (hi : i < s.size)
    (hkey : (s.entries i).1 = key) (value : V) :
    OrderedSet.Around (byKey compare) (key, value) (s.stored.take i) (s.stored.drop (i + 1)) where
  before x hx := by
    obtain ⟨j, hj, rfl⟩ := (mem_take_items hi.le).mp hx
    have hlt : compare (s.entries j).1 (s.entries i).1 < 0 := pairwise_items.mp h j i hj hi
    rw [hkey] at hlt
    exact (hcmp.swap _ _).mp hlt
  behind x hx := by
    obtain ⟨j, hij, hj, rfl⟩ := mem_drop_items.mp hx
    have hlt : compare (s.entries i).1 (s.entries j).1 < 0 := pairwise_items.mp h i j (by omega) hj
    rwa [hkey] at hlt

/-- A key that is missing belongs at its insertion point. -/
theorem Located.around (h : Located compare s key i) (hcmp : StrictTotalOrder compare) (value : V) :
    OrderedSet.Around (byKey compare) (key, value) (s.stored.take i) (s.stored.drop i) where
  before x hx := by
    obtain ⟨j, hj, rfl⟩ := (mem_take_items h.le_size).mp hx
    exact (hcmp.swap _ _).mp (h.before j hj)
  behind x hx := by
    obtain ⟨j, hij, hj, rfl⟩ := mem_drop_items.mp hx
    exact (hcmp.swap _ _).mpr (h.behind j hij hj)

/-- A key between others is none of them. -/
theorem ne_of_around (haround : OrderedSet.Around (byKey compare) (key, value) as bs)
    (hcmp : StrictTotalOrder compare) : ∀ x ∈ as ++ bs, x.1 ≠ key := by
  rintro x hx rfl
  have hzero : byKey compare (x.1, value) x = 0 := hcmp.refl x.1
  rcases List.mem_append.mp hx with hx | hx
  · exact absurd (haround.before x hx) (by omega)
  · exact absurd (haround.behind x hx) (by omega)

/-! ## The finite map -/

variable [DecidableEq K] {m : Finmap fun _ : K => V} {capacity : ℕ}

/-- The list has the pairs of the map. -/
def Lists (m : Finmap fun _ : K => V) (xs : List (K × V)) : Prop :=
  ∀ k v, m.lookup k = some v ↔ (k, v) ∈ xs

/-- Adding a pair to those of the other keys. -/
theorem lists_insert (hothers : ∀ k v, k ≠ key → (m.lookup k = some v ↔ (k, v) ∈ as ++ bs))
    (hne : ∀ x ∈ as ++ bs, x.1 ≠ key) (value : V) :
    Lists (m.insert key value) (as ++ (key, value) :: bs) := by
  intro k v
  have hmem : (k, v) ∈ as ++ (key, value) :: bs ↔ (k, v) = (key, value) ∨ (k, v) ∈ as ++ bs := by
    simp only [List.mem_append, List.mem_cons]
    tauto
  rw [hmem]
  by_cases hk : k = key
  · subst hk
    rw [Finmap.lookup_insert, Option.some.injEq, Prod.mk.injEq]
    constructor
    · rintro rfl
      exact .inl ⟨rfl, rfl⟩
    · rintro (⟨-, rfl⟩ | hx)
      · rfl
      · exact absurd rfl (hne _ hx)
  · rw [Finmap.lookup_insert_of_ne _ hk, hothers k v hk, Prod.mk.injEq, or_iff_right]
    exact fun h => hk h.1

/-- Taking a pair out leaves those of the other keys. -/
theorem lists_erase (hothers : ∀ k v, k ≠ key → (m.lookup k = some v ↔ (k, v) ∈ as ++ bs))
    (hne : ∀ x ∈ as ++ bs, x.1 ≠ key) : Lists (m.erase key) (as ++ bs) := by
  intro k v
  by_cases hk : k = key
  · subst hk
    rw [Finmap.lookup_erase]
    exact ⟨nofun, fun hx => absurd rfl (hne _ hx)⟩
  · rw [Finmap.lookup_erase_ne hk, hothers k v hk]

/-- The pairs of the other keys. -/
theorem Lists.others {old : V} (h : Lists m (as ++ (key, old) :: bs)) (k : K) (v : V) (hk : k ≠ key) :
    m.lookup k = some v ↔ (k, v) ∈ as ++ bs := by
  rw [h k v]
  simp only [List.mem_append, List.mem_cons, Prod.mk.injEq, hk, false_and, false_or]

/-- The keys of the map are those of the list. -/
theorem Lists.card_eq {xs : List (K × V)} (h : Lists m xs) (hcmp : StrictTotalOrder compare)
    (hsorted : OrderedSet.Sorted (byKey compare) xs) : m.keys.card = xs.length := by
  have hnodup : (xs.map Prod.fst).Nodup := by
    rw [List.Nodup, List.pairwise_map]
    refine List.Pairwise.imp ?_ hsorted
    intro x y hlt heq
    have hzero := hcmp.refl x.1
    rw [byKey, ← heq, hzero] at hlt
    exact lt_irrefl 0 hlt
  have hkeys : m.keys = (xs.map Prod.fst).toFinset := by
    ext k
    rw [Finmap.mem_keys, Finmap.mem_iff, List.mem_toFinset, List.mem_map]
    constructor
    · rintro ⟨v, hv⟩
      exact ⟨(k, v), (h k v).mp hv, rfl⟩
    · rintro ⟨⟨k, v⟩, hmem, rfl⟩
      exact ⟨v, (h k v).mpr hmem⟩
  rw [hkeys, List.toFinset_card_of_nodup hnodup, List.length_map]

/-- The array is sorted and has the pairs of the map. -/
structure Refines (compare : K → K → ℤ) (capacity : ℕ) (s : FlatMap K V)
    (m : Finmap fun _ : K => V) : Prop where
  capacity_eq : s.capacity = capacity
  size_le : s.size ≤ s.capacity
  sorted : Sorted compare s
  lists : Lists m s.stored

namespace Refines

variable (h : Refines compare capacity s m) (hcmp : StrictTotalOrder compare)

include h hcmp in
theorem card_eq : m.keys.card = s.size := by
  rw [h.lists.card_eq hcmp h.sorted, stored, length_items]

include h in
/-- The array around the entry of a key. -/
theorem lists_found (hi : i < s.size) (hkey : (s.entries i).1 = key) :
    Lists m (s.stored.take i ++ (key, (s.entries i).2) :: s.stored.drop (i + 1)) := by
  have hsplit := items_split hi s.entries
  rw [show s.entries i = (key, (s.entries i).2) from Prod.ext hkey rfl] at hsplit
  have hlists := h.lists
  rwa [stored, hsplit] at hlists

include h in
theorem lookup_found (hi : i < s.size) (hkey : (s.entries i).1 = key) :
    m.lookup key = some (s.entries i).2 := by
  rw [h.lists_found hi hkey]
  simp

include h hcmp in
theorem lookup_located (hloc : Located compare s key i) : m.lookup key = none := by
  rw [Option.eq_none_iff_forall_ne_some]
  intro v hv
  have hmem := (h.lists key v).mp hv
  rw [← List.take_append_drop i s.stored] at hmem
  exact ne_of_around (hloc.around hcmp v) hcmp _ hmem rfl

include h hcmp in
/-- **Putting** a key that is there. -/
theorem put_old (hi : i < s.size) (hkey : (s.entries i).1 = key) {s' : FlatMap K V}
    (hcapacity : s'.capacity = s.capacity) (hsize : s'.size = s.size)
    (hstored : s'.stored = s.stored.take i ++ (key, value) :: s.stored.drop (i + 1)) :
    Refines compare capacity s' (m.insert key value) := by
  have haround := h.sorted.around hcmp hi hkey value
  have hbetween : OrderedSet.Sorted (byKey compare) (s.stored.take i ++ s.stored.drop (i + 1)) := by
    have hsorted := h.sorted
    rw [Sorted, stored, items_split hi] at hsorted
    exact hsorted.remove_around
  refine ⟨hcapacity.trans h.capacity_eq, ?_, ?_, ?_⟩
  · rw [hsize, hcapacity]
    exact h.size_le
  · rw [Sorted, hstored]
    exact hbetween.insert_around (totalPreorder_byKey hcmp.toTotalPreorder) haround
  · rw [hstored]
    exact lists_insert (h.lists_found hi hkey).others (ne_of_around haround hcmp) value

include h hcmp in
/-- **Putting** a new key. -/
theorem put_located (hloc : Located compare s key i) (hroom : s.size < s.capacity)
    {s' : FlatMap K V} (hcapacity : s'.capacity = s.capacity) (hsize : s'.size = s.size + 1)
    (hstored : s'.stored = s.stored.take i ++ (key, value) :: s.stored.drop i) :
    Refines compare capacity s' (m.insert key value) := by
  have haround := hloc.around hcmp value
  have hsplit := List.take_append_drop i s.stored
  refine ⟨hcapacity.trans h.capacity_eq, ?_, ?_, ?_⟩
  · rw [hsize, hcapacity]
    exact hroom
  · have hsorted := h.sorted
    rw [Sorted, ← hsplit] at hsorted
    rw [Sorted, hstored]
    exact hsorted.insert_around (totalPreorder_byKey hcmp.toTotalPreorder) haround
  · rw [hstored]
    refine lists_insert (fun k v _ => ?_) (ne_of_around haround hcmp) value
    rw [hsplit]
    exact h.lists k v

include h hcmp in
/-- **Removing** a key that is there. -/
theorem remove (hi : i < s.size) (hkey : (s.entries i).1 = key) {s' : FlatMap K V}
    (hcapacity : s'.capacity = s.capacity) (hsize : s'.size + 1 = s.size)
    (hstored : s'.stored = s.stored.take i ++ s.stored.drop (i + 1)) :
    Refines compare capacity s' (m.erase key) := by
  have haround := h.sorted.around hcmp hi hkey (s.entries i).2
  refine ⟨hcapacity.trans h.capacity_eq, ?_, ?_, ?_⟩
  · have hle := h.size_le
    omega
  · have hsorted := h.sorted
    rw [Sorted, stored, items_split hi] at hsorted
    rw [Sorted, hstored]
    exact hsorted.remove_around
  · rw [hstored]
    exact lists_erase (h.lists_found hi hkey).others (ne_of_around haround hcmp)

include h hcmp in
/-- **Every call** answers as the finite map. -/
theorem call_eq (c : Call K V) :
    (call compare s c).1 = (FiniteMap.callFlat capacity m c).1 ∧
      Refines compare capacity (call compare s c).2 (FiniteMap.callFlat capacity m c).2 := by
  cases c with
  | put key value =>
    rcases key with _ | key
    · exact ⟨rfl, h⟩
    rcases value with _ | value
    · exact ⟨rfl, h⟩
    simp only [call, FiniteMap.callFlat]
    -- the binary search ends on the key, or on the place where it belongs
    rcases findIndex_spec hcmp h.sorted key with ⟨i, hi, hkey, hfind⟩ | ⟨i, hloc, hfind⟩
    · obtain ⟨s', hput, hcapacity, hsize, hstored⟩ := put_found hi hkey hfind value
      rw [hput, if_neg (by simp [h.lookup_found hi hkey])]
      exact ⟨rfl, h.put_old hcmp hi hkey hcapacity hsize hstored⟩
    · -- a new key, which a full map refuses
      have hnone := h.lookup_located hcmp hloc
      by_cases hfull : s.capacity ≤ s.size
      · have hfull' : capacity ≤ m.keys.card := by rwa [h.card_eq hcmp, ← h.capacity_eq]
        rw [put_full hfind hfull, if_pos ⟨hnone, hfull'⟩]
        exact ⟨rfl, h⟩
      · have hfull' : ¬ capacity ≤ m.keys.card := by rwa [h.card_eq hcmp, ← h.capacity_eq]
        obtain ⟨s', hput, hcapacity, hsize, hstored⟩ :=
          put_new hloc.le_size hfind (not_le.mp hfull) value
        rw [hput, if_neg fun hand => hfull' hand.2]
        exact ⟨rfl, h.put_located hcmp hloc (not_le.mp hfull) hcapacity hsize hstored⟩
  | get key outValue =>
    rcases key with _ | key
    · exact ⟨rfl, h⟩
    simp only [call, FiniteMap.callFlat, get]
    rcases findIndex_spec hcmp h.sorted key with ⟨i, hi, hkey, hfind⟩ | ⟨i, hloc, hfind⟩
    · rw [hfind, h.lookup_found hi hkey]
      exact ⟨rfl, h⟩
    · rw [hfind, h.lookup_located hcmp hloc]
      exact ⟨rfl, h⟩
  | remove key outValue =>
    rcases key with _ | key
    · exact ⟨rfl, h⟩
    simp only [call, FiniteMap.callFlat]
    rcases findIndex_spec hcmp h.sorted key with ⟨i, hi, hkey, hfind⟩ | ⟨i, hloc, hfind⟩
    · obtain ⟨s', hremove, hcapacity, hsize, hstored⟩ := remove_found hi hfind outValue
      rw [hremove, h.lookup_found hi hkey]
      exact ⟨rfl, h.remove hcmp hi hkey hcapacity hsize hstored⟩
    · rw [h.lookup_located hcmp hloc, FlatMap.remove, hfind]
      exact ⟨rfl, h⟩
  | contains key =>
    rcases key with _ | key
    · exact ⟨rfl, h⟩
    simp only [call, FiniteMap.callFlat, contains]
    rcases findIndex_spec hcmp h.sorted key with ⟨i, hi, hkey, hfind⟩ | ⟨i, hloc, hfind⟩
    · rw [hfind, h.lookup_found hi hkey]
      exact ⟨rfl, h⟩
    · rw [hfind, h.lookup_located hcmp hloc]
      exact ⟨rfl, h⟩
  | clear =>
    refine ⟨rfl, h.capacity_eq, Nat.zero_le _, ?_, ?_⟩
    · exact List.Pairwise.nil
    · intro k v
      simp [call, FiniteMap.callFlat, clear, stored, items]

end Refines

/-- The map after `init` is empty, whatever the storage held. -/
theorem refines_init {storage : Option (ℕ → K × V)} (hinit : (s.init storage capacity).1 = .ok) :
    Refines compare capacity (s.init storage capacity).2 ∅ := by
  unfold init at hinit ⊢
  split at hinit
  · cases hinit
  · split at hinit
    · cases hinit
    · rename_i hzero
      simp only [if_neg hzero]
      exact ⟨rfl, Nat.zero_le _, List.Pairwise.nil, fun k v => by simp [stored, items]⟩

/-- What an operation does to the array, and what it leaves alone, in a state that refines a map. -/
structure ShiftsExactly (compare : K → K → ℤ) (s : FlatMap K V) (m : Finmap fun _ : K => V) :
    Prop where
  /-- A new key goes to its insertion point, the other entries stay in order. -/
  new_key : ∀ key value, m.lookup key = none → (put compare s key value).1 = .ok →
    (put compare s key value).2.stored = s.stored.take (findIndex compare s key).2 ++
      (key, value) :: s.stored.drop (findIndex compare s key).2
  /-- A new value replaces one entry. -/
  old_key : ∀ key value, m.lookup key ≠ none →
    (put compare s key value).2.stored = s.stored.take (findIndex compare s key).2 ++
      (key, value) :: s.stored.drop ((findIndex compare s key).2 + 1)
  /-- A removal takes one entry out. -/
  removal : ∀ key outValue, m.lookup key ≠ none →
    (remove compare s key outValue).2.stored = s.stored.take (findIndex compare s key).2 ++
      s.stored.drop ((findIndex compare s key).2 + 1)
  /-- A failed operation changes nothing. -/
  refusal : ∀ key value outValue, m.lookup key = none →
    ((put compare s key value).1 ≠ .ok → (put compare s key value).2 = s) ∧
      (remove compare s key outValue).2 = s

namespace Refines

variable (h : Refines compare capacity s m) (hcmp : StrictTotalOrder compare)

include h hcmp in
theorem shiftsExactly : ShiftsExactly compare s m where
  new_key key value hnone hok := by
    rcases findIndex_spec hcmp h.sorted key with ⟨i, hi, hkey, hfind⟩ | ⟨i, hloc, hfind⟩
    · rw [h.lookup_found hi hkey] at hnone
      cases hnone
    · by_cases hfull : s.capacity ≤ s.size
      · rw [put_full hfind hfull] at hok
        cases hok
      · obtain ⟨s', hput, -, -, hstored⟩ := FlatMap.put_new hloc.le_size hfind (not_le.mp hfull) value
        rw [hput, hfind, hstored]
  old_key key value hsome := by
    rcases findIndex_spec hcmp h.sorted key with ⟨i, hi, hkey, hfind⟩ | ⟨i, hloc, hfind⟩
    · obtain ⟨s', hput, -, -, hstored⟩ := put_found hi hkey hfind value
      rw [hput, hfind, hstored]
    · exact absurd (h.lookup_located hcmp hloc) hsome
  removal key outValue hsome := by
    rcases findIndex_spec hcmp h.sorted key with ⟨i, hi, hkey, hfind⟩ | ⟨i, hloc, hfind⟩
    · obtain ⟨s', hremove, -, -, hstored⟩ := remove_found hi hfind outValue
      rw [hremove, hfind, hstored]
    · exact absurd (h.lookup_located hcmp hloc) hsome
  refusal key value outValue hnone := by
    rcases findIndex_spec hcmp h.sorted key with ⟨i, hi, hkey, hfind⟩ | ⟨i, hloc, hfind⟩
    · rw [h.lookup_found hi hkey] at hnone
      cases hnone
    · refine ⟨fun hst => ?_, ?_⟩
      · by_cases hfull : s.capacity ≤ s.size
        · rw [put_full hfind hfull]
        · obtain ⟨s', hput, -⟩ := FlatMap.put_new hloc.le_size hfind (not_le.mp hfull) value
          rw [hput] at hst
          exact absurd rfl hst
      · rw [FlatMap.remove, hfind]
        rfl

include h hcmp in
/-- A new key is refused exactly when the array is full. -/
theorem put_full_iff (hnone : m.lookup key = none) (value : V) :
    (put compare s key value).1 = .full ↔ s.size = capacity := by
  rw [← h.capacity_eq]
  rcases findIndex_spec hcmp h.sorted key with ⟨i, hi, hkey, hfind⟩ | ⟨i, hloc, hfind⟩
  · rw [h.lookup_found hi hkey] at hnone
    cases hnone
  · by_cases hfull : s.capacity ≤ s.size
    · rw [put_full hfind hfull]
      exact iff_of_true rfl (h.size_le.antisymm hfull)
    · obtain ⟨s', hput, -⟩ := FlatMap.put_new hloc.le_size hfind (not_le.mp hfull) value
      rw [hput]
      refine iff_of_false nofun ?_
      omega

end Refines

/-- **The flat map is a finite map** over an array sorted by key: for every sequence of calls after
`init`, every answer is that of the map, the array is strictly sorted and has its pairs, the search
finds a key or its insertion point, the shifts move the other entries only, and a new key is refused
exactly when `capacity` entries are stored. -/
theorem init_refines_map (compare : K → K → ℤ) (hcmp : StrictTotalOrder compare) (s : FlatMap K V)
    (storage : Option (ℕ → K × V)) (capacity : ℕ) (hinit : (s.init storage capacity).1 = .ok)
    (calls : List (Call K V)) :
    outputs (call compare) (s.init storage capacity).2 calls =
        outputs (FiniteMap.callFlat capacity) ∅ calls ∧
      let s' := final (call compare) (s.init storage capacity).2 calls
      let m := final (FiniteMap.callFlat capacity) ∅ calls
      s'.stored.Pairwise (fun x y => compare x.1 y.1 < 0) ∧
        (∀ k v, m.lookup k = some v ↔ (k, v) ∈ s'.stored) ∧
        (∀ key, (∃ index < s'.size, (s'.entries index).1 = key ∧
            findIndex compare s' key = (.ok, index)) ∨
          ∃ index, Located compare s' key index ∧ findIndex compare s' key = (.notFound, index)) ∧
        ShiftsExactly compare s' m ∧
        ∀ key value, m.lookup key = none →
          ((put compare s' key value).1 = .full ↔ s'.size = capacity) := by
  obtain ⟨hout, href⟩ := simulation (Refines compare capacity) (fun s m c h _ => h.call_eq hcmp c)
    (everyCall_true _ calls) (refines_init hinit)
  exact ⟨hout, href.sorted, href.lists, findIndex_spec hcmp href.sorted, href.shiftsExactly hcmp,
    fun key value hnone => href.put_full_iff hcmp hnone value⟩

/-- Numbers by their difference, inserted at both ends and in the middle of a map of three. -/
theorem init_refines_map_ends :
    let s₀ : FlatMap ℤ ℕ := ⟨fun _ => (0, 0), 0, 0⟩
    let calls : List (Call ℤ ℕ) :=
      [.put (some 5) (some 50), .put (some 1) (some 10), .put (some 3) (some 30),
        .put (some 4) (some 40), .put (some 3) (some 31), .remove (some 1) (some 0),
        .get (some 3) 0, .put (some 9) (some 90)]
    (final (call fun a b => a - b) (s₀.init (some fun _ => (7, 7)) 3).2 calls).stored =
        [(3, 31), (5, 50), (9, 90)] ∧
      outputs (call fun a b => a - b) (s₀.init (some fun _ => (7, 7)) 3).2 calls =
        outputs (FiniteMap.callFlat 3) ∅ calls := by
  intro s₀ calls
  have hcmp : StrictTotalOrder fun a b : ℤ => a - b :=
    ⟨⟨fun a b => by omega, fun a b c => by omega⟩, fun a b => by omega⟩
  exact ⟨by decide, (init_refines_map _ hcmp s₀ (some fun _ => (7, 7)) 3 rfl calls).1⟩

end FlatMap

end Memkit
