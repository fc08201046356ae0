import Memkit.Core.Status
import Memkit.Foundations.ObjectLedger

/-! # Variants in fixed storage

`containers/fixed_variant.hpp` for any list of alternatives, which are numbered. A program has a
family of variants. The storage of each is a slot of a ledger, which also has the type of the object
in it, so that to use or to destroy an object as one of another type is a fault.

* **`Storages`** — the ledger with the types.
* **`Variants.call`** — a call on a variant of the family.
* **`Alternatives.call`** — what the variants are for: each holds one value or none.
* **`one_object`** — the answers agree, and every object is destroyed once, as what it is, in
  exactly the runs in which no variant is assigned from its own object. -/

namespace Memkit

variable {ι : Type*} {n : ℕ} {A : Fin n → Type*}

/-- The members of a variant. -/
structure FixedVariant (A : Fin n → Type*) where
  /-- `index_`. -/
  index : ℕ
  /-- What was last written to `storage_`. -/
  storage : Option (Σ i, A i)

namespace FixedVariant

/-- `empty`: `index_` is `invalid_index`. -/
def empty (v : FixedVariant A) : Bool := v.index = n

/-- `holds`. -/
def holds (v : FixedVariant A) (i : Fin n) : Bool := !v.empty && decide (v.index = i)

end FixedVariant

/-! ## The storages -/

/-- The objects in the storages of the variants, and their types. -/
structure Storages (ι : Type*) (n : ℕ) where
  ledger : Ledger ι
  /-- The type of the object that was constructed last. -/
  types : ι → Option (Fin n)
  /-- An object was used or destroyed as one of another type. -/
  mistyped : Bool

namespace Storages

/-- No objects yet. -/
def empty (ι : Type*) (n : ℕ) : Storages ι n := ⟨.empty ι, fun _ => none, false⟩

/-- An object was constructed over another, or one was used or destroyed that was not there or has
another type. -/
def fault (o : Storages ι n) : Bool := o.ledger.fault || o.mistyped

/-- Use the object in a storage as one of type `i`. -/
def access (o : Storages ι n) (x : ι) (i : Fin n) : Storages ι n :=
  { o with
    ledger := o.ledger.access x
    mistyped := o.mistyped || decide (o.types x ≠ some i) }

variable [DecidableEq ι]

/-- Construct an object of type `i` in a storage, unless the constructor throws. -/
def construct (o : Storages ι n) (x : ι) (i : Fin n) (success : Bool) : Storages ι n :=
  { o with
    ledger := o.ledger.construct x success
    types := if success then Function.update o.types x (some i) else o.types }

/-- Destroy the object in a storage as one of type `i`. -/
def destroy (o : Storages ι n) (x : ι) (i : Fin n) : Storages ι n :=
  { o with
    ledger := o.ledger.destroy x
    mistyped := o.mistyped || decide (o.types x ≠ some i) }

omit [DecidableEq ι] in
/-- There was no fault, and the objects have the types `held`. -/
structure Holds (o : Storages ι n) (held : ι → Option (Fin n)) : Prop where
  objects : o.ledger.Holds {x | held x ≠ none}
  types : ∀ x i, held x = some i → o.types x = some i
  typed : o.mistyped = false

variable {o : Storages ι n} {held : ι → Option (Fin n)} {x : ι} {i : Fin n}

omit [DecidableEq ι] in
theorem holds_empty : (empty ι n).Holds fun _ => none := by
  refine ⟨?_, by rintro x i ⟨⟩, rfl⟩
  have hnone : {x : ι | (none : Option (Fin n)) ≠ none} = ∅ := by
    ext x
    simp
  rw [hnone]
  exact Ledger.holds_empty

omit [DecidableEq ι] in
theorem Holds.no_fault (h : o.Holds held) : o.fault = false := by
  rw [fault, h.objects.no_fault, h.typed]
  rfl

/-- **Constructing** in a storage without an object. -/
theorem Holds.construct (h : o.Holds held) (hnone : held x = none) (i : Fin n) :
    (o.construct x i true).Holds (Function.update held x (some i)) := by
  refine ⟨?_, fun y j hj => ?_, h.typed⟩
  · have hinsert : {y | Function.update held x (some i) y ≠ none} =
        insert x {y | held y ≠ none} := by
      ext y
      by_cases hyx : y = x
      · simp [hyx]
      · simp [hyx]
    rw [hinsert]
    exact h.objects.construct (not_not.mpr hnone)
  · show Function.update o.types x (some i) y = some j
    by_cases hyx : y = x
    · subst hyx
      rwa [Function.update_self] at hj ⊢
    · rw [Function.update_of_ne hyx] at hj ⊢
      exact h.types y j hj

/-- A constructor that throws, in a storage without an object. -/
theorem Holds.construct_fail (h : o.Holds held) (hnone : held x = none) (i : Fin n) :
    (o.construct x i false).Holds held :=
  ⟨h.objects.construct_fail (not_not.mpr hnone), h.types, h.typed⟩

/-- **Destroying** an object as what it is. -/
theorem Holds.destroy (h : o.Holds held) (hi : held x = some i) :
    (o.destroy x i).Holds (Function.update held x none) := by
  refine ⟨?_, fun y j hj => ?_, ?_⟩
  · have hremove : {y | Function.update held x none y ≠ none} = {y | held y ≠ none} \ {x} := by
      ext y
      by_cases hyx : y = x
      · simp [hyx]
      · simp [hyx]
    rw [hremove]
    exact h.objects.destroy (hi.trans_ne (Option.some_ne_none i))
  · by_cases hyx : y = x
    · rw [hyx, Function.update_self] at hj
      cases hj
    · rw [Function.update_of_ne hyx] at hj
      exact h.types y j hj
  · show (o.mistyped || decide (o.types x ≠ some i)) = false
    simp [h.typed, h.types x i hi]

omit [DecidableEq ι] in
/-- **Using** an object as what it is. -/
theorem Holds.access (h : o.Holds held) (hi : held x = some i) : (o.access x i).Holds held := by
  refine ⟨h.objects.access (hi.trans_ne (Option.some_ne_none i)), h.types, ?_⟩
  show (o.mistyped || decide (o.types x ≠ some i)) = false
  simp [h.typed, h.types x i hi]

omit [DecidableEq ι] in
/-- Using the object of a storage without one is a fault. -/
theorem Holds.access_fault (h : o.Holds held) (hnone : held x = none) (i : Fin n) :
    (o.access x i).fault = true := by
  have hfault : (o.ledger.access x).fault = true := h.objects.access_fault (not_not.mpr hnone)
  show ((o.ledger.access x).fault || _) = true
  rw [hfault, Bool.true_or]

omit [DecidableEq ι] in
/-- Without objects, every object was destroyed once. -/
theorem Holds.settled (h : o.Holds held) (hnone : ∀ x, held x = none) : o.ledger.Settled := by
  have hobjects := h.objects
  have hempty : {x | held x ≠ none} = ∅ := by
    ext x
    simp [hnone x]
  rw [hempty] at hobjects
  exact hobjects.settled

/-- A fault stays. -/
theorem construct_fault (h : o.fault = true) (x : ι) (i : Fin n) (success : Bool) :
    (o.construct x i success).fault = true := by
  show (o.ledger.fault || o.ledger.live x || o.mistyped) = true
  rw [Bool.or_right_comm, show (o.ledger.fault || o.mistyped) = true from h, Bool.true_or]

theorem destroy_fault (h : o.fault = true) (x : ι) (i : Fin n) :
    (o.destroy x i).fault = true := by
  show (o.ledger.fault || !o.ledger.live x || (o.mistyped || _)) = true
  rcases Bool.or_eq_true_iff.mp h with hledger | hmistyped
  · rw [hledger, Bool.true_or, Bool.true_or]
  · rw [hmistyped, Bool.true_or, Bool.or_true]

omit [DecidableEq ι] in
theorem access_fault (h : o.fault = true) (x : ι) (i : Fin n) : (o.access x i).fault = true := by
  show (o.ledger.fault || !o.ledger.live x || (o.mistyped || _)) = true
  rcases Bool.or_eq_true_iff.mp h with hledger | hmistyped
  · rw [hledger, Bool.true_or, Bool.true_or]
  · rw [hmistyped, Bool.true_or, Bool.or_true]

end Storages

/-! ## The variants -/

/-- The variants of a program, and the objects in them. -/
structure Variants (ι : Type*) (A : Fin n → Type*) where
  variants : ι → FixedVariant A
  storages : Storages ι n

namespace Variants

variable [DecidableEq ι]

/-- Change the members of a variant. -/
def modify (s : Variants ι A) (x : ι) (v : FixedVariant A) : Variants ι A :=
  { s with variants := Function.update s.variants x v }

/-- `destroy_at` of the storage of a variant; `destroyed` is what the destructors leave there. -/
def destroyAt (destroyed : ∀ i, A i → A i) (s : Variants ι A) (x : ι) (index : ℕ) : Variants ι A :=
  if h : index < n then
    let v := s.variants x
    { s.modify x { v with storage := v.storage.map (Sigma.map id destroyed) } with
      storages := s.storages.destroy x ⟨index, h⟩ }
  else s

/-- `clear`. -/
def clear (destroyed : ∀ i, A i → A i) (s : Variants ι A) (x : ι) : Variants ι A :=
  if (s.variants x).empty then s
  else
    let s := destroyAt destroyed s x (s.variants x).index
    s.modify x { s.variants x with index := n }

/-- `new (storage_) T(..)`, and the index of `T`. -/
def place (s : Variants ι A) (x : ι) (i : Fin n) (object : Option (Σ i, A i)) : Variants ι A :=
  { s.modify x ⟨i, object⟩ with storages := s.storages.construct x i true }

/-- `emplace`; `none` if the constructor throws. -/
def emplace (destroyed : ∀ i, A i → A i) (s : Variants ι A) (x : ι) (i : Fin n)
    (value : Option (A i)) : Option Status × Variants ι A :=
  let s := clear destroyed s x
  match value with
  | none => (none, { s with storages := s.storages.construct x i false })
  | some value => (some .ok, place s x i (some ⟨i, value⟩))

/-- `emplace` with a reference to the object of alternative `i` in the variant `y`. -/
def emplaceFrom (destroyed : ∀ i, A i → A i) (s : Variants ι A) (x : ι) (i : Fin n) (y : ι) :
    Option Status × Variants ι A :=
  let s := clear destroyed s x
  let s := { s with storages := s.storages.access y i }
  (some .ok, place s x i (s.variants y).storage)

/-- `move_at`, from the storage of `y` to that of `x`. -/
def moveAt (destroyed : ∀ i, A i → A i) (s : Variants ι A) (index : ℕ) (y x : ι) : Variants ι A :=
  if h : index < n then
    let s := { s with
      variants := Function.update s.variants x
        { s.variants x with storage := (s.variants y).storage }
      storages := s.storages.construct x ⟨index, h⟩ true }
    destroyAt destroyed s y index
  else s

/-- `move_from`, from `y` to `x`. -/
def moveFrom (destroyed : ∀ i, A i → A i) (s : Variants ι A) (x y : ι) : Variants ι A :=
  if (s.variants y).empty then s.modify x { s.variants x with index := n }
  else
    let index := (s.variants y).index
    let s := moveAt destroyed s index y x
    let s := s.modify x { s.variants x with index := index }
    s.modify y { s.variants y with index := n }

/-- Move assignment. -/
def moveAssign (destroyed : ∀ i, A i → A i) (s : Variants ι A) (x y : ι) : Variants ι A :=
  if x = y then s else moveFrom destroyed (clear destroyed s x) x y

/-- A call on a variant of the family. -/
inductive Call (ι : Type*) (A : Fin n → Type*)
  /-- `none` if the constructor throws. -/
  | emplace (x : ι) (i : Fin n) (value : Option (A i))
  /-- `x.emplace<T>(*y.try_get<T>())`, if the pointer is not null. -/
  | emplaceFrom (x : ι) (i : Fin n) (y : ι)
  /-- `*x.try_get<T>() = value`, if the pointer is not null. -/
  | assign (x : ι) (i : Fin n) (value : A i)
  /-- `out` is what the argument of `get` holds before. -/
  | get (x : ι) (i : Fin n) (out : A i)
  | index (x : ι)
  | visit (x : ι) (visitor : Option (Σ i, A i) → Status)
  /-- Also the destructor. -/
  | clear (x : ι)
  /-- Also move construction, of an empty variant. -/
  | moveAssign (x y : ι)

/-- What a call returns. -/
inductive Result (A : Fin n → Type*)
  | status (result : Status)
  | thrown
  /-- `try_get` gave a null pointer. -/
  | null
  /-- The status, and what the argument holds afterwards. -/
  | value (result : Status) (out : Option (Σ i, A i))
  | index (index : ℕ)
  | done

/-- The result of `emplace`. -/
def Result.ofEmplace : Option Status → Result A
  | none => .thrown
  | some result => .status result

/-- Dispatch a call. -/
def call (destroyed : ∀ i, A i → A i) (s : Variants ι A) : Call ι A → Result A × Variants ι A
  | .emplace x i value =>
    let (result, s) := emplace destroyed s x i value
    (.ofEmplace result, s)
  | .emplaceFrom x i y =>
    if (s.variants y).holds i then
      let (result, s) := emplaceFrom destroyed s x i y
      (.ofEmplace result, s)
    else (.null, s)
  | .assign x i value =>
    if (s.variants x).holds i then
      (.done,
        { s.modify x { s.variants x with storage := some ⟨i, value⟩ } with
          storages := s.storages.access x i })
    else (.null, s)
  | .get x i out =>
    if (s.variants x).holds i then
      (.value .ok (s.variants x).storage, { s with storages := s.storages.access x i })
    else (.value .invalid (some ⟨i, out⟩), s)
  | .index x => (.index (s.variants x).index, s)
  | .visit x visitor =>
    if (s.variants x).empty then (.status .empty, s)
    else if h : (s.variants x).index < n then
      (.status (visitor (s.variants x).storage),
        { s with storages := s.storages.access x ⟨(s.variants x).index, h⟩ })
    else (.status .invalid, s)
  | .clear x => (.done, clear destroyed s x)
  | .moveAssign x y => (.done, moveAssign destroyed s x y)

/-- All variants are empty. -/
def start (ι : Type*) (A : Fin n → Type*) : Variants ι A := ⟨fun _ => ⟨n, none⟩, .empty ι n⟩

end Variants

/-! ## What the variants are for -/

namespace Alternatives

open Variants

variable [DecidableEq ι]

/-- The value of a variant that holds alternative `i`. -/
def valueAt (value : Option (Σ i, A i)) (i : Fin n) : Option (Σ i, A i) :=
  value.filter fun value => value.1 = i

/-- Dispatch a call. -/
def call (values : ι → Option (Σ i, A i)) : Call ι A → Result A × (ι → Option (Σ i, A i))
  | .emplace x i value =>
    (if value.isSome then .status .ok else .thrown,
      Function.update values x (value.map fun value => ⟨i, value⟩))
  | .emplaceFrom x i y =>
    match valueAt (values y) i with
    | none => (.null, values)
    | some value => (.status .ok, Function.update values x (some value))
  | .assign x i value =>
    if (valueAt (values x) i).isSome then (.done, Function.update values x (some ⟨i, value⟩))
    else (.null, values)
  | .get x i out =>
    match valueAt (values x) i with
    | none => (.value .invalid (some ⟨i, out⟩), values)
    | some value => (.value .ok (some value), values)
  | .index x => (.index ((values x).elim n fun value => value.1), values)
  | .visit x visitor =>
    (.status ((values x).elim .empty fun value => visitor (some value)), values)
  | .clear x => (.done, Function.update values x none)
  | .moveAssign x y =>
    (.done,
      if x = y then values else Function.update (Function.update values x (values y)) y none)

end Alternatives

/-! ## The invariant -/

variable {values : ι → Option (Σ i, A i)} {v : FixedVariant A}

/-- The members of a variant with a value. -/
def FixedVariant.Matches (v : FixedVariant A) : Option (Σ i, A i) → Prop
  | none => v.index = n
  | some value => v.index = value.1 ∧ v.storage = some value

@[simp] theorem FixedVariant.matches_none : v.Matches none ↔ v.index = n := Iff.rfl

@[simp] theorem FixedVariant.matches_some {value : Σ i, A i} :
    v.Matches (some value) ↔ v.index = value.1 ∧ v.storage = some value := Iff.rfl

theorem FixedVariant.Matches.empty_iff {value : Option (Σ i, A i)} (h : v.Matches value) :
    v.empty = true ↔ value = none := by
  cases value with
  | none =>
    rw [FixedVariant.matches_none] at h
    simp [FixedVariant.empty, h]
  | some value =>
    have hne : v.index ≠ n := h.1.trans_ne value.1.isLt.ne
    simp [FixedVariant.empty, hne]

theorem FixedVariant.Matches.holds_iff {value : Option (Σ i, A i)} (h : v.Matches value)
    (i : Fin n) : v.holds i = true ↔ value.map Sigma.fst = some i := by
  cases value with
  | none =>
    rw [FixedVariant.matches_none] at h
    simp [FixedVariant.holds, FixedVariant.empty, h]
  | some value =>
    have hne : v.index ≠ n := h.1.trans_ne value.1.isLt.ne
    simp [FixedVariant.holds, FixedVariant.empty, hne, Fin.ext_iff, ← h.1]

namespace Variants

/-- The types of the values. -/
def typesOf (values : ι → Option (Σ i, A i)) (x : ι) : Option (Fin n) := (values x).map Sigma.fst

/-- The variants have the values, and the objects are those of the values. -/
structure Sound (s : Variants ι A) (values : ι → Option (Σ i, A i)) : Prop where
  members : ∀ x, (s.variants x).Matches (values x)
  objects : s.storages.Holds (typesOf values)

variable {s : Variants ι A} {x y : ι} {destroyed : ∀ i, A i → A i}

/-- The object of a value has its type. -/
theorem typesOf_some {value : Σ i, A i} (hsome : values x = some value) :
    typesOf values x = some value.1 := by
  rw [typesOf, hsome]
  rfl

/-- A variant without a value has no object. -/
theorem typesOf_none (hnone : values x = none) : typesOf values x = none := by
  rw [typesOf, hnone]
  rfl

variable [DecidableEq ι]

/-- The types change with the values. -/
theorem typesOf_update (values : ι → Option (Σ i, A i)) (x : ι) (value : Option (Σ i, A i)) :
    typesOf (Function.update values x value) =
      Function.update (typesOf values) x (value.map Sigma.fst) := by
  funext y
  by_cases hyx : y = x
  · simp [typesOf, hyx]
  · simp [typesOf, hyx]

/-- One variant and its value change. -/
theorem matches_update {variants : ι → FixedVariant A}
    (h : ∀ x, (variants x).Matches (values x)) {value : Option (Σ i, A i)}
    (hv : v.Matches value) (z : ι) :
    (Function.update variants x v z).Matches (Function.update values x value z) := by
  by_cases hzx : z = x
  · subst hzx
    rw [Function.update_self, Function.update_self]
    exact hv
  · rw [Function.update_of_ne hzx, Function.update_of_ne hzx]
    exact h z

/-- **`clear`** destroys the object as what it is. -/
theorem Sound.clear (h : Sound s values) (x : ι) :
    Sound (clear destroyed s x) (Function.update values x none) := by
  unfold Variants.clear
  cases hvalue : values x with
  | none =>
    rw [if_pos ((h.members x).empty_iff.mpr hvalue), ← hvalue, Function.update_eq_self]
    exact h
  | some value =>
    have hmembers := h.members x
    rw [hvalue] at hmembers
    obtain ⟨hindex, -⟩ := hmembers
    rw [if_neg (by rw [(h.members x).empty_iff, hvalue]; exact Option.some_ne_none _)]
    have hlt : (s.variants x).index < n := hindex.trans_lt value.1.isLt
    have hslot : (⟨(s.variants x).index, hlt⟩ : Fin n) = value.1 := Fin.ext hindex
    simp only [destroyAt, dif_pos hlt, modify, Function.update_idem, hslot]
    refine ⟨matches_update h.members (FixedVariant.matches_none.mpr rfl), ?_⟩
    rw [typesOf_update]
    exact h.objects.destroy (typesOf_some hvalue)

/-- **A constructor** in a variant without an object. -/
theorem Sound.place (h : Sound s values) (hnone : values x = none) (value : Σ i, A i) :
    Sound (place s x value.1 (some value)) (Function.update values x (some value)) := by
  refine ⟨matches_update h.members (FixedVariant.matches_some.mpr ⟨rfl, rfl⟩), ?_⟩
  rw [typesOf_update]
  exact h.objects.construct (typesOf_none hnone) _

/-- **`move_from`** constructs in one variant and destroys in the other. -/
theorem Sound.moveFrom (h : Sound s values) (hnone : values x = none) (hxy : x ≠ y) :
    Sound (moveFrom destroyed s x y)
      (Function.update (Function.update values x (values y)) y none) := by
  unfold Variants.moveFrom
  cases hvalue : values y with
  | none =>
    rw [if_pos ((h.members y).empty_iff.mpr hvalue)]
    have hx : Function.update values x none = values := by
      rw [← hnone, Function.update_eq_self]
    have hy : Function.update values y none = values := by
      rw [← hvalue, Function.update_eq_self]
    have hmembers := matches_update (x := x) (v := { s.variants x with index := n }) h.members
      (FixedVariant.matches_none.mpr rfl)
    rw [hx] at hmembers
    rw [hx, hy]
    exact ⟨hmembers, h.objects⟩
  | some value =>
    have hmembers := h.members y
    rw [hvalue] at hmembers
    obtain ⟨hindex, hstorage⟩ := hmembers
    rw [if_neg (by rw [(h.members y).empty_iff, hvalue]; exact Option.some_ne_none _)]
    have hlt : (s.variants y).index < n := hindex.trans_lt value.1.isLt
    have hslot : (⟨(s.variants y).index, hlt⟩ : Fin n) = value.1 := Fin.ext hindex
    have hy : Function.update values x (some value) y = some value := by
      rw [Function.update_of_ne hxy.symm, hvalue]
    simp only [moveAt, destroyAt, dif_pos hlt, hslot, modify]
    refine ⟨fun z => ?_, ?_⟩
    · by_cases hzy : z = y
      · subst hzy
        simp
      · by_cases hzx : z = x
        · subst hzx
          simp [hxy, hindex, hstorage]
        · simpa [hzx, hzy] using h.members z
    · -- the new object is constructed before the old one is destroyed
      have hboth := h.objects.construct (typesOf_none hnone) value.1
      rw [typesOf_update, typesOf_update]
      refine hboth.destroy ?_
      rw [Function.update_of_ne hxy.symm, typesOf_some hvalue]

/-- A value is written to the object of its variant. -/
theorem Sound.assign (h : Sound s values) {old : Σ i, A i} (value : Σ i, A i)
    (hold : values x = some old) (hindex : old.1 = value.1) :
    Sound { s.modify x { s.variants x with storage := some value } with
        storages := s.storages.access x value.1 } (Function.update values x (some value)) := by
  have hmembers := h.members x
  rw [hold, FixedVariant.matches_some] at hmembers
  refine ⟨matches_update h.members
    (FixedVariant.matches_some.mpr ⟨hmembers.1.trans (congrArg Fin.val hindex), rfl⟩), ?_⟩
  have htype : typesOf values x = some value.1 := (typesOf_some hold).trans (congrArg some hindex)
  have hsame : typesOf (Function.update values x (some value)) = typesOf values := by
    rw [typesOf_update, Option.map_some, ← htype, Function.update_eq_self]
  rw [hsame]
  exact h.objects.access htype

omit [DecidableEq ι] in
/-- The object of a variant is used. -/
theorem Sound.access (h : Sound s values) {value : Σ i, A i} (hvalue : values x = some value) :
    Sound { s with storages := s.storages.access x value.1 } values :=
  ⟨h.members, h.objects.access (typesOf_some hvalue)⟩

omit [DecidableEq ι] in
/-- A variant that does not hold an alternative, and one that does. -/
theorem Sound.valueAt_cases (h : Sound s values) (x : ι) (i : Fin n) :
    ((s.variants x).holds i = false ∧ Alternatives.valueAt (values x) i = none) ∨
      ∃ value, (s.variants x).holds i = true ∧ values x = some value ∧ value.1 = i ∧
        Alternatives.valueAt (values x) i = some value ∧
        (s.variants x).storage = some value := by
  have hmembers := h.members x
  have hholds := hmembers.holds_iff i
  cases hvalue : values x with
  | none =>
    refine .inl ⟨?_, rfl⟩
    rw [Bool.eq_false_iff, ne_eq, hholds, hvalue]
    rintro ⟨⟩
  | some value =>
    rw [hvalue, FixedVariant.matches_some] at hmembers
    rw [hvalue, Option.map_some, Option.some.injEq] at hholds
    by_cases hi : value.1 = i
    · refine .inr ⟨value, hholds.mpr hi, rfl, hi, ?_, hmembers.2⟩
      simp [Alternatives.valueAt, hi]
    · refine .inl ⟨Bool.eq_false_iff.mpr (mt hholds.mp hi), ?_⟩
      simp [Alternatives.valueAt, hi]

/-! ## Runs -/

/-- A variant is not assigned from its own object. -/
def NotOwn (s : Variants ι A) : Call ι A → Prop
  | .emplaceFrom x i y => x ≠ y ∨ (s.variants y).holds i = false
  | _ => True

instance (s : Variants ι A) : ∀ c, Decidable (NotOwn s c)
  | .emplaceFrom x i y => inferInstanceAs (Decidable (x ≠ y ∨ (s.variants y).holds i = false))
  | .emplace _ _ _ => isTrue trivial
  | .assign _ _ _ => isTrue trivial
  | .get _ _ _ => isTrue trivial
  | .index _ => isTrue trivial
  | .visit _ _ => isTrue trivial
  | .clear _ => isTrue trivial
  | .moveAssign _ _ => isTrue trivial

/-- **One call** answers as the values, which the variants go on having. -/
theorem Sound.call (h : Sound s values) (c : Call ι A) (hc : NotOwn s c) :
    (call destroyed s c).1 = (Alternatives.call values c).1 ∧
      Sound (Variants.call destroyed s c).2 (Alternatives.call values c).2 := by
  cases c with
  | emplace x i value =>
    have hclear : Sound (Variants.clear destroyed s x) _ := h.clear x
    have hnone : Function.update values x none x = none := Function.update_self ..
    cases value with
    | none => exact ⟨rfl, hclear.members, hclear.objects.construct_fail (typesOf_none hnone) i⟩
    | some value =>
      have hplace := hclear.place hnone ⟨i, value⟩
      rw [Function.update_idem] at hplace
      exact ⟨rfl, hplace⟩
  | emplaceFrom x i y =>
    rcases h.valueAt_cases y i with ⟨hholds, hvalueAt⟩ | ⟨value, hholds, hvalue, rfl, hvalueAt, -⟩
    · simp only [Variants.call, hholds, Alternatives.call, hvalueAt]
      exact ⟨rfl, h⟩
    · have hxy : x ≠ y := hc.resolve_right (by rw [hholds]; exact Bool.noConfusion)
      -- the object is still there when the variant has been cleared
      have hclear : Sound (Variants.clear destroyed s x) _ := h.clear x
      have hy : Function.update values x none y = some value := by
        rw [Function.update_of_ne hxy.symm, hvalue]
      have hstorage := hclear.members y
      rw [hy, FixedVariant.matches_some] at hstorage
      have hplace := (hclear.access hy).place (Function.update_self ..) value
      rw [Function.update_idem] at hplace
      simp only [Variants.call, hholds, if_true, Alternatives.call, hvalueAt, emplaceFrom,
        hstorage.2]
      exact ⟨rfl, hplace⟩
  | assign x i value =>
    rcases h.valueAt_cases x i with ⟨hholds, hvalueAt⟩ | ⟨old, hholds, hold, hi, hvalueAt, -⟩
    · simp only [Variants.call, hholds, Alternatives.call, hvalueAt]
      exact ⟨rfl, h⟩
    · simp only [Variants.call, hholds, if_true, Alternatives.call, hvalueAt]
      exact ⟨rfl, h.assign ⟨i, value⟩ hold hi⟩
  | get x i out =>
    rcases h.valueAt_cases x i with
      ⟨hholds, hvalueAt⟩ | ⟨value, hholds, hvalue, rfl, hvalueAt, hstorage⟩
    · simp only [Variants.call, hholds, Alternatives.call, hvalueAt]
      exact ⟨rfl, h⟩
    · simp only [Variants.call, hholds, if_true, Alternatives.call, hvalueAt, hstorage]
      exact ⟨trivial, h.access hvalue⟩
  | index x =>
    refine ⟨?_, h⟩
    have hmembers := h.members x
    cases hvalue : values x with
    | none =>
      rw [hvalue, FixedVariant.matches_none] at hmembers
      simp only [Variants.call, Alternatives.call, hvalue, hmembers, Option.elim_none]
    | some value =>
      rw [hvalue, FixedVariant.matches_some] at hmembers
      simp only [Variants.call, Alternatives.call, hvalue, hmembers.1, Option.elim_some]
  | visit x visitor =>
    have hmembers := h.members x
    have hempty := hmembers.empty_iff
    cases hvalue : values x with
    | none =>
      simp only [Variants.call, Alternatives.call, hvalue, if_pos (hempty.mpr hvalue),
        Option.elim_none]
      exact ⟨trivial, h⟩
    | some value =>
      rw [hvalue, FixedVariant.matches_some] at hmembers
      have hlt : (s.variants x).index < n := hmembers.1.trans_lt value.1.isLt
      have hslot : (⟨(s.variants x).index, hlt⟩ : Fin n) = value.1 := Fin.ext hmembers.1
      have hnot : ¬ (s.variants x).empty = true := by
        rw [hempty, hvalue]
        exact Option.some_ne_none _
      simp only [Variants.call, Alternatives.call, hvalue, if_neg hnot, dif_pos hlt, hslot,
        hmembers.2, Option.elim_some]
      exact ⟨trivial, h.access hvalue⟩
  | clear x => exact ⟨rfl, h.clear x⟩
  | moveAssign x y =>
    refine ⟨rfl, ?_⟩
    simp only [Variants.call, Alternatives.call, moveAssign]
    by_cases hxy : x = y
    · rw [if_pos hxy, if_pos hxy]
      exact h
    · rw [if_neg hxy, if_neg hxy]
      have hclear : Sound (Variants.clear destroyed s x) _ := h.clear x
      have hmove : Sound (Variants.moveFrom destroyed (Variants.clear destroyed s x) x y) _ :=
        hclear.moveFrom (Function.update_self ..) hxy
      rw [Function.update_of_ne (Ne.symm hxy), Function.update_idem] at hmove
      exact hmove

/-- A fault stays. -/
theorem destroyAt_fault (h : s.storages.fault = true) (x : ι) (index : ℕ) :
    (destroyAt destroyed s x index).storages.fault = true := by
  unfold destroyAt
  by_cases hlt : index < n
  · rw [dif_pos hlt]
    exact Storages.destroy_fault h x _
  · rw [dif_neg hlt]
    exact h

theorem clear_fault (h : s.storages.fault = true) (x : ι) :
    (clear destroyed s x).storages.fault = true := by
  unfold clear
  split
  · exact h
  · exact destroyAt_fault h x _

theorem moveFrom_fault (h : s.storages.fault = true) (x y : ι) :
    (moveFrom destroyed s x y).storages.fault = true := by
  unfold moveFrom moveAt
  split
  · exact h
  · by_cases hlt : (s.variants y).index < n
    · simp only [dif_pos hlt]
      exact destroyAt_fault (Storages.construct_fault h x _ true) y _
    · simp only [dif_neg hlt]
      exact h

theorem call_fault (h : s.storages.fault = true) (c : Call ι A) :
    (call destroyed s c).2.storages.fault = true := by
  cases c with
  | emplace x i value =>
    have hclear : (clear destroyed s x).storages.fault = true := clear_fault h x
    cases value with
    | none => exact Storages.construct_fault hclear x i false
    | some value => exact Storages.construct_fault hclear x i true
  | emplaceFrom x i y =>
    simp only [call]
    split
    · exact Storages.construct_fault (Storages.access_fault (clear_fault h x) y i) x i true
    · exact h
  | assign x i value =>
    simp only [call]
    split
    · exact Storages.access_fault h x _
    · exact h
  | get x i out =>
    simp only [call]
    split
    · exact Storages.access_fault h x _
    · exact h
  | index x => exact h
  | visit x visitor =>
    simp only [call]
    split
    · exact h
    split
    · exact Storages.access_fault h x _
    · exact h
  | clear x => exact clear_fault h x
  | moveAssign x y =>
    simp only [call, moveAssign]
    split
    · exact h
    · exact moveFrom_fault (clear_fault h x) x y

/-- **Assigning a variant from its own object** uses an object that was destroyed. -/
theorem Sound.own_fault (h : Sound s values) {c : Call ι A} (hc : ¬ NotOwn s c) :
    (Variants.call destroyed s c).2.storages.fault = true := by
  cases c with
  | emplaceFrom x i y =>
    obtain ⟨hxy, hholds⟩ := not_or.mp hc
    obtain rfl := not_not.mp hxy
    rw [Bool.not_eq_false] at hholds
    have hclear : Sound (Variants.clear destroyed s x) _ := h.clear x
    simp only [Variants.call, hholds, if_true]
    exact Storages.construct_fault
      (hclear.objects.access_fault (typesOf_none (Function.update_self ..)) i) _ _ true
  | emplace x i value => exact absurd trivial hc
  | assign x i value => exact absurd trivial hc
  | get x i out => exact absurd trivial hc
  | index x => exact absurd trivial hc
  | visit x visitor => exact absurd trivial hc
  | clear x => exact absurd trivial hc
  | moveAssign x y => exact absurd trivial hc

omit [DecidableEq ι] in
/-- All variants are empty at the start. -/
theorem sound_start : Sound (start ι A) fun _ => none :=
  ⟨fun _ => rfl, Storages.holds_empty⟩

/-- **A variant holds one object, of the type that it says.** In every run no object is used or
destroyed that is not there or has another type, nor constructed over one, if and only if no variant
is assigned from its own object. Then the variants answer as the values assigned to them, and when
they are all empty every object was destroyed exactly once. -/
theorem one_object (ι : Type*) [DecidableEq ι] {n : ℕ} (A : Fin n → Type*)
    (destroyed : ∀ i, A i → A i) (calls : List (Call ι A)) :
    let s := Mealy.final (call destroyed) (start ι A) calls
    (Mealy.EveryCall (call destroyed) NotOwn (start ι A) calls ↔ s.storages.fault = false) ∧
      (s.storages.fault = false →
        Mealy.outputs (call destroyed) (start ι A) calls =
            Mealy.outputs Alternatives.call (fun _ => none) calls ∧
          ((∀ x, (s.variants x).empty = true) → s.storages.ledger.Settled)) := by
  have hiff : Mealy.EveryCall (call destroyed) NotOwn (start ι A) calls ↔
      (Mealy.final (call destroyed) (start ι A) calls).storages.fault = false := by
    refine Mealy.everyCall_iff_final (fun s => ∃ values, Sound s values)
      (fun s => s.storages.fault = true) (fun s => s.storages.fault = false) ?_ ?_ ?_ ?_ ?_
      ⟨_, sound_start⟩ calls
    · rintro s c ⟨values, h⟩ hc
      exact ⟨_, (h.call c hc).2⟩
    · rintro s c ⟨values, h⟩ hc
      exact h.own_fault hc
    · exact fun s c h => call_fault h c
    · rintro s ⟨values, h⟩
      exact h.objects.no_fault
    · intro s h
      rw [h]
      exact Bool.noConfusion
  refine ⟨hiff, fun hfault => ?_⟩
  obtain ⟨houtputs, hfinal⟩ := Mealy.simulation Sound
    (fun _ _ c h hc => h.call c hc) (hiff.mpr hfault) sound_start
  refine ⟨houtputs, fun hempty => ?_⟩
  exact hfinal.objects.settled fun x => typesOf_none ((hfinal.members x).empty_iff.mp (hempty x))

/-- Numbers and truth values. -/
abbrev NumberOrBool : Fin 2 → Type := ![ℕ, Bool]

/-- Two variants of which one is assigned from the other and moved. -/
def twoVariantCalls : List (Call Bool NumberOrBool) :=
  [.emplace false 0 (some (7 : ℕ)), .emplaceFrom true 0 false, .emplace false 1 none,
    .moveAssign false true, .index false, .clear false]

/-- There is no fault in such a run. -/
theorem one_object_twoVariantCalls :
    (Mealy.final (call fun _ value => value) (start Bool NumberOrBool)
        twoVariantCalls).storages.fault = false ∧
      Mealy.outputs (call fun _ value => value) (start Bool NumberOrBool) twoVariantCalls =
        [.status .ok, .status .ok, .thrown, .done, .index 0, .done] :=
  ⟨(one_object Bool NumberOrBool (fun _ value => value) twoVariantCalls).1.mp (by decide), rfl⟩

end Variants

end Memkit
