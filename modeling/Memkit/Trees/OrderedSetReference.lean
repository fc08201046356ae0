import Memkit.Trees.BTree

/-! # The reference ordered set

What the tree map over a pool is for: a set of elements in the order of the comparator, at most one
of each class of equivalent elements, with room for a bounded number.

* **`TotalPreorder`** — what is asked of a comparator.
* **`Sorted`** — the elements as a list that strictly increases.
* **`OrderedSet.call`** — the operations. -/

namespace Memkit

variable {V : Type*} {compare : V → V → ℤ} {xs as bs : List V} {x key : V}

/-- The signs of the comparator are those of a total preorder. -/
structure TotalPreorder (compare : V → V → ℤ) : Prop where
  swap : ∀ a b, compare a b < 0 ↔ 0 < compare b a
  trans : ∀ a b c, compare a b ≤ 0 → compare b c ≤ 0 → compare a c ≤ 0

namespace TotalPreorder

variable {a b c : V}

theorem refl (h : TotalPreorder compare) (a : V) : compare a a = 0 := by
  have hswap := h.swap a a
  omega

theorem le_iff (h : TotalPreorder compare) : compare a b ≤ 0 ↔ 0 ≤ compare b a := by
  have hswap := h.swap b a
  omega

theorem lt_of_lt_of_le (h : TotalPreorder compare) (hab : compare a b < 0) (hbc : compare b c ≤ 0) :
    compare a c < 0 := by
  by_contra hac
  have hca : compare c a ≤ 0 := h.le_iff.mpr (not_lt.mp hac)
  exact absurd (h.le_iff.mp (h.trans b c a hbc hca)) (not_le.mpr hab)

theorem lt_of_le_of_lt (h : TotalPreorder compare) (hab : compare a b ≤ 0) (hbc : compare b c < 0) :
    compare a c < 0 := by
  by_contra hac
  have hca : compare c a ≤ 0 := h.le_iff.mpr (not_lt.mp hac)
  exact absurd (h.le_iff.mp (h.trans c a b hca hab)) (not_le.mpr hbc)

end TotalPreorder

namespace OrderedSet

/-- The elements strictly increase. -/
def Sorted (compare : V → V → ℤ) (xs : List V) : Prop := xs.Pairwise fun a b => compare a b < 0

/-- The element that is equivalent to `key`. -/
def find (compare : V → V → ℤ) (xs : List V) (key : V) : Option V :=
  xs.find? fun x => compare key x = 0

/-- Put an element in the place of an equivalent one, or else, if there is room, between those
before it and those after it. -/
def insert (compare : V → V → ℤ) (room : ℕ) (xs : List V) (elem : V) : Status × List V :=
  if (find compare xs elem).isSome then
    (.ok, xs.map fun x => if compare elem x = 0 then elem else x)
  else if room ≤ xs.length then (.full, xs)
  else
    (.ok, xs.filter (fun x => 0 < compare elem x) ++ elem :: xs.filter fun x => compare elem x < 0)

/-- Take out the element that is equivalent to `key`. -/
def remove (compare : V → V → ℤ) (xs : List V) (key : V) : Status × List V :=
  if (find compare xs key).isSome then (.ok, xs.filter fun x => compare key x ≠ 0)
  else (.notFound, xs)

/-- What is written to an out pointer, and the status. -/
def fetch (found : Option V) (missing : Status) (out : Option V) : Status × Option V :=
  match out with
  | none => (.nullPtr, none)
  | some out =>
    match found with
    | none => (missing, some out)
    | some x => (.ok, some x)

/-- Dispatch a call. -/
def call (compare : V → V → ℤ) (room : ℕ) (xs : List V) : BTree.Call V → BTree.Reply V × List V
  | .insert none => (.status .nullPtr, xs)
  | .insert (some elem) =>
    let (st, xs) := insert compare room xs elem
    (.status st, xs)
  | .get none out => (.value .nullPtr out, xs)
  | .get (some key) out => (.ofOut (fetch (find compare xs key) .notFound out), xs)
  | .contains none => (.contains false, xs)
  | .contains (some key) => (.contains (find compare xs key).isSome, xs)
  | .remove none => (.status .nullPtr, xs)
  | .remove (some key) =>
    let (st, xs) := remove compare xs key
    (.status st, xs)
  | .clear => (.done, [])
  | .peekMin out => (.ofOut (fetch xs.head? .empty out), xs)
  | .peekMax out => (.ofOut (fetch xs.getLast? .empty out), xs)
  | .foreach visit => (.ofVisits (visitLoop visit [] xs), xs)

/-! ## Where an element is, or would be -/

/-- The elements of `as` are before `key`, and those of `bs` behind it. -/
structure Around (compare : V → V → ℤ) (key : V) (as bs : List V) : Prop where
  before : ∀ a ∈ as, 0 < compare key a
  behind : ∀ b ∈ bs, compare key b < 0

theorem find_of_around (h : Around compare key as bs) (hx : compare key x = 0) :
    find compare (as ++ x :: bs) key = some x := by
  have hbefore : as.find? (fun x => compare key x = 0) = none := by
    rw [List.find?_eq_none]
    intro a ha
    simp [(h.before a ha).ne']
  rw [find, List.find?_append, hbefore, Option.none_or, List.find?_cons_of_pos (by simpa using hx)]

theorem find_of_around_none (h : Around compare key as bs) :
    find compare (as ++ bs) key = none := by
  rw [find, List.find?_eq_none]
  intro a ha
  rcases List.mem_append.mp ha with ha | ha
  · simp [(h.before a ha).ne']
  · simp [(h.behind a ha).ne]

/-- **Inserting** an element that is equivalent to one of the set. -/
theorem insert_of_around (h : Around compare key as bs) (hx : compare key x = 0) (room : ℕ) :
    insert compare room (as ++ x :: bs) key = (.ok, as ++ key :: bs) := by
  have has : as.map (fun x => if compare key x = 0 then key else x) = as := by
    refine (List.map_congr_left fun a ha => ?_).trans (List.map_id as)
    exact if_neg (h.before a ha).ne'
  have hbs : bs.map (fun x => if compare key x = 0 then key else x) = bs := by
    refine (List.map_congr_left fun b hb => ?_).trans (List.map_id bs)
    exact if_neg (h.behind b hb).ne
  rw [insert, find_of_around h hx, if_pos Option.isSome_some, List.map_append, List.map_cons, has,
    hbs, if_pos hx]

/-- **Inserting** a new element. -/
theorem insert_of_around_none (h : Around compare key as bs) (room : ℕ) :
    insert compare room (as ++ bs) key =
      if room ≤ (as ++ bs).length then (.full, as ++ bs) else (.ok, as ++ key :: bs) := by
  have hbefore : (as ++ bs).filter (fun x => 0 < compare key x) = as := by
    have has : as.filter (fun x => 0 < compare key x) = as :=
      List.filter_eq_self.mpr fun a ha => by simpa using h.before a ha
    have hbs : bs.filter (fun x => 0 < compare key x) = [] :=
      List.filter_eq_nil_iff.mpr fun b hb => by simpa using (h.behind b hb).le
    rw [List.filter_append, has, hbs, List.append_nil]
  have hbehind : (as ++ bs).filter (fun x => compare key x < 0) = bs := by
    have has : as.filter (fun x => compare key x < 0) = [] :=
      List.filter_eq_nil_iff.mpr fun a ha => by simpa using (h.before a ha).le
    have hbs : bs.filter (fun x => compare key x < 0) = bs :=
      List.filter_eq_self.mpr fun b hb => by simpa using h.behind b hb
    rw [List.filter_append, has, hbs, List.nil_append]
  rw [insert, find_of_around_none h, hbefore, hbehind]
  rfl

/-- **Removing** an element. -/
theorem remove_of_around (h : Around compare key as bs) (hx : compare key x = 0) :
    remove compare (as ++ x :: bs) key = (.ok, as ++ bs) := by
  have has : as.filter (fun x => compare key x ≠ 0) = as :=
    List.filter_eq_self.mpr fun a ha => by simpa using (h.before a ha).ne'
  have hbs : bs.filter (fun x => compare key x ≠ 0) = bs :=
    List.filter_eq_self.mpr fun b hb => by simpa using (h.behind b hb).ne
  rw [remove, find_of_around h hx, if_pos Option.isSome_some, List.filter_append,
    List.filter_cons_of_neg (by simpa using hx), has, hbs]

/-- Removing an element that is not there. -/
theorem remove_of_around_none (h : Around compare key as bs) :
    remove compare (as ++ bs) key = (.notFound, as ++ bs) := by
  rw [remove, find_of_around_none h]
  rfl

/-! ## The order is kept -/

/-- A new element, or one in the place of an equivalent one. -/
theorem Sorted.insert_around (h : Sorted compare (as ++ bs)) (hcmp : TotalPreorder compare)
    (haround : Around compare key as bs) : Sorted compare (as ++ key :: bs) := by
  unfold Sorted at h ⊢
  rw [List.pairwise_append] at h ⊢
  obtain ⟨has, hbs, hdisj⟩ := h
  refine ⟨has, List.pairwise_cons.mpr ⟨haround.behind, hbs⟩, fun a ha b hb => ?_⟩
  have hak : compare a key < 0 := (hcmp.swap a key).mpr (haround.before a ha)
  rcases List.mem_cons.mp hb with rfl | hb
  · exact hak
  · exact hdisj a ha b hb

theorem Sorted.remove_around (h : Sorted compare (as ++ x :: bs)) : Sorted compare (as ++ bs) :=
  h.sublist (List.Sublist.append_left (List.sublist_cons_self x bs) as)

/-- The elements of a sorted list around one of them. -/
theorem Sorted.around (h : Sorted compare (as ++ x :: bs)) (hcmp : TotalPreorder compare) :
    Around compare x as bs := by
  obtain ⟨-, hbs, hdisj⟩ := List.pairwise_append.mp h
  exact ⟨fun a ha => (hcmp.swap a x).mp (hdisj a ha x List.mem_cons_self),
    (List.pairwise_cons.mp hbs).1⟩

/-- The first element of a sorted list is the least. -/
theorem Sorted.head_le (h : Sorted compare xs) (hcmp : TotalPreorder compare)
    (hx : xs.head? = some x) : ∀ y ∈ xs, compare x y ≤ 0 := by
  obtain ⟨bs, rfl⟩ := List.head?_eq_some_iff.mp hx
  intro y hy
  rcases List.mem_cons.mp hy with rfl | hy
  · exact (hcmp.refl _).le
  · exact ((List.pairwise_cons.mp h).1 y hy).le

/-- The last element of a sorted list is the greatest. -/
theorem Sorted.le_getLast (h : Sorted compare xs) (hcmp : TotalPreorder compare)
    (hx : xs.getLast? = some x) : ∀ y ∈ xs, compare y x ≤ 0 := by
  obtain ⟨as, rfl⟩ := List.getLast?_eq_some_iff.mp hx
  intro y hy
  rcases List.mem_append.mp hy with hy | hy
  · exact ((List.pairwise_append.mp h).2.2 y hy x List.mem_cons_self).le
  · rw [List.mem_singleton.mp hy]
    exact (hcmp.refl x).le

end OrderedSet

end Memkit
