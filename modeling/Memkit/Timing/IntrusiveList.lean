import Memkit.Foundations.LinkedChain

/-! # Intrusive circular lists

`intrusive_list_hook` and `intrusive_list_head` of `detail/intrusive_hook.hpp`. Hooks are numbered
by a type `α`, the sentinels of the list heads among them; `Hooks` holds the two links of each.

* **`Hooks`** — the links and the operations on them, write by write.
* **`Ring`** — the links through a sentinel spell out a list of hooks, in both directions; one lemma
  for each operation says how the list changes, and which other hooks it leaves alone. -/

namespace Memkit

open LinkedChain

/-- The links of all hooks. -/
structure Hooks (α : Type*) where
  next : α → α
  prev : α → α

namespace Hooks

variable {α : Type*} [DecidableEq α]

/-- `intrusive_list_hook::init`, also `intrusive_list_head::clear` on a sentinel. -/
def init (h : Hooks α) (node : α) : Hooks α where
  next := Function.update h.next node node
  prev := Function.update h.prev node node

/-- `is_linked`. -/
def isLinked (h : Hooks α) (node : α) : Bool := h.next node ≠ node

/-- `empty` of the list with sentinel `head`. -/
def empty (h : Hooks α) (head : α) : Bool := !h.isLinked head

/-- `front`. -/
def front (h : Hooks α) (head : α) : α := h.next head

/-- `insert_after`. -/
def insertAfter (h : Hooks α) (pos node : α) : Hooks α :=
  let h := { h with next := Function.update h.next node (h.next pos) }
  let h := { h with prev := Function.update h.prev node pos }
  let h := { h with prev := Function.update h.prev (h.next pos) node }
  { h with next := Function.update h.next pos node }

/-- `push_back`. -/
def pushBack (h : Hooks α) (head node : α) : Hooks α := h.insertAfter (h.prev head) node

/-- `push_front`. -/
def pushFront (h : Hooks α) (head node : α) : Hooks α := h.insertAfter head node

/-- `erase`, which does not look at its list. -/
def erase (h : Hooks α) (node : α) : Hooks α :=
  if h.isLinked node then
    let h := { h with next := Function.update h.next (h.prev node) (h.next node) }
    let h := { h with prev := Function.update h.prev (h.next node) (h.prev node) }
    h.init node
  else h

/-- The links through the sentinel `head` spell out `xs`. -/
def Ring (h : Hooks α) (head : α) (xs : List α) : Prop :=
  Seg (some ∘ h.next) (some (h.next head)) xs (some head) ∧
    Seg (some ∘ h.prev) (some (h.prev head)) xs.reverse (some head)

variable {h h' : Hooks α} {head x y : α} {xs as bs : List α}

namespace Ring

omit [DecidableEq α] in
/-- The first hook, or the sentinel. -/
theorem next_head (hr : h.Ring head xs) : h.next head = xs.head?.getD head := by
  have hstart := hr.1.start_eq
  cases xs with
  | nil => simpa using hstart
  | cons x xs => simpa using hstart

omit [DecidableEq α] in
/-- The last hook, or the sentinel. -/
theorem prev_head (hr : h.Ring head xs) : h.prev head = xs.getLast?.getD head := by
  have hstart := hr.2.start_eq
  rw [List.head?_reverse] at hstart
  cases hlast : xs.getLast? with
  | none => simpa [hlast] using hstart
  | some x => simpa [hlast] using hstart

omit [DecidableEq α] in
/-- The links of a hook in the middle. -/
theorem links_eq (hr : h.Ring head (as ++ x :: bs)) :
    h.next x = bs.head?.getD head ∧ h.prev x = as.getLast?.getD head := by
  constructor
  · have hnext := hr.1.next_eq
    cases bs with
    | nil => simpa using hnext
    | cons b bs => simpa using hnext
  · have hbwd := hr.2
    rw [List.reverse_append, List.reverse_cons, List.append_assoc, List.singleton_append] at hbwd
    have hprev := hbwd.next_eq
    rw [List.head?_reverse] at hprev
    cases hlast : as.getLast? with
    | none => simpa [hlast] using hprev
    | some y => simpa [hlast] using hprev

omit [DecidableEq α] in
/-- Only the links of the sentinel and of the hooks in the list matter. -/
theorem congr (hr : h.Ring head xs) (hnext : ∀ y ∈ head :: xs, h'.next y = h.next y)
    (hprev : ∀ y ∈ head :: xs, h'.prev y = h.prev y) : h'.Ring head xs := by
  constructor
  · rw [hnext head List.mem_cons_self]
    refine (seg_congr fun y hy => ?_).mpr hr.1
    exact congrArg some (hnext y (List.mem_cons_of_mem head hy))
  · rw [hprev head List.mem_cons_self]
    refine (seg_congr fun y hy => ?_).mpr hr.2
    exact congrArg some (hprev y (List.mem_cons_of_mem head (List.mem_reverse.mp hy)))

/-- A list is empty exactly if its sentinel is linked to itself. -/
theorem empty_iff (hr : h.Ring head xs) (hhead : head ∉ xs) : h.empty head = true ↔ xs = [] := by
  have hnext := hr.next_head
  cases xs with
  | nil => simpa [empty, isLinked] using hnext
  | cons x xs =>
    have hne : x ≠ head := by
      rintro rfl
      exact hhead List.mem_cons_self
    simp only [List.head?_cons, Option.getD_some] at hnext
    simp [empty, isLinked, hnext, hne]

/-- A hook in a list is linked. -/
theorem isLinked (hr : h.Ring head xs) (hnodup : (head :: xs).Nodup) (hx : x ∈ xs) :
    h.isLinked x = true := by
  obtain ⟨as, bs, rfl⟩ := List.append_of_mem hx
  obtain ⟨hhead, hnodup⟩ := List.nodup_cons.mp hnodup
  have hnext := hr.links_eq.1
  have hne : h.next x ≠ x := by
    rw [hnext]
    cases bs with
    | nil =>
      rintro rfl
      exact hhead (by simp)
    | cons b bs =>
      rintro rfl
      simpa using (List.nodup_append.mp hnodup).2.1
  simpa [Hooks.isLinked] using hne

end Ring

/-! ## `erase` -/

/-- The two writes of `erase` that close the gap which a hook leaves. -/
def closeGap (h : Hooks α) (x : α) : Hooks α where
  next := Function.update h.next (h.prev x) (h.next x)
  prev := Function.update h.prev (h.next x) (h.prev x)

/-- `erase` of a linked hook closes the gap and links the hook to itself. -/
theorem erase_eq (hlinked : h.isLinked x = true) (hprev : h.prev x ≠ x) :
    h.erase x = (h.closeGap x).init x := by
  rw [erase, if_pos hlinked]
  simp only [closeGap, Function.update_of_ne hprev.symm]

/-- `erase` of an unlinked hook does nothing. -/
theorem erase_of_not_linked (hlinked : h.isLinked x = false) : h.erase x = h := by
  rw [erase, hlinked]
  rfl

/-- An erased hook is unlinked. -/
theorem isLinked_erase (h : Hooks α) (x : α) : (h.erase x).isLinked x = false := by
  by_cases hlinked : h.isLinked x = true
  · rw [erase, if_pos hlinked]
    simp [isLinked, init]
  · rw [erase, if_neg hlinked]
    simpa using hlinked

namespace Ring

omit [DecidableEq α] in
/-- The hook before one in the list is another. -/
theorem prev_ne (hr : h.Ring head (as ++ x :: bs)) (hnodup : (head :: (as ++ x :: bs)).Nodup) :
    h.prev x ≠ x := by
  obtain ⟨hhead, hnodup⟩ := List.nodup_cons.mp hnodup
  rw [hr.links_eq.2]
  cases hlast : as.getLast? with
  | none =>
    rintro rfl
    exact hhead (by simp)
  | some y =>
    rintro rfl
    exact (List.nodup_append.mp hnodup).2.2 _ (List.mem_of_getLast? hlast) _ List.mem_cons_self rfl

/-- Linking a hook outside the list to itself leaves the list alone. -/
theorem init (hr : h.Ring head xs) (hx : x ∉ head :: xs) : (h.init x).Ring head xs := by
  have hne : ∀ y ∈ head :: xs, y ≠ x := by
    rintro y hy rfl
    exact hx hy
  exact hr.congr (fun y hy => Function.update_of_ne (hne y hy) _ _)
    fun y hy => Function.update_of_ne (hne y hy) _ _

/-- Closing the gap takes the hook out of the list. -/
theorem closeGap (hr : h.Ring head (as ++ x :: bs)) (hnodup : (head :: (as ++ x :: bs)).Nodup) :
    (h.closeGap x).Ring head (as ++ bs) := by
  obtain ⟨hnext, hprev⟩ := hr.links_eq
  have hrev : (as ++ x :: bs).reverse = bs.reverse ++ x :: as.reverse := by simp
  constructor
  · have hfwd := hr.1.unlink_ring hnodup
    rw [← hprev] at hfwd
    exact hfwd
  · have hbwd := hr.2
    rw [hrev] at hbwd
    have hnodup' : (head :: (bs.reverse ++ x :: as.reverse)).Nodup := by
      rw [← hrev]
      exact (List.Perm.cons head (List.reverse_perm _)).nodup_iff.mpr hnodup
    have hunlinked := hbwd.unlink_ring hnodup'
    rw [List.getLast?_reverse, ← hnext, ← List.reverse_append] at hunlinked
    exact hunlinked

/-- **`erase`** takes a hook out of its list. -/
theorem erase (hr : h.Ring head (as ++ x :: bs)) (hnodup : (head :: (as ++ x :: bs)).Nodup) :
    (h.erase x).Ring head (as ++ bs) := by
  have hout : x ∉ head :: (as ++ bs) := by
    have hmiddle : (x :: (head :: as ++ bs)).Nodup := List.nodup_middle.mp hnodup
    exact (List.nodup_cons.mp hmiddle).1
  rw [erase_eq (hr.isLinked hnodup (by simp)) (hr.prev_ne hnodup)]
  exact (hr.closeGap hnodup).init hout

/-- A hook taken out is linked to itself. -/
theorem erase_self (hr : h.Ring head (as ++ x :: bs)) (hnodup : (head :: (as ++ x :: bs)).Nodup) :
    (h.erase x).next x = x ∧ (h.erase x).prev x = x := by
  rw [erase_eq (hr.isLinked hnodup (by simp)) (hr.prev_ne hnodup)]
  exact ⟨Function.update_self .., Function.update_self ..⟩

/-- `erase` leaves the hooks outside the list alone. -/
theorem erase_frame (hr : h.Ring head (as ++ x :: bs)) (hnodup : (head :: (as ++ x :: bs)).Nodup)
    (hy : y ∉ head :: (as ++ x :: bs)) :
    (h.erase x).next y = h.next y ∧ (h.erase x).prev y = h.prev y := by
  obtain ⟨hnext, hprev⟩ := hr.links_eq
  have hyx : y ≠ x := by
    rintro rfl
    exact hy (by simp)
  have hynext : y ≠ h.next x := by
    rw [hnext]
    rintro rfl
    cases bs with
    | nil => exact hy (by simp)
    | cons b bs => exact hy (by simp)
  have hyprev : y ≠ h.prev x := by
    rw [hprev]
    rintro rfl
    cases hlast : as.getLast? with
    | none => exact hy (by simp [hlast])
    | some z =>
      rw [hlast, Option.getD_some] at hy
      exact hy (List.mem_cons_of_mem _ (List.mem_append_left _ (List.mem_of_getLast? hlast)))
  rw [erase_eq (hr.isLinked hnodup (by simp)) (hr.prev_ne hnodup)]
  exact ⟨(Function.update_of_ne hyx _ _).trans (Function.update_of_ne hyprev _ _),
    (Function.update_of_ne hyx _ _).trans (Function.update_of_ne hynext _ _)⟩

/-! ## `push_back` -/

/-- What `push_back` writes. -/
theorem pushBack_eq (hr : h.Ring head xs) (hx : x ∉ head :: xs) :
    h.pushBack head x =
      { next := Function.update (Function.update h.next x head) (xs.getLast?.getD head) x
        prev := Function.update (Function.update h.prev x (h.prev head)) head x } := by
  have hlast := hr.prev_head
  have hmem : xs.getLast?.getD head ∈ head :: xs := by
    cases hxs : xs.getLast? with
    | none => exact List.mem_cons_self
    | some y => exact List.mem_cons_of_mem head (List.mem_of_getLast? hxs)
  have hne : xs.getLast?.getD head ≠ x := by
    intro heq
    exact hx (heq ▸ hmem)
  -- the last hook is linked to the sentinel
  have hback : h.next (xs.getLast?.getD head) = head := by
    rcases List.eq_nil_or_concat xs with rfl | ⟨zs, y, rfl⟩
    · simpa using hr.next_head
    · rw [List.concat_eq_append] at hr ⊢
      rw [List.getLast?_concat, Option.getD_some]
      exact hr.links_eq.1
  simp only [pushBack, insertAfter, hlast, Function.update_of_ne hne, hback]

/-- **`push_back`** appends an unlinked hook. -/
theorem pushBack (hr : h.Ring head xs) (hnodup : (head :: xs).Nodup) (hx : x ∉ head :: xs) :
    (h.pushBack head x).Ring head (xs ++ [x]) := by
  obtain ⟨hhead, -⟩ := List.nodup_cons.mp hnodup
  obtain ⟨hxhead, hxs⟩ : x ≠ head ∧ x ∉ xs := by simpa using hx
  rw [hr.pushBack_eq hx]
  constructor
  · have hfwd : Seg (some ∘ Function.update h.next x head)
        (some (Function.update h.next x head head)) xs (some head) := by
      rw [some_comp_update, seg_update hxs, Function.update_of_ne (Ne.symm hxhead)]
      exact hr.1
    exact hfwd.append_ring hnodup hx (Function.update_self ..)
  · rw [List.reverse_append, List.reverse_singleton, List.singleton_append]
    have hbwd := hr.2.push_ring (by simpa using hhead) (x := x) (by simpa using hx)
    have hstart : Function.update (Function.update h.prev x (h.prev head)) head x head = x :=
      Function.update_self ..
    rw [← congrArg some hstart] at hbwd
    exact hbwd

/-- `push_back` leaves the other hooks alone. -/
theorem pushBack_frame (hr : h.Ring head xs) (hx : x ∉ head :: xs) (hyx : y ≠ x)
    (hy : y ∉ head :: xs) :
    (h.pushBack head x).next y = h.next y ∧ (h.pushBack head x).prev y = h.prev y := by
  have hyhead : y ≠ head := by
    rintro rfl
    exact hy List.mem_cons_self
  have hylast : y ≠ xs.getLast?.getD head := by
    rintro rfl
    cases hlast : xs.getLast? with
    | none => exact hy (by simp [hlast])
    | some z =>
      rw [hlast, Option.getD_some] at hy
      exact hy (List.mem_cons_of_mem _ (List.mem_of_getLast? hlast))
  rw [hr.pushBack_eq hx]
  exact ⟨(Function.update_of_ne hylast _ _).trans (Function.update_of_ne hyx _ _),
    (Function.update_of_ne hyhead _ _).trans (Function.update_of_ne hyx _ _)⟩

/-! ## `push_front` -/

omit [DecidableEq α] in
/-- Read the other way round, the links spell out the list backwards. -/
theorem mirror (hr : h.Ring head xs) : (Hooks.mk h.prev h.next).Ring head xs.reverse :=
  ⟨hr.2, by rw [List.reverse_reverse]; exact hr.1⟩

/-- `push_front` is `push_back` read the other way round. -/
theorem pushFront_eq (hr : h.Ring head xs) (hx : x ∉ head :: xs) :
    h.pushFront head x =
      { next := ((Hooks.mk h.prev h.next).pushBack head x).prev
        prev := ((Hooks.mk h.prev h.next).pushBack head x).next } := by
  have hxhead : head ≠ x := by
    rintro rfl
    exact hx List.mem_cons_self
  have hx' : x ∉ head :: xs.reverse := by simpa using hx
  rw [hr.mirror.pushBack_eq hx', List.getLast?_reverse, ← hr.next_head]
  simp only [pushFront, insertAfter, Function.update_of_ne hxhead]

/-- **`push_front`** puts an unlinked hook in front. -/
theorem pushFront (hr : h.Ring head xs) (hnodup : (head :: xs).Nodup) (hx : x ∉ head :: xs) :
    (h.pushFront head x).Ring head (x :: xs) := by
  have hx' : x ∉ head :: xs.reverse := by simpa using hx
  have hnodup' : (head :: xs.reverse).Nodup := by simpa using hnodup
  have hback := (hr.mirror.pushBack hnodup' hx').mirror
  rw [List.reverse_append, List.reverse_reverse, List.reverse_singleton,
    List.singleton_append] at hback
  rw [hr.pushFront_eq hx]
  exact hback

/-- `push_front` leaves the other hooks alone. -/
theorem pushFront_frame (hr : h.Ring head xs) (hx : x ∉ head :: xs) (hyx : y ≠ x)
    (hy : y ∉ head :: xs) :
    (h.pushFront head x).next y = h.next y ∧ (h.pushFront head x).prev y = h.prev y := by
  have hx' : x ∉ head :: xs.reverse := by simpa using hx
  have hy' : y ∉ head :: xs.reverse := by simpa using hy
  rw [hr.pushFront_eq hx]
  exact (hr.mirror.pushBack_frame hx' hyx hy').symm

/-! ## Both links -/

omit [DecidableEq α] in
/-- Going on and back again leads to the same hook. -/
theorem prev_next (hr : h.Ring head xs) (hy : y ∈ head :: xs) : h.prev (h.next y) = y := by
  rcases List.mem_cons.mp hy with rfl | hy
  · rw [hr.next_head]
    cases xs with
    | nil => simpa using hr.prev_head
    | cons x xs =>
      have hfirst := hr
      rw [← List.nil_append (x :: xs)] at hfirst
      simpa using hfirst.links_eq.2
  · obtain ⟨as, bs, rfl⟩ := List.append_of_mem hy
    rw [hr.links_eq.1]
    cases bs with
    | nil => simpa using hr.prev_head
    | cons b bs =>
      rw [← List.singleton_append, ← List.append_assoc] at hr
      simpa using hr.links_eq.2

end Ring

end Hooks

end Memkit
