import Mathlib.Tactic

/-! # Linked chains

Singly linked structure as a function: `next x` is the link stored in node `x`, `none` for a null
pointer. `Seg next p xs q` says that following `next` from the link `p` meets exactly the nodes
`xs`, in order, and then finds the link `q`. A null-terminated list is a segment that ends in
`none`; a circular list through a sentinel `h` is a segment that ends in `some h`; a doubly linked
list is one segment along each of two links, over a list and its reverse.

The lemmas say how segments compose, what a write to one node leaves alone, and what the usual
pointer surgery (push, unlink, append) does to the list of nodes. -/

namespace LinkedChain

variable {α : Type*}

/-- Following `next` from `p` meets exactly `xs` and then finds `q`. -/
def Seg (next : α → Option α) : Option α → List α → Option α → Prop
  | p, [], q => p = q
  | p, x :: xs, q => p = some x ∧ Seg next (next x) xs q

variable {next next' : α → Option α} {p q r : Option α} {x y : α} {xs ys zs : List α}

@[simp] theorem seg_nil : Seg next p [] q ↔ p = q := Iff.rfl

@[simp] theorem seg_cons : Seg next p (x :: xs) q ↔ p = some x ∧ Seg next (next x) xs q := Iff.rfl

/-- Segments compose. -/
theorem seg_append : Seg next p (xs ++ ys) r ↔ ∃ q, Seg next p xs q ∧ Seg next q ys r := by
  induction xs generalizing p with
  | nil => simp
  | cons x xs ih =>
    simp only [List.cons_append, seg_cons, ih]
    constructor
    · rintro ⟨hp, q, hxs, hys⟩
      exact ⟨q, ⟨hp, hxs⟩, hys⟩
    · rintro ⟨q, ⟨hp, hxs⟩, hys⟩
      exact ⟨hp, q, hxs, hys⟩

/-- Only the links of the nodes met matter. -/
theorem seg_congr (h : ∀ x ∈ xs, next x = next' x) : Seg next p xs q ↔ Seg next' p xs q := by
  induction xs generalizing p with
  | nil => exact Iff.rfl
  | cons x xs ih =>
    rw [seg_cons, seg_cons, h x List.mem_cons_self,
      ih fun y hy => h y (List.mem_cons_of_mem x hy)]

/-- **Frame rule**: writing a link of another node leaves a segment alone. -/
theorem seg_update [DecidableEq α] (hx : x ∉ xs) (v : Option α) :
    Seg (Function.update next x v) p xs q ↔ Seg next p xs q := by
  apply seg_congr
  intro y hy
  apply Function.update_of_ne
  rintro rfl
  exact hx hy

/-- The first link of a segment. -/
theorem Seg.start_eq (h : Seg next p xs q) : p = xs.head?.or q := by
  cases xs with
  | nil => simpa using h
  | cons x xs => simpa using h.1

/-- The link stored in a node of a segment. -/
theorem Seg.next_eq (h : Seg next p (xs ++ x :: ys) q) : next x = ys.head?.or q := by
  obtain ⟨-, -, -, hrest⟩ := seg_append.mp h
  exact hrest.start_eq

/-- A null-terminated segment is determined by its start. -/
theorem Seg.unique (hxs : Seg next p xs none) (hys : Seg next p ys none) : xs = ys := by
  induction xs generalizing p ys with
  | nil =>
    obtain rfl : p = none := hxs
    cases ys with
    | nil => rfl
    | cons y ys => cases hys.1
  | cons x xs ih =>
    obtain ⟨rfl, hxs⟩ := hxs
    cases ys with
    | nil => cases hys
    | cons y ys =>
      obtain ⟨hy, hys⟩ := hys
      obtain rfl : x = y := Option.some.inj hy
      rw [ih hxs hys]

/-- The first `n` nodes met from a link. -/
def trail (next : α → Option α) : ℕ → Option α → List α
  | 0, _ => []
  | _ + 1, none => []
  | n + 1, some x => x :: trail next n (next x)

/-- Enough rounds meet all the nodes of a null-terminated segment. -/
theorem Seg.trail_eq (h : Seg next p xs none) {n : ℕ} (hn : xs.length ≤ n) :
    trail next n p = xs := by
  induction xs generalizing p n with
  | nil =>
    obtain rfl : p = none := h
    cases n <;> rfl
  | cons x xs ih =>
    obtain ⟨rfl, hrest⟩ := h
    cases n with
    | zero => cases hn
    | succ n =>
      rw [trail, ih hrest (Nat.le_of_succ_le_succ hn)]

/-- Following `n` links of a segment. -/
theorem Seg.iterate_eq (h : Seg next p (xs ++ ys) none) :
    (fun o : Option α => o.bind next)^[xs.length] p = ys.head? := by
  induction xs generalizing p with
  | nil =>
    rw [show p = ys.head? by simpa using h.start_eq]
    rfl
  | cons x xs ih =>
    obtain ⟨rfl, hrest⟩ := h
    rw [List.length_cons, Function.iterate_succ_apply]
    exact ih hrest

/-- The last node of a list is in it. -/
theorem getLast?_ne (hx : x ∉ xs) : xs.getLast? ≠ some x := by
  intro h
  exact hx (List.mem_of_getLast? h)

variable [DecidableEq α]

/-- Pushing a new node in front. -/
theorem Seg.push (h : Seg next p xs q) (hx : x ∉ xs) :
    Seg (Function.update next x p) (some x) (x :: xs) q := by
  refine ⟨rfl, ?_⟩
  rw [Function.update_self, seg_update hx]
  exact h

/-- Unlinking a later node: its link is copied to the node before it. -/
theorem Seg.unlink_after (h : Seg next p (xs ++ y :: x :: ys) q)
    (hnodup : (xs ++ y :: x :: ys).Nodup) :
    Seg (Function.update next y (next x)) p (xs ++ y :: ys) q := by
  obtain ⟨r, hxs, rfl, hx, hys⟩ := seg_append.mp h
  obtain ⟨-, hrest, hdisj⟩ := List.nodup_append.mp hnodup
  have hy : y ∉ ys := fun hmem => (List.nodup_cons.mp hrest).1 (List.mem_cons_of_mem x hmem)
  have hyxs : y ∉ xs := fun hmem => hdisj y hmem y List.mem_cons_self rfl
  refine seg_append.mpr ⟨some y, (seg_update hyxs _).mpr hxs, rfl, ?_⟩
  rw [Function.update_self, seg_update hy]
  exact hys

/-- Appending a node to a non-empty segment: it is linked from the last node. -/
theorem Seg.append_after (h : Seg next p (xs ++ [y]) q) (hnodup : (xs ++ [y]).Nodup) (hxy : x ≠ y)
    (hx : next x = q) : Seg (Function.update next y (some x)) p (xs ++ [y] ++ [x]) q := by
  obtain ⟨r, hxs, rfl, -⟩ := seg_append.mp h
  have hyxs : y ∉ xs := by
    intro hmem
    exact (List.nodup_append.mp hnodup).2.2 y hmem y (List.mem_singleton_self y) rfl
  rw [List.append_assoc]
  refine seg_append.mpr ⟨some y, (seg_update hyxs _).mpr hxs, rfl, Function.update_self .., ?_⟩
  show Function.update next y (some x) x = q
  rw [Function.update_of_ne hxy]
  exact hx

/-! ## Surgery at a place given by the node before it

Code that keeps a pointer to the node before the place (null for none) writes that node's link or
else the start of the list. -/

/-- Write the link of the node before the place, if there is one. -/
def setNext (next : α → Option α) : Option α → Option α → α → Option α
  | some y, v => Function.update next y v
  | none, _ => next

/-- Write the start of the list, if there is no node before the place. -/
def setStart (p : Option α) : Option α → Option α → Option α
  | some _, _ => p
  | none, v => v

/-- Writing the link before the place leaves other nodes alone. -/
theorem setNext_of_ne {o : Option α} (v : Option α) (hx : o ≠ some x) :
    setNext next o v x = next x := by
  cases o with
  | none => rfl
  | some y =>
    apply Function.update_of_ne
    rintro rfl
    exact hx rfl

/-- **Unlinking** a node anywhere in a segment. -/
theorem Seg.unlink (h : Seg next p (xs ++ x :: ys) q) (hnodup : (xs ++ x :: ys).Nodup) :
    Seg (setNext next xs.getLast? (next x)) (setStart p xs.getLast? (next x)) (xs ++ ys) q := by
  rcases List.eq_nil_or_concat xs with rfl | ⟨zs, y, rfl⟩
  · exact h.2
  · rw [List.concat_eq_append, List.append_assoc, List.singleton_append] at h hnodup
    rw [List.concat_eq_append, List.getLast?_concat, List.append_assoc, List.singleton_append]
    exact h.unlink_after hnodup

/-- **Inserting** a node that is linked to the rest already. -/
theorem Seg.insert (h : Seg next p (xs ++ ys) q) (hnodup : (xs ++ ys).Nodup) (hmem : x ∉ xs ++ ys)
    (hx : next x = ys.head?.or q) :
    Seg (setNext next xs.getLast? (some x)) (setStart p xs.getLast? (some x)) (xs ++ x :: ys) q := by
  rcases List.eq_nil_or_concat xs with rfl | ⟨zs, y, rfl⟩
  · rw [List.nil_append] at h
    refine ⟨rfl, ?_⟩
    show Seg next (next x) ys q
    rw [hx, ← h.start_eq]
    exact h
  · rw [List.concat_eq_append] at h hnodup hmem ⊢
    rw [List.getLast?_concat]
    rw [List.append_assoc, List.singleton_append] at h hnodup ⊢
    obtain ⟨r, hzs, rfl, hys⟩ := seg_append.mp h
    obtain ⟨-, hrest, hdisj⟩ := List.nodup_append.mp hnodup
    have hyx : x ≠ y := by
      rintro rfl
      exact hmem (by simp)
    have hyys : y ∉ ys := (List.nodup_cons.mp hrest).1
    have hyzs : y ∉ zs := fun hy => hdisj y hy y List.mem_cons_self rfl
    refine seg_append.mpr ⟨some y, (seg_update hyzs _).mpr hzs, rfl, Function.update_self .., ?_⟩
    show Seg (Function.update next y (some x)) (Function.update next y (some x) x) ys q
    rw [Function.update_of_ne hyx, seg_update hyys, hx, ← hys.start_eq]
    exact hys

/-- **Appending** a node to a segment. -/
theorem Seg.append_node (h : Seg next p xs q) (hnodup : xs.Nodup) (hmem : x ∉ xs)
    (hx : next x = q) :
    Seg (setNext next xs.getLast? (some x)) (setStart p xs.getLast? (some x)) (xs ++ [x]) q := by
  rcases List.eq_nil_or_concat xs with rfl | ⟨zs, y, rfl⟩
  · exact ⟨rfl, hx⟩
  · rw [List.concat_eq_append] at h hnodup hmem ⊢
    rw [List.getLast?_concat]
    refine h.append_after hnodup ?_ hx
    rintro rfl
    exact hmem (by simp)

/-! ## Circular lists through a sentinel

The links are never null: an empty list is a sentinel linked to itself, and the sentinel's own link
is the start of the list. The node before a place is the sentinel at the start. -/

/-- Writing a link of a circular list. -/
theorem some_comp_update (next : α → α) (x v : α) :
    some ∘ Function.update next x v = Function.update (some ∘ next) x (some v) :=
  Function.comp_update ..

/-- **Unlinking** a node of a circular list. -/
theorem Seg.unlink_ring {next : α → α} {head : α}
    (h : Seg (some ∘ next) (some (next head)) (xs ++ x :: ys) (some head))
    (hnodup : (head :: (xs ++ x :: ys)).Nodup) :
    Seg (some ∘ Function.update next (xs.getLast?.getD head) (next x))
      (some (Function.update next (xs.getLast?.getD head) (next x) head)) (xs ++ ys)
      (some head) := by
  obtain ⟨hhead, hnodup⟩ := List.nodup_cons.mp hnodup
  rw [some_comp_update]
  rcases List.eq_nil_or_concat xs with rfl | ⟨zs, y, rfl⟩
  · have hout : head ∉ ys := fun hmem => hhead (List.mem_cons_of_mem x hmem)
    simp only [List.getLast?_nil, Option.getD_none, Function.update_self, List.nil_append]
    exact (seg_update hout _).mpr h.2
  · have hne : head ≠ y := by
      rintro rfl
      exact hhead (by simp)
    rw [List.concat_eq_append, List.append_assoc, List.singleton_append] at h hnodup
    rw [List.concat_eq_append, List.getLast?_concat, Option.getD_some, Function.update_of_ne hne,
      List.append_assoc, List.singleton_append]
    exact h.unlink_after hnodup

/-- **Appending** a node to a circular list. -/
theorem Seg.append_ring {next : α → α} {head : α}
    (h : Seg (some ∘ next) (some (next head)) xs (some head)) (hnodup : (head :: xs).Nodup)
    (hx : x ∉ head :: xs) (hnext : next x = head) :
    Seg (some ∘ Function.update next (xs.getLast?.getD head) x)
      (some (Function.update next (xs.getLast?.getD head) x head)) (xs ++ [x]) (some head) := by
  obtain ⟨hhead, hnodup⟩ := List.nodup_cons.mp hnodup
  obtain ⟨hxhead, hxs⟩ : x ≠ head ∧ x ∉ xs := by simpa using hx
  rw [some_comp_update]
  rcases List.eq_nil_or_concat xs with rfl | ⟨zs, y, rfl⟩
  · simp only [List.getLast?_nil, Option.getD_none, Function.update_self, List.nil_append]
    refine ⟨rfl, ?_⟩
    rw [Function.update_of_ne hxhead]
    exact congrArg some hnext
  · have hne : head ≠ y := by
      rintro rfl
      exact hhead (by simp)
    rw [List.concat_eq_append] at h hnodup hxs ⊢
    rw [List.getLast?_concat, Option.getD_some, Function.update_of_ne hne]
    refine h.append_after hnodup ?_ (congrArg some hnext)
    rintro rfl
    exact hxs (by simp)

/-- **Pushing** a node in front of a circular list. -/
theorem Seg.push_ring {next : α → α} {head : α}
    (h : Seg (some ∘ next) (some (next head)) xs (some head)) (hhead : head ∉ xs)
    (hx : x ∉ head :: xs) :
    Seg (some ∘ Function.update (Function.update next x (next head)) head x) (some x) (x :: xs)
      (some head) := by
  obtain ⟨hxhead, hxs⟩ : x ≠ head ∧ x ∉ xs := by simpa using hx
  have hout : head ∉ x :: xs := by simpa [hxhead.symm] using hhead
  rw [some_comp_update, some_comp_update, seg_update hout]
  exact h.push hxs

end LinkedChain
