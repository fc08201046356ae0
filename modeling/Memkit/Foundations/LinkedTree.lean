import Mathlib.Data.Tree.Basic
import Mathlib.Tactic

/-! # Linked trees

Binary trees of nodes as a function: a link is the root or one of the two links of a node, and
`mem k` is what the link `k` holds, `none` for a null pointer. `Spells mem k t` says that the tree
found by following the links from `k` is `t`.

`Focus` says where in a tree the subtree is that a change is about, and which nodes come before and
behind it in order.

* **`Spells`** — the links spell out a tree.
* **`Focus.replace`** — changing a subtree changes the nodes in order there only.
* **`Focus.addLeaf`, `Focus.takeOut`** — a new leaf, and taking out a node with at most one subtree.
* **`locate_focus`, `leftmost_focus`** — where a search and a walk to the left end. -/

namespace LinkedTree

variable {α : Type*}

/-- Where a pointer to a node is stored. -/
inductive Link (α : Type*)
  | root
  | left (node : α)
  | right (node : α)
  deriving DecidableEq, Repr

/-- The node that a link is a part of. -/
def Link.owner : Link α → Option α
  | .root => none
  | .left node => some node
  | .right node => some node

/-- The nodes from left to right. -/
def inorder : BinaryTree α → List α
  | .nil => []
  | .node a tl tr => inorder tl ++ a :: inorder tr

/-- Following the links from `k` finds the tree. -/
def Spells (mem : Link α → Option α) : Link α → BinaryTree α → Prop
  | k, .nil => mem k = none
  | k, .node a tl tr => mem k = some a ∧ Spells mem (.left a) tl ∧ Spells mem (.right a) tr

variable {mem mem' : Link α → Option α} {k k' k₀ : Link α} {t tl tr sub sub' : BinaryTree α} {a : α}
  {as bs cs ds : List α}

@[simp] theorem inorder_nil : inorder (.nil : BinaryTree α) = [] := rfl

@[simp] theorem inorder_node : inorder (.node a tl tr) = inorder tl ++ a :: inorder tr := rfl

theorem length_inorder (t : BinaryTree α) : (inorder t).length = t.numNodes := by
  induction t with
  | nil => rfl
  | node a tl tr ihl ihr =>
    simp only [inorder_node, List.length_append, List.length_cons, ihl, ihr, BinaryTree.numNodes]
    omega

theorem height_le (t : BinaryTree α) : t.height ≤ (inorder t).length := by
  rw [length_inorder]
  exact t.height_le_numNodes

/-- The root is null exactly in the empty tree. -/
theorem Spells.eq_none_iff (h : Spells mem k t) : mem k = none ↔ t = .nil := by
  cases t with
  | nil => exact iff_of_true h rfl
  | node a tl tr => simp [h.1]

/-- **Frame rule**: only what its first link holds and the links of its nodes matter to a tree. -/
theorem Spells.congr (h : Spells mem k t) (hstart : mem' k' = mem k)
    (hnodes : ∀ l a, l.owner = some a → a ∈ inorder t → mem' l = mem l) : Spells mem' k' t := by
  induction t generalizing k k' with
  | nil => exact hstart.trans h
  | node a tl tr ihl ihr =>
    obtain ⟨hroot, hl, hr⟩ := h
    have ha : a ∈ inorder (.node a tl tr) := by simp
    refine ⟨hstart.trans hroot, ihl hl (hnodes _ a rfl ha) ?_, ihr hr (hnodes _ a rfl ha) ?_⟩
    · exact fun l b hl hb => hnodes l b hl (by simp [hb])
    · exact fun l b hl hb => hnodes l b hl (by simp [hb])

/-! ## Changing a subtree -/

/-- The tree `t` at `k₀` has the subtree `sub` at `k`; before it are the nodes `as`, and behind it
the nodes `bs`. -/
inductive Focus : Link α → BinaryTree α → Link α → BinaryTree α → List α → List α → Prop
  | here (k : Link α) (t : BinaryTree α) : Focus k t k t [] []
  | left {k₀ k : Link α} {a : α} {tl tr sub : BinaryTree α} {as bs : List α} :
      Focus (.left a) tl k sub as bs → Focus k₀ (.node a tl tr) k sub as (bs ++ a :: inorder tr)
  | right {k₀ k : Link α} {a : α} {tl tr sub : BinaryTree α} {as bs : List α} :
      Focus (.right a) tr k sub as bs → Focus k₀ (.node a tl tr) k sub (inorder tl ++ a :: as) bs

theorem Focus.inorder_eq (h : Focus k₀ t k sub as bs) : inorder t = as ++ inorder sub ++ bs := by
  induction h with
  | here k t => simp
  | left _ ih => simp [ih]
  | right _ ih => simp [ih]

/-- The subtree is spelled out from its link. -/
theorem Focus.spells (h : Focus k₀ t k sub as bs) (hspells : Spells mem k₀ t) :
    Spells mem k sub := by
  induction h with
  | here k t => exact hspells
  | left _ ih => exact ih hspells.2.1
  | right _ ih => exact ih hspells.2.2

/-- The link of the subtree is the one of the tree, or one of a node of the tree. -/
theorem Focus.owner (h : Focus k₀ t k sub as bs) :
    k = k₀ ∨ ∃ a ∈ as ++ bs, k.owner = some a := by
  induction h with
  | here k t => exact .inl rfl
  | left _ ih =>
    refine .inr ?_
    rcases ih with rfl | ⟨b, hb, howner⟩
    · exact ⟨_, by simp, rfl⟩
    · refine ⟨b, ?_, howner⟩
      simp only [List.mem_append, List.mem_cons] at hb ⊢
      tauto
  | right _ ih =>
    refine .inr ?_
    rcases ih with rfl | ⟨b, hb, howner⟩
    · exact ⟨_, by simp, rfl⟩
    · refine ⟨b, ?_, howner⟩
      simp only [List.mem_append, List.mem_cons] at hb ⊢
      tauto

/-- A link that is neither the first one nor of a node outside of the subtree is not the link of the
subtree. -/
theorem Focus.ne (h : Focus k₀ t k sub as bs) {l : Link α} (hstart : l ≠ k₀)
    (hout : ∀ a ∈ as ++ bs, l.owner ≠ some a) : l ≠ k := by
  rintro rfl
  rcases h.owner with heq | ⟨a, ha, howner⟩
  · exact hstart heq
  · exact hout a ha howner

/-- A subtree of a subtree. -/
theorem Focus.trans {k₁ : Link α} (h : Focus k₀ t k₁ tl as bs) (h' : Focus k₁ tl k sub cs ds) :
    Focus k₀ t k sub (as ++ cs) (ds ++ bs) := by
  induction h with
  | here k t => simpa using h'
  | @left k₀ k₁ a tl tr _ as bs _ ih =>
    rw [← List.append_assoc]
    exact .left (ih h')
  | @right k₀ k₁ a tl tr _ as bs _ ih =>
    rw [List.append_assoc, List.cons_append]
    exact .right (ih h')

/-- **Changing a subtree** changes the nodes in order there only. -/
theorem Focus.replace (h : Focus k₀ t k sub as bs) (hspells : Spells mem k₀ t)
    (hsub : Spells mem' k sub') (hnodup : (as ++ bs).Nodup)
    (hstart : ∀ a ∈ as ++ bs, k₀.owner ≠ some a)
    (hframe : ∀ l, l ≠ k → (l = k₀ ∨ ∃ a ∈ as ++ bs, l.owner = some a) → mem' l = mem l) :
    ∃ t', Spells mem' k₀ t' ∧ inorder t' = as ++ inorder sub' ++ bs := by
  induction h with
  | here k t => exact ⟨sub', hsub, by simp⟩
  | @left k₀ k a tl tr sub as bs hfocus ih =>
    obtain ⟨hroot, hl, hr⟩ := hspells
    rw [← List.append_assoc, List.nodup_append] at hnodup
    obtain ⟨hnodup, hnodupr, hdisj⟩ := hnodup
    -- the nodes around the place below are among those around the place in the whole tree
    have hmem : ∀ b, b ∈ as ++ bs → b ∈ as ++ (bs ++ a :: inorder tr) := by
      intro b hb
      rw [← List.append_assoc]
      exact List.mem_append_left _ hb
    have ha : ∀ b ∈ as ++ bs, (Link.left a).owner ≠ some b := fun b hb heq =>
      hdisj b hb a List.mem_cons_self (Option.some.inj heq).symm
    -- the link into the left subtree is the node's own, so the frame of the whole gives that of the
    -- part
    obtain ⟨t', hspells', hinorder⟩ := ih hl hsub hnodup ha fun l hne hl' => hframe l hne (by
      rcases hl' with rfl | ⟨b, hb, heq⟩
      · exact .inr ⟨a, by simp, rfl⟩
      · exact .inr ⟨b, hmem b hb, heq⟩)
    refine ⟨.node a t' tr, ⟨?_, hspells', hr.congr ?_ ?_⟩, ?_⟩
    · -- the first link
      rw [hframe k₀ (hfocus.ne ?_ fun b hb => hstart b (hmem b hb)) (.inl rfl), hroot]
      rintro rfl
      exact hstart a (by simp) rfl
    · -- the other link of the node
      exact hframe _ (hfocus.ne (by simp) ha) (.inr ⟨a, by simp, rfl⟩)
    · -- the links of the right subtree
      intro l b hb hmemb
      have hne : ∀ c ∈ as ++ bs, l.owner ≠ some c := fun c hc heq =>
        hdisj c hc b (List.mem_cons_of_mem a hmemb) (Option.some.inj (heq.symm.trans hb))
      refine hframe l (hfocus.ne ?_ hne) (.inr ⟨b, by simp [hmemb], hb⟩)
      rintro rfl
      exact (List.nodup_cons.mp hnodupr).1 (Option.some.inj hb ▸ hmemb)
    · simp [hinorder]
  | @right k₀ k a tl tr sub as bs hfocus ih =>
    obtain ⟨hroot, hl, hr⟩ := hspells
    rw [List.append_assoc, List.cons_append, List.nodup_append] at hnodup
    obtain ⟨-, hnodupr, hdisj⟩ := hnodup
    obtain ⟨hnotMem, hnodup⟩ := List.nodup_cons.mp hnodupr
    have hmem : ∀ b, b ∈ as ++ bs → b ∈ inorder tl ++ a :: as ++ bs := by
      intro b hb
      rw [List.append_assoc, List.cons_append]
      exact List.mem_append_right _ (List.mem_cons_of_mem a hb)
    have ha : ∀ b ∈ as ++ bs, (Link.right a).owner ≠ some b := fun b hb heq =>
      hnotMem (Option.some.inj heq ▸ hb)
    -- on the right the node itself stands before the place
    obtain ⟨t', hspells', hinorder⟩ := ih hr hsub hnodup ha fun l hne hl' => hframe l hne (by
      rcases hl' with rfl | ⟨b, hb, heq⟩
      · exact .inr ⟨a, by simp, rfl⟩
      · exact .inr ⟨b, hmem b hb, heq⟩)
    refine ⟨.node a tl t', ⟨?_, hl.congr ?_ ?_, hspells'⟩, ?_⟩
    · -- the first link
      rw [hframe k₀ (hfocus.ne ?_ fun b hb => hstart b (hmem b hb)) (.inl rfl), hroot]
      rintro rfl
      exact hstart a (by simp) rfl
    · -- the other link of the node
      exact hframe _ (hfocus.ne (by simp) ha) (.inr ⟨a, by simp, rfl⟩)
    · -- the links of the left subtree
      intro l b hb hmemb
      have hne : ∀ c ∈ as ++ bs, l.owner ≠ some c := fun c hc heq =>
        hdisj b hmemb c (List.mem_cons_of_mem a hc) (Option.some.inj (hb.symm.trans heq))
      refine hframe l (hfocus.ne ?_ hne) (.inr ⟨b, by simp [hmemb], hb⟩)
      rintro rfl
      exact hdisj b hmemb a List.mem_cons_self (Option.some.inj hb).symm
    · simp [hinorder]

/-! ## Adding a leaf and taking out a node -/

/-- **A new leaf** in the place of an empty subtree. -/
theorem Focus.addLeaf (h : Focus .root t k .nil as bs) (hspells : Spells mem .root t)
    (hnodup : (inorder t).Nodup) (ha : a ∉ inorder t) (hlink : mem' k = some a)
    (hleft : mem' (.left a) = none) (hright : mem' (.right a) = none)
    (hframe : ∀ l, l ≠ k → l.owner ≠ some a → mem' l = mem l) :
    ∃ t', Spells mem' .root t' ∧ inorder t' = as ++ a :: bs := by
  have hinorder := h.inorder_eq
  rw [inorder_nil, List.append_nil] at hinorder
  rw [hinorder] at hnodup ha
  have hsub : Spells mem' k (.node a .nil .nil) := ⟨hlink, hleft, hright⟩
  obtain ⟨t', hspells', heq⟩ := h.replace hspells hsub hnodup
    (fun b _ => by simp [Link.owner]) fun l hne hl => hframe l hne (by
      rcases hl with rfl | ⟨b, hb, howner⟩
      · simp [Link.owner]
      · rw [howner]
        rintro heq
        exact ha (Option.some.inj heq ▸ hb))
  exact ⟨t', hspells', by simpa using heq⟩

/-- **Taking out** a node with at most one subtree, which takes its place. -/
theorem Focus.takeOut (h : Focus .root t k (.node a tl tr) as bs) (hspells : Spells mem .root t)
    (hnodup : (inorder t).Nodup)
    (hsub : (tl = .nil ∧ sub = tr ∧ mem' k = mem (.right a)) ∨
      (tr = .nil ∧ sub = tl ∧ mem' k = mem (.left a)))
    (hframe : ∀ l, l ≠ k → mem' l = mem l) :
    ∃ t', Spells mem' .root t' ∧ inorder t' = as ++ inorder sub ++ bs := by
  have hinorder := h.inorder_eq
  obtain ⟨-, hl, hr⟩ := h.spells hspells
  have hperm : (inorder t).Perm ((inorder tl ++ a :: inorder tr) ++ (as ++ bs)) := by
    rw [hinorder, inorder_node, List.append_assoc]
    exact List.perm_append_comm_assoc _ _ _
  have hdisj := List.disjoint_of_nodup_append (hperm.nodup_iff.mp hnodup)
  -- the links of the subtrees are not the one that is written
  have hkeep : ∀ l b, l.owner = some b → b ∈ inorder tl ++ a :: inorder tr → mem' l = mem l := by
    refine fun l b hb hmem => hframe l (h.ne ?_ fun c hc heq => ?_)
    · rintro rfl
      cases hb
    · rw [hb] at heq
      exact hdisj hmem (Option.some.inj heq ▸ hc)
  refine h.replace hspells ?_ ?_ (fun b _ => by simp [Link.owner]) fun l hne _ => hframe l hne
  · rcases hsub with ⟨-, rfl, hlink⟩ | ⟨-, rfl, hlink⟩
    · exact hr.congr hlink fun l b hb hmem => hkeep l b hb (by simp [hmem])
    · exact hl.congr hlink fun l b hb hmem => hkeep l b hb (by simp [hmem])
  · exact (List.nodup_append.mp (hperm.nodup_iff.mp hnodup)).2.1

/-! ## Where walks end -/

section Walks

variable {dir : α → ℤ}

/-- Where a search ends that goes left at a node where `dir` is negative and right where it is
positive: the link, and the subtree there. -/
def locate (dir : α → ℤ) : Link α → BinaryTree α → Link α × BinaryTree α
  | k, .nil => (k, .nil)
  | k, .node a tl tr =>
    if dir a = 0 then (k, .node a tl tr)
    else if dir a < 0 then locate dir (.left a) tl
    else locate dir (.right a) tr

/-- Only what `dir` says of the nodes matters to a search. -/
theorem locate_congr {dir' : α → ℤ} (h : ∀ a ∈ inorder t, dir a = dir' a) (k : Link α) :
    locate dir k t = locate dir' k t := by
  induction t generalizing k with
  | nil => rfl
  | node a tl tr ihl ihr =>
    rw [locate, locate, h a (by simp), ihl fun b hb => h b (by simp [hb]),
      ihr fun b hb => h b (by simp [hb])]

/-- **A search** ends at a node where `dir` is zero, or at a null link. -/
theorem locate_ends (dir : α → ℤ) (t : BinaryTree α) (k : Link α) :
    ∃ as bs, Focus k t (locate dir k t).1 (locate dir k t).2 as bs ∧
      ((locate dir k t).2 = .nil ∨
        ∃ a tl tr, (locate dir k t).2 = .node a tl tr ∧ dir a = 0) := by
  induction t generalizing k with
  | nil => exact ⟨[], [], .here k .nil, .inl rfl⟩
  | node a tl tr ihl ihr =>
    unfold locate
    by_cases hzero : dir a = 0
    · rw [if_pos hzero]
      exact ⟨[], [], .here k _, .inr ⟨a, tl, tr, rfl, hzero⟩⟩
    by_cases hneg : dir a < 0
    · rw [if_neg hzero, if_pos hneg]
      obtain ⟨as, bs, hfocus, hend⟩ := ihl (.left a)
      exact ⟨as, bs ++ a :: inorder tr, .left hfocus, hend⟩
    · rw [if_neg hzero, if_neg hneg]
      obtain ⟨as, bs, hfocus, hend⟩ := ihr (.right a)
      exact ⟨inorder tl ++ a :: as, bs, .right hfocus, hend⟩

/-- **A recursion along the search** that does `G` at a link where the search may end does `G` where
it ends, if it has a round for every level. -/
theorem Spells.search {β : Type*} {F : ℕ → Link α → β} {G : Link α → β} {rounds : ℕ}
    (hnull : ∀ n k, mem k = none → F n k = G k)
    (hfound : ∀ n k a, mem k = some a → dir a = 0 → F (n + 1) k = G k)
    (hturn : ∀ n k a, mem k = some a → dir a ≠ 0 →
      F (n + 1) k = F n (if dir a < 0 then .left a else .right a))
    (h : Spells mem k t) (hrounds : t.height ≤ rounds) : F rounds k = G (locate dir k t).1 := by
  induction t generalizing k rounds with
  | nil => exact hnull rounds k h
  | node a tl tr ihl ihr =>
    obtain ⟨hroot, hl, hr⟩ := h
    rw [BinaryTree.height] at hrounds
    cases rounds with
    | zero => cases hrounds
    | succ n =>
      have hmax := max_le_iff.mp (Nat.le_of_succ_le_succ hrounds)
      unfold locate
      by_cases hzero : dir a = 0
      · rw [if_pos hzero]
        exact hfound n k a hroot hzero
      rw [hturn n k a hroot hzero, if_neg hzero]
      by_cases hneg : dir a < 0
      · rw [if_pos hneg, if_pos hneg]
        exact ihl hl hmax.1
      · rw [if_neg hneg, if_neg hneg]
        exact ihr hr hmax.2

/-- Along the nodes in order `dir` goes from positive to negative, with at most one zero. -/
def Graded (dir : α → ℤ) (as : List α) : Prop := as.Pairwise fun a b => dir a ≤ 0 → dir b < 0

/-- **A search** in a graded tree ends at the node where `dir` is zero, or at the null link where
that node would be. -/
theorem locate_focus (h : Graded dir (inorder t)) (k : Link α) :
    ∃ as bs, Focus k t (locate dir k t).1 (locate dir k t).2 as bs ∧
      (∀ a ∈ as, 0 < dir a) ∧ (∀ b ∈ bs, dir b < 0) ∧
      ((locate dir k t).2 = .nil ∨
        ∃ a tl tr, (locate dir k t).2 = .node a tl tr ∧ dir a = 0 ∧
          (∀ b ∈ inorder tl, 0 < dir b) ∧ ∀ b ∈ inorder tr, dir b < 0) := by
  induction t generalizing k with
  | nil => exact ⟨[], [], .here k .nil, by simp, by simp, .inl rfl⟩
  | node a tl tr ihl ihr =>
    rw [Graded, inorder_node, List.pairwise_append, List.pairwise_cons] at h
    obtain ⟨hl, ⟨har, hr⟩, hlr⟩ := h
    have hpos : 0 ≤ dir a → ∀ b ∈ inorder tl, 0 < dir b := fun hle b hb => by
      by_contra hneg
      exact absurd (hlr b hb a List.mem_cons_self (not_lt.mp hneg)) (not_lt.mpr hle)
    unfold locate
    by_cases hzero : dir a = 0
    · rw [if_pos hzero]
      exact ⟨[], [], .here k _, by simp, by simp,
        .inr ⟨a, tl, tr, rfl, hzero, hpos hzero.ge, fun b hb => har b hb hzero.le⟩⟩
    by_cases hneg : dir a < 0
    · rw [if_neg hzero, if_pos hneg]
      obtain ⟨as, bs, hfocus, has, hbs, hend⟩ := ihl hl (.left a)
      refine ⟨as, bs ++ a :: inorder tr, .left hfocus, has, fun b hb => ?_, hend⟩
      rcases List.mem_append.mp hb with hb | hb
      · exact hbs b hb
      · rcases List.mem_cons.mp hb with rfl | hb
        · exact hneg
        · exact har b hb hneg.le
    · rw [if_neg hzero, if_neg hneg]
      have hgt : 0 < dir a := by omega
      obtain ⟨as, bs, hfocus, has, hbs, hend⟩ := ihr hr (.right a)
      refine ⟨inorder tl ++ a :: as, bs, .right hfocus, fun b hb => ?_, hbs, hend⟩
      rcases List.mem_append.mp hb with hb | hb
      · exact hpos hgt.le b hb
      · rcases List.mem_cons.mp hb with rfl | hb
        · exact hgt
        · exact has b hb

/-- Where a walk along the left links ends: the link of the last node, that node and its right
subtree. -/
def leftmost : Link α → α → BinaryTree α → BinaryTree α → Link α × α × BinaryTree α
  | k, a, .nil, tr => (k, a, tr)
  | _, a, .node b tl tr, _ => leftmost (.left a) b tl tr

/-- **A walk to the left** ends at the first node in order. -/
theorem leftmost_focus (k : Link α) (a : α) (tl tr : BinaryTree α) :
    ∃ bs, Focus k (.node a tl tr) (leftmost k a tl tr).1
      (.node (leftmost k a tl tr).2.1 .nil (leftmost k a tl tr).2.2) [] bs := by
  induction tl generalizing k a tr with
  | nil => exact ⟨[], .here k _⟩
  | node b tl' tr' ih _ =>
    obtain ⟨bs, hfocus⟩ := ih (.left a) b tr'
    exact ⟨bs ++ a :: inorder tr, .left hfocus⟩

end Walks

end LinkedTree
