import Memkit.Sequences.PQueue

/-! # The objects of the priority queue

The heap is kept in order by swaps, and a swap overwrites both elements in place. So every slot is
constructed only when it holds no object, and destroyed only when it holds one, as long as no
element has to be swapped and no pop hands an element out by a copy.

* **`Clean`** — the calls of which this is true.
* **`Balanced.call`** — they keep the objects those of the slots below `size`. -/

namespace Memkit

namespace PQueue

variable {w : ℕ} {V : Type*} {cfg : PQueueConfig w V} {s t : PQueue V}

/-- The slots that hold an object are those of the elements. -/
def Balanced (s : PQueue V) : Prop := s.cells.ledger.Holds {i | i < s.size}

/-! ## Calls that overwrite nothing -/

/-- A swap of the element in a slot gives up before it writes to a slot. -/
def SwapGivesUp (cfg : PQueueConfig w V) (s : PQueue V) (slot : ℕ) : Prop :=
  256 < cfg.elemSize ∨
    (cfg.policy.copyConstruct s.cells.copies cfg.scratch (s.cells.contents slot)).1 ≠ .ok

/-- The queue with a copy of `value` behind the last element, if the copy is ok. -/
def appended (cfg : PQueueConfig w V) (s : PQueue V) (value : V) : Status × PQueue V :=
  let (copySt, cells) := s.cells.copyConstruct cfg.policy s.size value
  (copySt, { cells := cells, size := s.size + 1 })

/-- The queue with the last element in the place of the root, if the copy is ok. -/
def refilled (cfg : PQueueConfig w V) (s : PQueue V) : Status × PQueue V :=
  let cells := s.cells.destroy cfg.policy 0
  let (moveSt, cells) := cells.copyConstruct cfg.policy 0 (cells.contents (s.size - 1))
  (moveSt, { cells := cells.destroy cfg.policy (s.size - 1), size := s.size - 1 })

/-- An element pushed stays where it is put, or its swap gives up; a pop does not hand the root
out; and the element that takes the place of a root destroyed is copied there, and stays there
or its swap gives up. -/
def Clean (cfg : PQueueConfig w V) (s : PQueue V) : Call V → Prop
  | .push (some value) =>
    full cfg s = true ∨ (appended cfg s value).1 ≠ .ok ∨ s.size = 0 ∨
      cfg.lessThan ((appended cfg s value).2.cells.contents s.size)
        ((appended cfg s value).2.cells.contents ((s.size - 1) / 2)) = false ∨
      SwapGivesUp cfg (appended cfg s value).2 s.size
  | .pop (some out) => s.size = 0 ∨ ¬ s.cells.HandedOut cfg.policy 0 (some out)
  | .pop none =>
    s.size ≤ 1 ∨
      ((refilled cfg s).1 = .ok ∧
        (smallest cfg (refilled cfg s).2 0 = 0 ∨ SwapGivesUp cfg (refilled cfg s).2 0))
  | _ => True

instance (cfg : PQueueConfig w V) (s : PQueue V) (slot : ℕ) :
    Decidable (SwapGivesUp cfg s slot) :=
  inferInstanceAs (Decidable (_ ∨ _))

instance (cfg : PQueueConfig w V) (s : PQueue V) : ∀ c, Decidable (Clean cfg s c)
  | .push (some _) | .pop (some _) | .pop none => inferInstanceAs (Decidable (_ ∨ _))
  | .push none | .peek _ | .clear => inferInstanceAs (Decidable True)

/-! ## Sifting that moves nothing -/

/-- The slots and their objects are as they were. -/
structure SameObjects (s t : PQueue V) : Prop where
  size : t.size = s.size
  ledger : t.cells.ledger = s.cells.ledger

theorem SameObjects.balanced (h : SameObjects s t) (hbalanced : Balanced s) : Balanced t := by
  rw [Balanced, h.size, h.ledger]
  exact hbalanced

/-- A swap that gives up. -/
theorem swapElements_of_givesUp (htyped : cfg.typed = false) {left : ℕ}
    (h : SwapGivesUp cfg s left) (right : ℕ) :
    (swapElements cfg s left right).1 ≠ .ok ∧ SameObjects s (swapElements cfg s left right).2 := by
  rw [swapElements, if_neg (by simp [htyped])]
  by_cases hlarge : 256 < cfg.elemSize
  · rw [if_pos hlarge]
    exact ⟨by simp, rfl, rfl⟩
  · have hfails : (s.cells.copyOut cfg.policy left cfg.scratch).1.1 ≠ .ok := h.resolve_left hlarge
    rw [if_neg hlarge]
    simp only [if_pos hfails]
    exact ⟨hfails, rfl, rfl⟩

/-- `sift_up` of an element in its place, or with a first swap that gives up. -/
theorem siftUp_quiet (htyped : cfg.typed = false) {index : ℕ}
    (h : index = 0 ∨
      cfg.lessThan (s.cells.contents index) (s.cells.contents ((index - 1) / 2)) = false ∨
      SwapGivesUp cfg s index) :
    SameObjects s (siftUp cfg s index).2 := by
  rw [siftUp]
  cases index with
  | zero => exact ⟨rfl, rfl⟩
  | succ i =>
    rw [siftUpLoop, if_neg (Nat.succ_ne_zero i)]
    by_cases hless : cfg.lessThan (s.cells.contents (i + 1))
        (s.cells.contents ((i + 1 - 1) / 2)) = false
    · simp only [if_pos hless]
      exact ⟨rfl, rfl⟩
    · have hgives := (h.resolve_left (Nat.succ_ne_zero i)).resolve_left hless
      obtain ⟨hswap, hsame⟩ := swapElements_of_givesUp htyped hgives ((i + 1 - 1) / 2)
      simp only [if_neg hless, if_pos hswap]
      exact hsame

/-- `sift_down` of a root in its place, or with a first swap that gives up. -/
theorem siftDown_quiet (htyped : cfg.typed = false)
    (h : smallest cfg s 0 = 0 ∨ SwapGivesUp cfg s 0) : SameObjects s (siftDown cfg s 0).2 := by
  rw [siftDown]
  cases s.size - 0 with
  | zero => exact ⟨rfl, rfl⟩
  | succ rounds =>
    rw [siftDownLoop]
    by_cases hsmallest : smallest cfg s 0 = 0
    · simp only [if_pos hsmallest]
      exact ⟨rfl, rfl⟩
    · obtain ⟨hswap, hsame⟩ :=
        swapElements_of_givesUp htyped (h.resolve_left hsmallest) (smallest cfg s 0)
      simp only [if_neg hsmallest, if_pos hswap]
      exact hsame

/-! ## The calls -/

/-- The slots below one more. -/
theorem setOf_lt_succ (n : ℕ) : {i | i < n + 1} = insert n {i | i < n} := by
  ext i
  simp only [Set.mem_ofPred_eq, Set.mem_insert_iff]
  omega

theorem notMem_setOf_lt (n : ℕ) : n ∉ {i | i < n} := by simp

/-- **`push`** constructs behind the last element. -/
theorem Balanced.push (h : Balanced s) (htyped : cfg.typed = false) (value : Option V)
    (hclean : Clean cfg s (.push value)) : Balanced (push cfg s value).2 := by
  cases value with
  | none => exact h
  | some value =>
    rw [PQueue.push]
    by_cases hfull : full cfg s = true
    · simp only [if_pos hfull]
      exact h
    rw [if_neg hfull]
    have hcopied := Cells.copied cfg.policy s.cells s.size value
    by_cases hok : (s.cells.copyConstruct cfg.policy s.size value).1 ≠ .ok
    · simp only [if_pos hok]
      exact hcopied.failed hok _ h (notMem_setOf_lt _)
    · have hquiet := (hclean.resolve_left hfull).resolve_left hok
      simp only [if_neg hok]
      refine (siftUp_quiet htyped hquiet).balanced ?_
      show Ledger.Holds _ {i | i < s.size + 1}
      rw [setOf_lt_succ]
      exact hcopied.constructed (not_not.mp hok) _ h (notMem_setOf_lt _)

/-- The objects once the root is destroyed and the last element took its place. -/
theorem Balanced.refilled (h : Balanced s) (hsize : 1 < s.size)
    (hok : (refilled cfg s).1 = .ok) : Balanced (PQueue.refilled cfg s).2 := by
  have hroot : (s.cells.destroy cfg.policy 0).ledger.Holds ({i | i < s.size} \ {0}) :=
    h.destroy (show 0 < s.size by omega)
  have hmoved := (Cells.copied cfg.policy (s.cells.destroy cfg.policy 0) 0
    ((s.cells.destroy cfg.policy 0).contents (s.size - 1))).constructed hok _ hroot (by simp)
  have hlast := hmoved.destroy (a := s.size - 1) (.inr ⟨show s.size - 1 < s.size by omega,
    show s.size - 1 ≠ 0 by omega⟩)
  have hset : {i | i < s.size - 1} = insert 0 ({i | i < s.size} \ {0}) \ {s.size - 1} := by
    ext i
    simp only [Set.mem_ofPred_eq, Set.mem_sdiff, Set.mem_insert_iff, Set.mem_singleton_iff]
    omega
  show Ledger.Holds _ {i | i < s.size - 1}
  rw [hset]
  exact hlast

/-- **`pop`** destroys the root if there is no pointer to copy it to. -/
theorem Balanced.pop (h : Balanced s) (htyped : cfg.typed = false)
    (hneeds : cfg.needsDestroy = true) (out : Option V) (hclean : Clean cfg s (.pop out)) :
    Balanced (pop cfg s out).2 := by
  rw [PQueue.pop]
  by_cases hsize : s.size = 0
  · rw [if_pos hsize]
    exact h
  rw [if_neg hsize]
  cases out with
  | some out =>
    have hfails : (s.cells.copyOut cfg.policy 0 out).1.1 ≠ .ok :=
      fun hok => hclean.resolve_left hsize ⟨out, rfl, hok⟩
    show Balanced (if (s.cells.copyOut cfg.policy 0 out).1.1 ≠ Status.ok then _ else _ :
      (Status × Option V) × PQueue V).2
    rw [if_pos hfails]
    exact h
  | none =>
    simp only [takeRoot, if_pos hneeds, ne_eq, not_true_eq_false, if_false]
    by_cases hone : s.size - 1 = 0
    · -- the root was the only element
      simp only [if_pos hone]
      have hroot : (s.cells.destroy cfg.policy 0).ledger.Holds ({i | i < s.size} \ {0}) :=
        h.destroy (show 0 < s.size by omega)
      have hset : {i | i < s.size - 1} = {i | i < s.size} \ {0} := by
        ext i
        simp only [Set.mem_ofPred_eq, Set.mem_sdiff, Set.mem_singleton_iff]
        omega
      show Ledger.Holds _ {i | i < s.size - 1}
      rw [hset]
      exact hroot
    · obtain ⟨hok, hquiet⟩ := hclean.resolve_left (by omega)
      have hrefilled := h.refilled (by omega) hok
      have hmove : (((s.cells.destroy cfg.policy 0).copyConstruct cfg.policy 0
          ((s.cells.destroy cfg.policy 0).contents (s.size - 1))).1 = .ok) := hok
      simp only [if_neg hone, hmove, not_true_eq_false, if_false]
      exact (siftDown_quiet htyped hquiet).balanced hrefilled

/-- The loop of `clear`. -/
theorem destroyAll_holds (policy : ElementPolicy V) (c : Cells ℕ V) (n : ℕ) {slots : Set ℕ}
    (h : c.ledger.Holds slots) (hsub : ∀ i < n, i ∈ slots) :
    ((List.range n).foldl (fun c i => c.destroy policy i) c).ledger.Holds
      (slots \ {i | i < n}) := by
  induction n with
  | zero => simpa using h
  | succ n ih =>
    have hrest := ih fun i hi => hsub i (Nat.lt_succ_of_lt hi)
    rw [List.range_succ, List.foldl_append]
    have hlast := hrest.destroy (a := n) ⟨hsub n (Nat.lt_succ_self n), notMem_setOf_lt n⟩
    have hset : slots \ {i | i < n + 1} = (slots \ {i | i < n}) \ {n} := by
      rw [setOf_lt_succ]
      ext i
      simp only [Set.mem_sdiff, Set.mem_insert_iff, Set.mem_singleton_iff]
      tauto
    rw [hset]
    exact hlast

/-- **`clear`** destroys all elements. -/
theorem Balanced.clear (h : Balanced s) (hneeds : cfg.needsDestroy = true) :
    (clear cfg s).cells.ledger.Holds ∅ := by
  rw [PQueue.clear, if_pos hneeds]
  have hall := destroyAll_holds cfg.policy s.cells s.size h fun i hi => hi
  rwa [Set.sdiff_self] at hall

/-- **Every clean call** keeps the objects those of the slots below `size`. -/
theorem Balanced.call (h : Balanced s) (htyped : cfg.typed = false)
    (hneeds : cfg.needsDestroy = true) (c : Call V) (hclean : Clean cfg s c) :
    Balanced (call cfg s c).2 := by
  cases c with
  | push value => exact h.push htyped value hclean
  | pop out => exact h.pop htyped hneeds out hclean
  | peek out => exact h
  | clear =>
    have hempty : {i : ℕ | i < 0} = ∅ := by simp
    show Ledger.Holds _ {i | i < 0}
    rw [hempty]
    exact h.clear hneeds

theorem balanced_init (memory : ℕ → V) : Balanced (init memory) := by
  have hempty : {i : ℕ | i < 0} = ∅ := by simp
  show (Ledger.empty ℕ).Holds {i | i < 0}
  rw [hempty]
  exact Ledger.holds_empty

end PQueue

end Memkit
