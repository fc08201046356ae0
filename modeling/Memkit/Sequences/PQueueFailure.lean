import Memkit.Core.CopyCalls
import Memkit.Core.ElementStorage
import Memkit.Sequences.PQueueLedger
import Memkit.Sequences.PQueueOrder

/-! # Pushes and pops that fail

`push` counts the new element, and `pop` drops the last one, before the heap is put in order by
swaps, and a swap may fail: one of its three copies, or every swap of elements that do not fit its
temporary of 256 bytes. Nothing is undone then. A pop also fails when the last element cannot be
copied over the root; it is undone but for what is left in the place of the root.

* **`validateConfig`** — what `init` accepts: elements of any size.
* **`Unchanged`** — size, elements and heap order are as before.
* **`PushAtomic`, `PopAtomic`** — when a call that fails has changed nothing.
* **`failures_keep_iff`** — in every run. -/

namespace Memkit

open CopyCall

variable {w : ℕ} {V : Type*}

namespace PQueue

/-- `pqueue_box::validate_config`. -/
def validateConfig (elemSize : BitVec w) (config : Option (ElementConfig w)) : Status :=
  validateElementConfig elemSize config

/-! ## The condition -/

/-- The copies of a swap of elements that fit the temporary, up to the first that fails. -/
def swapCopies (cfg : PQueueConfig w V) (s : PQueue V) (left right : ℕ) : List CopyCall :=
  let ((toTemp, temp), cells) := s.cells.copyOut cfg.policy left cfg.scratch
  if toTemp ≠ .ok then [.construct toTemp]
  else
    let (toLeft, cells) := cells.copyConstruct cfg.policy left (cells.contents right)
    if toLeft ≠ .ok then [.construct toTemp, .construct toLeft]
    else
      [.construct toTemp, .construct toLeft,
        .construct (cells.copyConstruct cfg.policy right temp).1]

/-- The copies of the loop of `sift_up`. -/
def siftUpCopies (cfg : PQueueConfig w V) : ℕ → PQueue V → ℕ → List CopyCall
  | 0, _, _ => []
  | rounds + 1, s, index =>
    if index = 0 then []
    else
      let parent := (index - 1) / 2
      if cfg.lessThan (s.cells.contents index) (s.cells.contents parent) = false then []
      else
        let (swapSt, t) := swapElements cfg s index parent
        swapCopies cfg s index parent ++
          if swapSt ≠ .ok then [] else siftUpCopies cfg rounds t parent

/-- The copies of the loop of `sift_down`. -/
def siftDownCopies (cfg : PQueueConfig w V) : ℕ → PQueue V → ℕ → List CopyCall
  | 0, _, _ => []
  | rounds + 1, s, index =>
    let smallest := smallest cfg s index
    if smallest = index then []
    else
      let (swapSt, t) := swapElements cfg s index smallest
      swapCopies cfg s index smallest ++
        if swapSt ≠ .ok then [] else siftDownCopies cfg rounds t smallest

/-- The new element at the end can go up: elements that do not fit the temporary have to stay, and
of the others no copy fails. -/
def GoesUp (cfg : PQueueConfig w V) (s : PQueue V) (index : ℕ) : Prop :=
  if 256 < cfg.elemSize then
    index = 0 ∨
      cfg.lessThan (s.cells.contents index) (s.cells.contents ((index - 1) / 2)) = false
  else ConstructsOk (siftUpCopies cfg index s index)

/-- The element in the place of the root can go down. -/
def GoesDown (cfg : PQueueConfig w V) (s : PQueue V) : Prop :=
  if 256 < cfg.elemSize then smallest cfg s 0 = 0
  else ConstructsOk (siftDownCopies cfg s.size s 0)

instance (cfg : PQueueConfig w V) (s : PQueue V) (index : ℕ) : Decidable (GoesUp cfg s index) := by
  unfold GoesUp
  infer_instance

instance (cfg : PQueueConfig w V) (s : PQueue V) : Decidable (GoesDown cfg s) := by
  unfold GoesDown
  infer_instance

/-- A push that fails has changed nothing: it is refused, the value cannot be copied, or the new
element can go up and the push does not fail. -/
def PushAtomic (cfg : PQueueConfig w V) (s : PQueue V) : Option V → Prop
  | none => True
  | some value =>
    full cfg s = true ∨ (appended cfg s value).1 ≠ .ok ∨ GoesUp cfg (appended cfg s value).2 s.size

/-- The copy of the last element over the root that was taken. -/
def rootCopy (cfg : PQueueConfig w V) (t : PQueue V) : Status × Cells ℕ V :=
  t.cells.copyConstruct cfg.policy 0 (t.cells.contents (t.size - 1))

/-- The queue when the last element has moved to the root. -/
def moved (cfg : PQueueConfig w V) (t : PQueue V) : PQueue V where
  size := t.size - 1
  cells :=
    if cfg.needsDestroy then (rootCopy cfg t).2.destroy cfg.policy (t.size - 1)
    else (rootCopy cfg t).2

/-- A pop that fails has changed nothing: the root cannot be copied out, or the last element cannot
be copied over it and leaves there what was there, or it can go down and the pop does not fail. -/
def PopAtomic (cfg : PQueueConfig w V) (s : PQueue V) (out : Option V) : Prop :=
  s.size ≤ 1 ∨ (takeRoot cfg s out).1.1 ≠ .ok ∨
    if (rootCopy cfg (takeRoot cfg s out).2).1 ≠ .ok then
      (rootCopy cfg (takeRoot cfg s out).2).2.contents 0 = s.cells.contents 0
    else GoesDown cfg (moved cfg (takeRoot cfg s out).2)

/-- The size, the multiset of the elements and the heap order are as before. -/
structure Unchanged (cfg : PQueueConfig w V) (s t : PQueue V) : Prop where
  size : t.size = s.size
  items : t.items.Perm s.items
  ordered : Ordered cfg t ↔ Ordered cfg s

variable {cfg : PQueueConfig w V} {s t : PQueue V}

/-- Slots that hold the same below the size. -/
theorem unchanged_of_contents (hsize : t.size = s.size)
    (h : ∀ i < s.size, t.cells.contents i = s.cells.contents i) : Unchanged cfg s t := by
  refine ⟨hsize, ?_, ?_⟩
  · refine List.Perm.of_eq ?_
    rw [items, items, hsize]
    exact BinaryHeap.items_congr h
  · unfold Ordered BinaryHeap.IsHeap
    rw [hsize]
    refine forall_congr' fun i => forall_congr' fun hpos => forall_congr' fun hi => ?_
    have hparent := BinaryHeap.parent_lt hpos
    rw [h i hi, h _ (hparent.trans hi)]

/-- With another root the elements are others. -/
theorem root_of_unchanged (hpos : 0 < s.size)
    (h : ∀ i, 0 < i → t.cells.contents i = s.cells.contents i) (hsame : Unchanged cfg s t) :
    t.cells.contents 0 = s.cells.contents 0 := by
  obtain ⟨n, hn⟩ := Nat.exists_eq_succ_of_ne_zero hpos.ne'
  have hperm := hsame.items
  have htail : BinaryHeap.items (t.cells.contents ∘ Nat.succ) n =
      BinaryHeap.items (s.cells.contents ∘ Nat.succ) n :=
    BinaryHeap.items_congr fun i _ => h (i + 1) (Nat.succ_pos i)
  rw [items, items, hsame.size, hn, BinaryHeap.items_cons, BinaryHeap.items_cons, htail,
    ← Multiset.coe_eq_coe, ← Multiset.cons_coe, ← Multiset.cons_coe] at hperm
  exact (Multiset.cons_inj_left _).mp hperm

/-! ## Swaps and sifts -/

/-- **A swap** of elements that fit the temporary succeeds exactly if its copies do. -/
theorem swapElements_ok_iff (htyped : cfg.typed = false) (hfits : ¬ 256 < cfg.elemSize)
    (s : PQueue V) (left right : ℕ) :
    (swapElements cfg s left right).1 = .ok ↔ ConstructsOk (swapCopies cfg s left right) := by
  rw [swapElements, if_neg (by simp [htyped]), if_neg hfits, swapCopies]
  dsimp only
  split
  · next htemp => exact iff_of_false htemp fun hok => htemp (hok _ (by simp))
  next htemp =>
  rw [not_not] at htemp
  split
  · next hleft => exact iff_of_false hleft fun hok => hleft (hok _ (by simp))
  next hleft =>
  rw [not_not] at hleft
  constructor
  · intro hright st hst
    simp only [List.mem_cons, construct.injEq, List.not_mem_nil, or_false] at hst
    rcases hst with rfl | rfl | rfl
    · exact htemp
    · exact hleft
    · exact hright
  · intro hok
    exact hok _ (by simp)

/-- A swap of elements that do not fit fails. -/
theorem swapElements_large (htyped : cfg.typed = false) (hlarge : 256 < cfg.elemSize)
    (s : PQueue V) (left right : ℕ) : swapElements cfg s left right = (.invalid, s) := by
  rw [swapElements, if_neg (by simp [htyped]), if_pos hlarge]

/-- The loop of `sift_up` succeeds exactly if its copies do. -/
theorem siftUpLoop_ok_iff (htyped : cfg.typed = false) (hfits : ¬ 256 < cfg.elemSize)
    (rounds : ℕ) (s : PQueue V) (index : ℕ) :
    (siftUpLoop cfg rounds s index).1 = .ok ↔ ConstructsOk (siftUpCopies cfg rounds s index) := by
  induction rounds generalizing s index with
  | zero => exact iff_of_true rfl constructsOk_nil
  | succ rounds ih =>
    rw [siftUpLoop, siftUpCopies]
    dsimp only
    split
    · exact iff_of_true rfl constructsOk_nil
    split
    · exact iff_of_true rfl constructsOk_nil
    have hswap := swapElements_ok_iff htyped hfits s index ((index - 1) / 2)
    rw [constructsOk_append, ← hswap]
    by_cases hst : (swapElements cfg s index ((index - 1) / 2)).1 = .ok
    · rw [if_neg (not_not.mpr hst), if_neg (not_not.mpr hst), ih]
      exact (and_iff_right hst).symm
    · rw [if_pos hst]
      exact iff_of_false hst fun h => hst h.1

/-- The loop of `sift_down` succeeds exactly if its copies do. -/
theorem siftDownLoop_ok_iff (htyped : cfg.typed = false) (hfits : ¬ 256 < cfg.elemSize)
    (rounds : ℕ) (s : PQueue V) (index : ℕ) :
    (siftDownLoop cfg rounds s index).1 = .ok ↔
      ConstructsOk (siftDownCopies cfg rounds s index) := by
  induction rounds generalizing s index with
  | zero => exact iff_of_true rfl constructsOk_nil
  | succ rounds ih =>
    rw [siftDownLoop, siftDownCopies]
    dsimp only
    split
    · exact iff_of_true rfl constructsOk_nil
    have hswap := swapElements_ok_iff htyped hfits s index (smallest cfg s index)
    rw [constructsOk_append, ← hswap]
    by_cases hst : (swapElements cfg s index (smallest cfg s index)).1 = .ok
    · rw [if_neg (not_not.mpr hst), if_neg (not_not.mpr hst), ih]
      exact (and_iff_right hst).symm
    · rw [if_pos hst]
      exact iff_of_false hst fun h => hst h.1

/-- **`sift_up`** of a new element. -/
theorem siftUp_ok_iff (htyped : cfg.typed = false) (s : PQueue V) (index : ℕ) :
    (siftUp cfg s index).1 = .ok ↔ GoesUp cfg s index := by
  unfold GoesUp siftUp
  by_cases hlarge : 256 < cfg.elemSize
  · rw [if_pos hlarge]
    cases index with
    | zero => exact iff_of_true rfl (.inl rfl)
    | succ i =>
      rw [siftUpLoop, if_neg (Nat.succ_ne_zero i)]
      dsimp only
      split
      · next hless => exact iff_of_true rfl (.inr hless)
      · next hless =>
        rw [swapElements_large htyped hlarge]
        exact iff_of_false (by rintro ⟨⟩) (not_or.mpr ⟨Nat.succ_ne_zero i, hless⟩)
  · rw [if_neg hlarge]
    exact siftUpLoop_ok_iff htyped hlarge index s index

/-- **`sift_down`** of the element in the place of the root. -/
theorem siftDown_ok_iff (htyped : cfg.typed = false) (hpos : 0 < s.size) :
    (siftDown cfg s 0).1 = .ok ↔ GoesDown cfg s := by
  unfold GoesDown siftDown
  rw [Nat.sub_zero]
  by_cases hlarge : 256 < cfg.elemSize
  · rw [if_pos hlarge]
    obtain ⟨n, hn⟩ := Nat.exists_eq_succ_of_ne_zero hpos.ne'
    rw [hn, siftDownLoop]
    dsimp only
    split
    · next hstays => exact iff_of_true rfl hstays
    · next hmoves =>
      rw [swapElements_large htyped hlarge]
      exact iff_of_false (by rintro ⟨⟩) hmoves
  · rw [if_neg hlarge]
    exact siftDownLoop_ok_iff htyped hlarge s.size s 0

/-- A swap keeps the size, -/
theorem size_swapElements (cfg : PQueueConfig w V) (s : PQueue V) (left right : ℕ) :
    (swapElements cfg s left right).2.size = s.size := by
  unfold swapElements
  repeat' split
  all_goals rfl

/-- so does sifting up, -/
theorem size_siftUpLoop (cfg : PQueueConfig w V) (rounds : ℕ) (s : PQueue V) (index : ℕ) :
    (siftUpLoop cfg rounds s index).2.size = s.size := by
  induction rounds generalizing s index with
  | zero => rfl
  | succ rounds ih =>
    rw [siftUpLoop]
    dsimp only
    split
    · rfl
    split
    · rfl
    split
    · exact size_swapElements cfg s _ _
    · exact (ih _ _).trans (size_swapElements cfg s _ _)

/-- and sifting down. -/
theorem size_siftDownLoop (cfg : PQueueConfig w V) (rounds : ℕ) (s : PQueue V) (index : ℕ) :
    (siftDownLoop cfg rounds s index).2.size = s.size := by
  induction rounds generalizing s index with
  | zero => rfl
  | succ rounds ih =>
    rw [siftDownLoop]
    dsimp only
    split
    · rfl
    split
    · exact size_swapElements cfg s _ _
    · exact (ih _ _).trans (size_swapElements cfg s _ _)

/-! ## Push and pop -/

/-- **`push`** in two steps. -/
theorem push_eq (cfg : PQueueConfig w V) (s : PQueue V) (value : V) (hroom : ¬ full cfg s = true) :
    push cfg s (some value) =
      if (appended cfg s value).1 ≠ .ok then
        ((appended cfg s value).1, { (appended cfg s value).2 with size := s.size })
      else siftUp cfg (appended cfg s value).2 s.size := by
  rw [push, if_neg hroom]
  rfl

/-- **A push that fails** has changed nothing exactly under its condition. -/
theorem push_keeps_iff (htyped : cfg.typed = false) (s : PQueue V) (value : Option V) :
    ((push cfg s value).1 ≠ .ok → Unchanged cfg s (push cfg s value).2) ↔
      PushAtomic cfg s value := by
  have hself : Unchanged cfg s s := unchanged_of_contents rfl fun _ _ => rfl
  cases value with
  | none => exact iff_of_true (fun _ => hself) trivial
  | some value =>
    unfold PushAtomic
    by_cases hfull : full cfg s = true
    · refine iff_of_true (fun _ => ?_) (.inl hfull)
      rw [push, if_pos hfull]
      exact hself
    rw [push_eq cfg s value hfull]
    by_cases hcopy : (appended cfg s value).1 = .ok
    · rw [if_neg (not_not.mpr hcopy)]
      have hup := siftUp_ok_iff htyped (appended cfg s value).2 s.size
      by_cases hok : (siftUp cfg (appended cfg s value).2 s.size).1 = .ok
      · exact iff_of_true (fun hnot => absurd hok hnot) (.inr (.inr (hup.mp hok)))
      · -- the element was counted
        apply iff_of_false
        · intro hkeeps
          have hsize := (hkeeps hok).size
          rw [siftUp, size_siftUpLoop] at hsize
          exact absurd hsize (Nat.succ_ne_self s.size)
        · rintro (hnot | hnot | hgoes)
          · exact hfull hnot
          · exact hnot hcopy
          · exact hok (hup.mpr hgoes)
    · rw [if_pos hcopy]
      refine iff_of_true (fun _ => unchanged_of_contents rfl fun i hi => ?_) (.inr (.inl hcopy))
      exact Function.update_of_ne hi.ne _ _

/-- What is done to the root before the last element takes its place. -/
theorem takeRoot_frame (cfg : PQueueConfig w V) (s : PQueue V) (out : Option V) :
    (takeRoot cfg s out).2.size = s.size ∧
      (∀ i, 0 < i → (takeRoot cfg s out).2.cells.contents i = s.cells.contents i) ∧
      ((takeRoot cfg s out).1.1 ≠ .ok →
        (takeRoot cfg s out).2.cells.contents = s.cells.contents) := by
  cases out with
  | some out => exact ⟨rfl, fun _ _ => rfl, fun _ => rfl⟩
  | none =>
    unfold takeRoot
    dsimp only
    split
    · exact ⟨rfl, fun i hi => Function.update_of_ne hi.ne' _ _, fun hnot => absurd rfl hnot⟩
    · exact ⟨rfl, fun _ _ => rfl, fun _ => rfl⟩

/-- **`pop`** of one of several elements, in three steps. -/
theorem pop_eq (cfg : PQueueConfig w V) (s : PQueue V) (out : Option V) (hmany : 1 < s.size) :
    pop cfg s out =
      if (takeRoot cfg s out).1.1 ≠ .ok then takeRoot cfg s out
      else if (rootCopy cfg (takeRoot cfg s out).2).1 ≠ .ok then
        (((rootCopy cfg (takeRoot cfg s out).2).1, (takeRoot cfg s out).1.2),
          { size := s.size, cells := (rootCopy cfg (takeRoot cfg s out).2).2 })
      else
        (((siftDown cfg (moved cfg (takeRoot cfg s out).2) 0).1, (takeRoot cfg s out).1.2),
          (siftDown cfg (moved cfg (takeRoot cfg s out).2) 0).2) := by
  have hsize := (takeRoot_frame cfg s out).1
  have hrest : ¬ (takeRoot cfg s out).2.size - 1 = 0 := by omega
  have hback : s.size - 1 + 1 = s.size := by omega
  rw [pop, if_neg (by omega)]
  dsimp only
  by_cases htake : (takeRoot cfg s out).1.1 ≠ .ok
  · rw [if_pos htake, if_pos htake]
  rw [if_neg htake, if_neg htake, if_neg hrest]
  unfold rootCopy moved
  split
  · rw [hsize, hback]
  · by_cases hneeds : cfg.needsDestroy = true
    · simp only [if_pos hneeds]
      rfl
    · simp only [if_neg hneeds]
      rfl

/-- **A pop that fails** has changed nothing exactly under its condition. -/
theorem pop_keeps_iff (htyped : cfg.typed = false) (s : PQueue V) (out : Option V) :
    ((pop cfg s out).1.1 ≠ .ok → Unchanged cfg s (pop cfg s out).2) ↔ PopAtomic cfg s out := by
  obtain ⟨hsize, hothers, hkept⟩ := takeRoot_frame cfg s out
  have htaken : (takeRoot cfg s out).1.1 ≠ .ok → Unchanged cfg s (takeRoot cfg s out).2 :=
    fun hst => unchanged_of_contents hsize fun i _ => congrFun (hkept hst) i
  unfold PopAtomic
  -- only a pop that leaves elements moves any of them
  by_cases hmany : 1 < s.size
  · rw [pop_eq cfg s out hmany]
    by_cases htake : (takeRoot cfg s out).1.1 = .ok
    · rw [if_neg (not_not.mpr htake)]
      by_cases hcopy : (rootCopy cfg (takeRoot cfg s out).2).1 = .ok
      · rw [if_neg (not_not.mpr hcopy), if_neg (not_not.mpr hcopy)]
        have hpos : 0 < (moved cfg (takeRoot cfg s out).2).size := by
          show 0 < (takeRoot cfg s out).2.size - 1
          omega
        have hdown := siftDown_ok_iff htyped hpos
        by_cases hok : (siftDown cfg (moved cfg (takeRoot cfg s out).2) 0).1 = .ok
        · exact iff_of_true (fun hnot => absurd hok hnot) (.inr (.inr (hdown.mp hok)))
        · -- the last element was dropped
          apply iff_of_false
          · intro hkeeps
            have hless := (hkeeps hok).size
            dsimp only at hless
            rw [siftDown, size_siftDownLoop] at hless
            have hdropped : (takeRoot cfg s out).2.size - 1 = s.size := hless
            omega
          · rintro (hnot | hnot | hgoes)
            · omega
            · exact hnot htake
            · exact hok (hdown.mpr hgoes)
      · -- the size is put back; the root may hold something else
        rw [if_pos hcopy, if_pos hcopy]
        have hrest : ∀ i, 0 < i → (rootCopy cfg (takeRoot cfg s out).2).2.contents i =
            s.cells.contents i :=
          fun i hi => (Function.update_of_ne hi.ne' _ _).trans (hothers i hi)
        constructor
        · intro hkeeps
          exact .inr (.inr (root_of_unchanged (show 0 < s.size by omega) hrest (hkeeps hcopy)))
        · rintro (hnot | hnot | hroot) -
          · omega
          · exact absurd htake hnot
          · refine unchanged_of_contents rfl fun i _ => ?_
            rcases Nat.eq_zero_or_pos i with rfl | hi
            · exact hroot
            · exact hrest i hi
    · -- the element was not handed out, and the heap was not touched
      rw [if_pos htake]
      exact iff_of_true htaken (.inr (.inl htake))
  · refine iff_of_true (fun hst => ?_) (.inl (by omega))
    unfold pop at hst ⊢
    by_cases hzero : s.size = 0
    · rw [if_pos hzero]
      exact unchanged_of_contents rfl fun _ _ => rfl
    · rw [if_neg hzero] at hst ⊢
      dsimp only at hst ⊢
      by_cases htake : (takeRoot cfg s out).1.1 = .ok
      · rw [if_neg (not_not.mpr htake), if_pos (by omega)] at hst
        exact absurd rfl hst
      · rw [if_pos htake]
        exact htaken htake

/-- **When a failed push or pop has changed nothing**, after any calls, for elements of any size,
any comparator, and whatever the copies do. -/
theorem failures_keep_iff (cfg : PQueueConfig w V) (htyped : cfg.typed = false) (memory : ℕ → V)
    (calls : List (Call V)) (s : PQueue V)
    (hrun : Mealy.final (PQueue.call cfg) (init memory) calls = s) :
    (∀ value, ((push cfg s value).1 ≠ .ok → Unchanged cfg s (push cfg s value).2) ↔
        PushAtomic cfg s value) ∧
      ∀ out, ((pop cfg s out).1.1 ≠ .ok → Unchanged cfg s (pop cfg s out).2) ↔
        PopAtomic cfg s out := by
  subst hrun
  exact ⟨fun value => push_keeps_iff htyped _ value, fun out => pop_keeps_iff htyped _ out⟩

/-- Three slots of 300 bytes, in storage of the caller. -/
def wideConfig : ElementConfig 16 where
  capacity := 3
  storage := some 0
  storageBytes := 900
  arena := none
  flags := .cleared

/-- A larger element stays at the end, and a fourth is refused. -/
theorem failures_keep_iff_wide :
    (push bigQueue (Mealy.final (PQueue.call bigQueue) (init fun _ => 0)
        [.push (some 3), .push (some 5), .push (some 4)]) (some 1)).1 = .full ∧
      Unchanged bigQueue
        (Mealy.final (PQueue.call bigQueue) (init fun _ => 0)
          [.push (some 3), .push (some 5), .push (some 4)])
        (push bigQueue (Mealy.final (PQueue.call bigQueue) (init fun _ => 0)
          [.push (some 3), .push (some 5), .push (some 4)]) (some 1)).2 := by
  refine ⟨by decide, ((failures_keep_iff bigQueue rfl (fun _ => 0) _ _ rfl).1 (some 1)).mpr
    (.inl (by decide)) (by decide)⟩

/-- `init` accepts elements of 300 bytes; a push of a smaller one fails and has been counted all the
same, and the order of the heap is gone. -/
theorem failed_push_counts :
    validateConfig 300 (some wideConfig) = .ok ∧
      (push bigQueue (Mealy.final (PQueue.call bigQueue) (init fun _ => 0) [.push (some 5)])
        (some 3)).1 = .invalid ∧
      ¬ Unchanged bigQueue
        (Mealy.final (PQueue.call bigQueue) (init fun _ => 0) [.push (some 5)])
        (push bigQueue (Mealy.final (PQueue.call bigQueue) (init fun _ => 0) [.push (some 5)])
          (some 3)).2 := by
  refine ⟨by decide, by decide, fun hsame => ?_⟩
  exact absurd hsame.size (by decide)

end PQueue

end Memkit
