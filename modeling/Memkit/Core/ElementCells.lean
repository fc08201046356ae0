import Memkit.Core.ElementPolicy
import Memkit.Foundations.ObjectLedger

/-! # Element storage

The element slots of a container, handled through `runtime_element_policy`: their contents, and the
ledger of the objects in them. An operation of the policy on a slot inside the container is
recorded in the ledger; a copy to memory of the caller is not.

* **`Cells`** — the slots.
* **`copyConstruct`, `copyAssign`, `copyOut`, `destroy`** — the operations of the policy on them.
* **`write`, `memcpy`** — what is done to their bytes directly.
* **`copySlots`** — the copies of a loop that stops at the first that fails. -/

namespace Memkit

variable {α V : Type*}

/-- Element slots, with the number of copy callbacks called so far. -/
structure Cells (α V : Type*) where
  contents : α → V
  copies : ℕ
  ledger : Ledger α

namespace Cells

/-- Slots with any contents and no objects. -/
def start (memory : α → V) : Cells α V := ⟨memory, 0, .empty α⟩

/-- `copy_construct` from a slot to memory of the caller, which holds `out` before. -/
def copyOut (policy : ElementPolicy V) (c : Cells α V) (src : α) (out : V) :
    (Status × V) × Cells α V :=
  (policy.copyConstruct c.copies out (c.contents src), { c with copies := c.copies + 1 })

/-- There is a pointer to copy the element in a slot to, and the copy is ok. -/
def HandedOut (policy : ElementPolicy V) (c : Cells α V) (slot : α) (out : Option V) : Prop :=
  ∃ value, out = some value ∧ (c.copyOut policy slot value).1.1 = .ok

instance (policy : ElementPolicy V) (c : Cells α V) (slot : α) :
    ∀ out, Decidable (c.HandedOut policy slot out)
  | none => isFalse fun ⟨_, hnone, _⟩ => by cases hnone
  | some value =>
    decidable_of_iff ((c.copyOut policy slot value).1.1 = .ok)
      ⟨fun hok => ⟨value, rfl, hok⟩, fun ⟨_, hsome, hok⟩ => Option.some.inj hsome ▸ hok⟩

variable [DecidableEq α]

/-- `copy_construct` to a slot. -/
def copyConstruct (policy : ElementPolicy V) (c : Cells α V) (dst : α) (src : V) :
    Status × Cells α V :=
  let (st, value) := policy.copyConstruct c.copies (c.contents dst) src
  (st,
    { contents := Function.update c.contents dst value
      copies := c.copies + 1
      ledger := c.ledger.construct dst (st = .ok) })

/-- `copy_assign` to a slot: the status of the copy is dropped. -/
def copyAssign (policy : ElementPolicy V) (c : Cells α V) (dst : α) (src : V) : Cells α V :=
  { c with
    contents := Function.update c.contents dst (policy.copyAssign c.copies (c.contents dst) src)
    copies := c.copies + 1 }

/-- `destroy` of the element in a slot. -/
def destroy (policy : ElementPolicy V) (c : Cells α V) (slot : α) : Cells α V :=
  { c with
    contents := Function.update c.contents slot (policy.destroy (c.contents slot))
    ledger := c.ledger.destroy slot }

/-- Write the bytes of an element to a slot. -/
def write (c : Cells α V) (dst : α) (src : V) : Cells α V :=
  { c with contents := Function.update c.contents dst src }

/-- Construct an element in a slot by a constructor that cannot fail. -/
def place (c : Cells α V) (dst : α) (src : V) : Cells α V :=
  { c with contents := Function.update c.contents dst src, ledger := c.ledger.construct dst true }

/-- `memcpy` of an element from a slot that is given up to another. -/
def memcpy (c : Cells α V) (dst src : α) : Cells α V :=
  { c with
    contents := Function.update c.contents dst (c.contents src)
    ledger := c.ledger.relocate src dst }

/-- Copies from the slots `src i` to the slots `dst i`, until one fails. -/
def copySlots {ι : Type*} (policy : ElementPolicy V) (dst src : ι → α) :
    List ι → Cells α V → Status × Cells α V
  | [], c => (.ok, c)
  | i :: is, c =>
    let (st, c) := c.copyConstruct policy (dst i) (c.contents (src i))
    if st ≠ .ok then (st, c) else copySlots policy dst src is c

/-! ## Copies that do not fail -/

variable {policy : ElementPolicy V} {c : Cells α V} {dst src slot : α} {v out : V}

/-- A copy to a slot that does not fail. -/
theorem copyConstruct_of_nonFailing (h : policy.NonFailing) (c : Cells α V) (dst : α) (src : V) :
    c.copyConstruct policy dst src =
      (.ok,
        { contents := Function.update c.contents dst src
          copies := c.copies + 1
          ledger := c.ledger.construct dst true }) := by
  rw [copyConstruct, h.copyConstruct]
  rfl

omit [DecidableEq α] in
/-- A copy to the caller that does not fail. -/
theorem copyOut_of_nonFailing (h : policy.NonFailing) (c : Cells α V) (src : α) (out : V) :
    c.copyOut policy src out = ((.ok, c.contents src), { c with copies := c.copies + 1 }) := by
  rw [copyOut, h.copyConstruct]

/-! ## Copies that may fail -/

/-- What a copy to slot `dst` with status `st` does. -/
structure Copied (policy : ElementPolicy V) (c c' : Cells α V) (dst : α) (src : V)
    (st : Status) : Prop where
  frame : ∀ a, a ≠ dst → c'.contents a = c.contents a
  value : st = .ok → policy.Faithful → c'.contents dst = src
  ok_of_nonFailing : policy.NonFailing → st = .ok
  constructed : st = .ok → ∀ slots : Set α, c.ledger.Holds slots → dst ∉ slots →
    c'.ledger.Holds (insert dst slots)
  failed : st ≠ .ok → ∀ slots : Set α, c.ledger.Holds slots → dst ∉ slots → c'.ledger.Holds slots

/-- **`copy_construct`** to a slot changes that slot only, and begins an object there if it is
ok. -/
theorem copied (policy : ElementPolicy V) (c : Cells α V) (dst : α) (src : V) :
    Copied policy c (c.copyConstruct policy dst src).2 dst src
      (c.copyConstruct policy dst src).1 where
  frame a ha := Function.update_of_ne ha _ _
  value hok hfaithful := by
    show Function.update c.contents dst _ dst = src
    rw [Function.update_self]
    exact hfaithful _ _ _ hok
  ok_of_nonFailing h := by rw [copyConstruct_of_nonFailing h]
  constructed hok slots hholds hdst := by
    show (c.ledger.construct dst (decide ((c.copyConstruct policy dst src).1 = .ok))).Holds _
    rw [decide_eq_true hok]
    exact hholds.construct hdst
  failed hok slots hholds hdst := by
    show (c.ledger.construct dst (decide ((c.copyConstruct policy dst src).1 = .ok))).Holds _
    rw [decide_eq_false hok]
    exact hholds.construct_fail hdst

/-! ## Reading and overwriting -/

section Contents

variable {f : α → V} {xs : List α} {a : α}

/-- Overwriting a slot that is not read. -/
theorem map_update_of_notMem (ha : a ∉ xs) (v : V) : xs.map (Function.update f a v) = xs.map f := by
  apply List.map_congr_left
  intro b hb
  apply Function.update_of_ne
  rintro rfl
  exact ha hb

/-- Overwriting the `i`-th slot read. -/
theorem map_update_getElem (hxs : xs.Nodup) {i : ℕ} (hi : i < xs.length) (v : V) :
    xs.map (Function.update f xs[i] v) = (xs.map f).set i v := by
  rw [hxs.map_update, if_pos (List.getElem_mem hi), hxs.idxOf_getElem i]

end Contents

/-! ## Destroying only if there is need -/

/-- `if (policy.needs_destroy_on_clear()) policy.destroy(slot)`. -/
def destroyIf (needsDestroy : Bool) (policy : ElementPolicy V) (c : Cells α V) (slot : α) : Cells α V :=
  if needsDestroy then c.destroy policy slot else c

/-- Destroying leaves the other slots alone. -/
theorem destroyIf_of_ne {needsDestroy : Bool} {a : α} (ha : a ≠ slot) :
    (c.destroyIf needsDestroy policy slot).contents a = c.contents a := by
  unfold destroyIf
  cases needsDestroy
  · rfl
  · exact Function.update_of_ne ha _ _

/-- Destroying a slot that is not read. -/
theorem map_destroyIf_of_notMem {needsDestroy : Bool} {xs : List α} (hslot : slot ∉ xs) :
    xs.map (c.destroyIf needsDestroy policy slot).contents = xs.map c.contents := by
  apply List.map_congr_left
  rintro a ha
  apply destroyIf_of_ne
  rintro rfl
  exact hslot ha

/-- If there is need, an object ends. -/
theorem ledger_destroyIf {needsDestroy : Bool} (hneeds : needsDestroy = true) :
    (c.destroyIf needsDestroy policy slot).ledger = c.ledger.destroy slot := by
  rw [destroyIf, if_pos hneeds]
  rfl

/-! ## Moving many elements -/

variable {ι : Type*} {dst src : ι → α} {is : List ι} {slots : Set α}

/-- **Frame rule**: moves leave the slots they do not write alone. -/
theorem foldl_memcpy_of_notMem (c : Cells α V) {a : α} (ha : a ∉ is.map dst) :
    (is.foldl (fun c i => c.memcpy (dst i) (src i)) c).contents a = c.contents a := by
  induction is generalizing c with
  | nil => rfl
  | cons i is ih =>
    rw [List.map_cons, List.mem_cons, not_or] at ha
    rw [List.foldl_cons, ih _ ha.2]
    exact Function.update_of_ne ha.1 _ _

/-- What moves to other slots leave in them. -/
theorem map_foldl_memcpy (c : Cells α V) (hdst : (is.map dst).Nodup)
    (hdisj : ∀ i ∈ is, ∀ j ∈ is, dst i ≠ src j) :
    (is.map dst).map (is.foldl (fun c i => c.memcpy (dst i) (src i)) c).contents =
      (is.map src).map c.contents := by
  induction is generalizing c with
  | nil => rfl
  | cons i is ih =>
    rw [List.map_cons, List.nodup_cons] at hdst
    have hrest := ih (c.memcpy (dst i) (src i)) hdst.2 fun j hj k hk =>
      hdisj j (List.mem_cons_of_mem i hj) k (List.mem_cons_of_mem i hk)
    have hsrc : (is.map src).map (c.memcpy (dst i) (src i)).contents =
        (is.map src).map c.contents := by
      apply map_update_of_notMem
      intro hmem
      obtain ⟨j, hj, heq⟩ := List.mem_map.mp hmem
      exact hdisj i List.mem_cons_self j (List.mem_cons_of_mem i hj) heq.symm
    simp only [List.map_cons, List.foldl_cons]
    rw [foldl_memcpy_of_notMem _ hdst.1, hrest, hsrc]
    congr 1
    exact Function.update_self ..

/-- Copies leave the slots they do not write alone. -/
theorem copySlots_frame (c : Cells α V) {a : α} (ha : ∀ i ∈ is, a ≠ dst i) :
    (copySlots policy dst src is c).2.contents a = c.contents a := by
  induction is generalizing c with
  | nil => rfl
  | cons i is ih =>
    have hfirst := (copied policy c (dst i) (c.contents (src i))).frame a (ha i List.mem_cons_self)
    have hrest := fun c => ih c fun j hj => ha j (List.mem_cons_of_mem i hj)
    rw [copySlots]
    dsimp only
    split
    · exact hfirst
    · exact (hrest _).trans hfirst

/-- What copies to other slots leave in them, if all are ok. -/
theorem copySlots_copies (hfaithful : policy.Faithful) (hdst : (is.map dst).Nodup)
    (hdisj : ∀ i ∈ is, ∀ j ∈ is, dst i ≠ src j) (c : Cells α V)
    (hok : (copySlots policy dst src is c).1 = .ok) :
    ∀ i ∈ is, (copySlots policy dst src is c).2.contents (dst i) = c.contents (src i) := by
  induction is generalizing c with
  | nil => exact fun _ hi => absurd hi List.not_mem_nil
  | cons i is ih =>
    rw [List.map_cons, List.nodup_cons] at hdst
    have hcopied := copied policy c (dst i) (c.contents (src i))
    rw [copySlots] at hok ⊢
    generalize c.copyConstruct policy (dst i) (c.contents (src i)) = r at hcopied hok ⊢
    obtain ⟨st, c'⟩ := r
    dsimp only at hcopied hok ⊢
    by_cases hst : st = .ok
    swap
    · rw [if_pos hst] at hok
      exact absurd hok hst
    rw [if_neg (not_not.mpr hst)] at hok ⊢
    intro j hj
    rcases List.mem_cons.mp hj with rfl | hj
    · -- later copies go to other slots
      have hlater : ∀ k ∈ is, dst j ≠ dst k := by
        intro k hk heq
        rw [heq] at hdst
        exact hdst.1 (List.mem_map_of_mem hk)
      rw [copySlots_frame c' hlater]
      exact hcopied.value hst hfaithful
    · have hlater : ∀ k ∈ is, ∀ l ∈ is, dst k ≠ src l := fun k hk l hl =>
        hdisj k (List.mem_cons_of_mem i hk) l (List.mem_cons_of_mem i hl)
      rw [ih hdst.2 hlater c' hok j hj]
      exact hcopied.frame _ (hdisj i List.mem_cons_self j (List.mem_cons_of_mem i hj)).symm

/-- Moves to slots without objects move the objects. -/
theorem holds_foldl_memcpy (c : Cells α V) (hholds : c.ledger.Holds slots)
    (hdst : (is.map dst).Nodup) (hsrc : (is.map src).Nodup) (hin : ∀ i ∈ is, src i ∈ slots)
    (hout : ∀ i ∈ is, dst i ∉ slots) :
    (is.foldl (fun c i => c.memcpy (dst i) (src i)) c).ledger.Holds
      (slots \ {a | a ∈ is.map src} ∪ {a | a ∈ is.map dst}) := by
  induction is generalizing c slots with
  | nil => simpa using hholds
  | cons i is ih =>
    rw [List.map_cons, List.nodup_cons] at hdst hsrc
    have hmove : (c.memcpy (dst i) (src i)).ledger.Holds (insert (dst i) (slots \ {src i})) :=
      hholds.relocate (hin i List.mem_cons_self) (hout i List.mem_cons_self)
    have hrest := ih (c.memcpy (dst i) (src i)) hmove hdst.2 hsrc.2 ?_ ?_
    · rw [List.foldl_cons]
      convert hrest using 1
      have hne : dst i ∉ is.map src := by
        intro hmem
        obtain ⟨j, hj, heq⟩ := List.mem_map.mp hmem
        exact hout i List.mem_cons_self (heq ▸ hin j (List.mem_cons_of_mem i hj))
      ext a
      simp only [List.map_cons, List.mem_cons, Set.mem_union, Set.mem_sdiff, Set.mem_ofPred_eq,
        Set.mem_insert_iff, Set.mem_singleton_iff, not_or]
      by_cases ha : a = dst i
      · subst ha
        simp [hne]
      · simp [ha, and_assoc]
    · intro j hj
      refine .inr ⟨hin j (List.mem_cons_of_mem i hj), ?_⟩
      rintro heq
      exact hsrc.1 (heq ▸ List.mem_map_of_mem hj)
    · intro j hj
      rw [Set.mem_insert_iff, not_or]
      refine ⟨?_, fun hmem => hout j (List.mem_cons_of_mem i hj) hmem.1⟩
      intro heq
      exact hdst.1 (heq ▸ List.mem_map_of_mem hj)

end Cells

end Memkit
