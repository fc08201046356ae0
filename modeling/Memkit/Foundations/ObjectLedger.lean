import Mathlib.Tactic
import Memkit.Foundations.Transition

/-! # A ledger of objects in slots

Storage slots in which objects begin and end their lives. Every object gets a number when it is
constructed; the ledger records which object each slot holds and how often each was destroyed. It
notes a fault when a slot that holds an object is constructed over, when a slot that holds none is
destroyed, and when an object is moved onto another.

* **`Ledger`** — the record; its own field says that without a fault every object is either held by
  one slot or was destroyed once.
* **`Ledger.Holds`** — there was no fault and the slots that hold an object are those of a set. The
  rules for the three operations are stated for it.
* **`Settled`** — no fault, and every object was destroyed exactly once: so if nothing is held.
* **`destroyAll`** — the slots of a list, one after the other: when that settles the ledger.
* **`replay`** — a list of events; `Mealy.tracked` enters those of every call of a machine.
* **`Settles`** — a run after which a `clear` ends every object: the invariant rule is
  `SettledRuns.of_invariant`.
-/

/-- Which slot holds which object, and how often each object was destroyed. -/
structure LedgerEntries (α : Type*) where
  held : α → Option ℕ
  /-- Objects constructed so far; the next one gets this number. -/
  born : ℕ
  died : ℕ → ℕ

namespace LedgerEntries

variable {α : Type*}

/-- Every object is held by one slot, or was destroyed once and is held by none. -/
structure Accounted (e : LedgerEntries α) : Prop where
  held_alive : ∀ a id, e.held a = some id → id < e.born ∧ e.died id = 0
  held_once : ∀ a b id, e.held a = some id → e.held b = some id → a = b
  gone : ∀ id < e.born, (∀ a, e.held a ≠ some id) → e.died id = 1
  unborn : ∀ id, e.born ≤ id → e.died id = 0

/-- No slot holds an object. -/
def empty (α : Type*) : LedgerEntries α := ⟨fun _ => none, 0, fun _ => 0⟩

theorem accounted_empty (α : Type*) : (empty α).Accounted where
  held_alive a id h := by cases h
  held_once a b id h := by cases h
  gone id h := absurd h (Nat.not_lt_zero id)
  unborn id _ := rfl

variable [DecidableEq α]

/-- A new object in a slot. -/
def construct (e : LedgerEntries α) (a : α) : LedgerEntries α :=
  { e with held := Function.update e.held a (some e.born), born := e.born + 1 }

/-- The end of the object in a slot. -/
def destroy (e : LedgerEntries α) (a : α) : LedgerEntries α :=
  match e.held a with
  | none => e
  | some id =>
    { e with
      held := Function.update e.held a none
      died := Function.update e.died id (e.died id + 1) }

/-- The object of slot `a` is moved to slot `b`. -/
def relocate (e : LedgerEntries α) (a b : α) : LedgerEntries α :=
  { e with held := Function.update (Function.update e.held a none) b (e.held a) }

variable {e : LedgerEntries α} {a b : α}

theorem Accounted.construct (h : e.Accounted) (ha : e.held a = none) :
    (e.construct a).Accounted := by
  have hheld : ∀ c id, Function.update e.held a (some e.born) c = some id →
      (c = a ∧ id = e.born) ∨ (c ≠ a ∧ e.held c = some id) := by
    intro c id hc
    by_cases hca : c = a
    · rw [hca, Function.update_self] at hc
      exact .inl ⟨hca, (Option.some.inj hc).symm⟩
    · rw [Function.update_of_ne hca] at hc
      exact .inr ⟨hca, hc⟩
  refine ⟨?_, ?_, ?_, ?_⟩
  · intro c id hc
    show id < e.born + 1 ∧ e.died id = 0
    rcases hheld c id hc with ⟨-, rfl⟩ | ⟨-, hc⟩
    · exact ⟨Nat.lt_succ_self _, h.unborn _ le_rfl⟩
    · obtain ⟨hlt, hdied⟩ := h.held_alive c id hc
      exact ⟨Nat.lt_succ_of_lt hlt, hdied⟩
  · intro c d id hc hd
    rcases hheld c id hc with ⟨hca, hid⟩ | ⟨-, hc⟩ <;>
      rcases hheld d id hd with ⟨hda, hid'⟩ | ⟨-, hd⟩
    · exact hca.trans hda.symm
    · exact absurd (h.held_alive d id hd).1 (by omega)
    · exact absurd (h.held_alive c id hc).1 (by omega)
    · exact h.held_once c d id hc hd
  · intro id hlt hnone
    have hne : id ≠ e.born := by
      rintro rfl
      exact hnone a (Function.update_self ..)
    have hlt' : id < e.born + 1 := hlt
    refine h.gone id (by omega) fun c hc => ?_
    -- the slot constructed held nothing before
    have hca : c ≠ a := by
      rintro rfl
      rw [ha] at hc
      cases hc
    refine hnone c ?_
    show Function.update e.held a (some e.born) c = some id
    rw [Function.update_of_ne hca]
    exact hc
  · intro id hle
    have hle' : e.born + 1 ≤ id := hle
    exact h.unborn id (by omega)

/-- Destroying the object of a slot that holds one. -/
theorem destroy_of_some {id : ℕ} (hid : e.held a = some id) :
    e.destroy a =
      { e with
        held := Function.update e.held a none
        died := Function.update e.died id (e.died id + 1) } := by
  rw [destroy, hid]

theorem Accounted.destroy (h : e.Accounted) : (e.destroy a).Accounted := by
  rcases hid : e.held a with _ | id
  · rwa [LedgerEntries.destroy, hid]
  rw [destroy_of_some hid]
  obtain ⟨hlt, hdied⟩ := h.held_alive a id hid
  have hheld : ∀ c i, Function.update e.held a none c = some i → c ≠ a ∧ e.held c = some i := by
    intro c i hc
    by_cases hca : c = a
    · rw [hca, Function.update_self] at hc
      cases hc
    · rw [Function.update_of_ne hca] at hc
      exact ⟨hca, hc⟩
  refine ⟨?_, ?_, ?_, ?_⟩
  · intro c i hc
    obtain ⟨hca, hold⟩ := hheld c i hc
    obtain ⟨hi, hzero⟩ := h.held_alive c i hold
    have hne : i ≠ id := by
      rintro rfl
      exact hca (h.held_once c a _ hold hid)
    refine ⟨hi, ?_⟩
    show Function.update e.died id (e.died id + 1) i = 0
    rw [Function.update_of_ne hne]
    exact hzero
  · intro c d i hc hd
    exact h.held_once c d i (hheld c i hc).2 (hheld d i hd).2
  · intro i hi hnone
    show Function.update e.died id (e.died id + 1) i = 1
    by_cases hiid : i = id
    · rw [hiid, Function.update_self, hdied]
    · rw [Function.update_of_ne hiid]
      refine h.gone i hi fun c hc => hnone c ?_
      have hca : c ≠ a := by
        rintro rfl
        exact hiid (Option.some.inj (hc.symm.trans hid))
      show Function.update e.held a none c = some i
      rw [Function.update_of_ne hca]
      exact hc
  · intro i hle
    have hle' : e.born ≤ i := hle
    show Function.update e.died id (e.died id + 1) i = 0
    rw [Function.update_of_ne (by omega)]
    exact h.unborn i hle'

theorem Accounted.relocate (h : e.Accounted) (hb : b ≠ a → e.held b = none) :
    (e.relocate a b).Accounted := by
  have hheld : ∀ c id, (e.relocate a b).held c = some id →
      ∃ d, e.held d = some id ∧ (c = b ↔ d = a) ∧ (c ≠ b → c = d) := by
    intro c id hc
    have hc' : Function.update (Function.update e.held a none) b (e.held a) c = some id := hc
    by_cases hcb : c = b
    · rw [hcb, Function.update_self] at hc'
      exact ⟨a, hc', by simp [hcb], fun hne => absurd hcb hne⟩
    · rw [Function.update_of_ne hcb] at hc'
      by_cases hca : c = a
      · rw [hca, Function.update_self] at hc'
        cases hc'
      · rw [Function.update_of_ne hca] at hc'
        exact ⟨c, hc', by simp [hcb, hca], fun _ => rfl⟩
  refine ⟨?_, ?_, ?_, h.unborn⟩
  · intro c id hc
    obtain ⟨d, hd, -, -⟩ := hheld c id hc
    exact h.held_alive d id hd
  · intro c c' id hc hc'
    obtain ⟨d, hd, hiff, hsame⟩ := hheld c id hc
    obtain ⟨d', hd', hiff', hsame'⟩ := hheld c' id hc'
    obtain rfl : d = d' := h.held_once d d' id hd hd'
    by_cases hcb : c = b
    · rw [hcb, hiff'.mpr (hiff.mp hcb)]
    · have hcb' : c' ≠ b := fun hb' => hcb (hiff.mpr (hiff'.mp hb'))
      rw [hsame hcb, hsame' hcb']
  · intro id hlt hnone
    refine h.gone id hlt fun c hc => ?_
    by_cases hca : c = a
    · refine hnone b ?_
      show Function.update (Function.update e.held a none) b (e.held a) b = some id
      rw [Function.update_self, ← hca]
      exact hc
    · have hcb : c ≠ b := by
        rintro rfl
        rw [hb hca] at hc
        cases hc
      refine hnone c ?_
      show Function.update (Function.update e.held a none) b (e.held a) c = some id
      rw [Function.update_of_ne hcb, Function.update_of_ne hca]
      exact hc

end LedgerEntries

/-- The entries, and whether there was a fault. -/
structure Ledger (α : Type*) where
  entries : LedgerEntries α
  fault : Bool
  accounted : fault = false → entries.Accounted

namespace Ledger

variable {α : Type*}

/-- No objects yet. -/
def empty (α : Type*) : Ledger α := ⟨.empty α, false, fun _ => LedgerEntries.accounted_empty α⟩

/-- The slot holds an object. -/
def live (l : Ledger α) (a : α) : Bool := (l.entries.held a).isSome

variable [DecidableEq α]

/-- An attempt to construct an object in a slot, which succeeds or not. -/
def construct (l : Ledger α) (a : α) (success : Bool) : Ledger α where
  entries := if success then l.entries.construct a else l.entries
  fault := l.fault || l.live a
  accounted h := by
    obtain ⟨hfault, hlive⟩ := Bool.or_eq_false_iff.mp h
    cases success with
    | false => exact l.accounted hfault
    | true => exact (l.accounted hfault).construct (by simpa [live] using hlive)

/-- Destroy the object in a slot. -/
def destroy (l : Ledger α) (a : α) : Ledger α where
  entries := l.entries.destroy a
  fault := l.fault || !l.live a
  accounted h := (l.accounted (Bool.or_eq_false_iff.mp h).1).destroy

omit [DecidableEq α] in
/-- Use the object in a slot. -/
def access (l : Ledger α) (a : α) : Ledger α where
  entries := l.entries
  fault := l.fault || !l.live a
  accounted h := l.accounted (Bool.or_eq_false_iff.mp h).1

/-- Move the object of slot `a`, if there is one, to slot `b`. -/
def relocate (l : Ledger α) (a b : α) : Ledger α where
  entries := l.entries.relocate a b
  fault := l.fault || (decide (b ≠ a) && l.live b)
  accounted h := by
    obtain ⟨hfault, hlive⟩ := Bool.or_eq_false_iff.mp h
    refine (l.accounted hfault).relocate fun hne => ?_
    rw [decide_eq_true hne, Bool.true_and] at hlive
    simpa [live] using hlive

omit [DecidableEq α] in
/-- There was no fault, and exactly the slots in `slots` hold an object. -/
structure Holds (l : Ledger α) (slots : Set α) : Prop where
  no_fault : l.fault = false
  live_iff : ∀ a, l.live a = true ↔ a ∈ slots

variable {l : Ledger α} {slots : Set α} {a b : α}

omit [DecidableEq α] in
theorem holds_empty : (empty α).Holds ∅ :=
  ⟨rfl, fun a => by simp [live, empty, LedgerEntries.empty]⟩

omit [DecidableEq α] in
theorem Holds.live_eq_false (h : l.Holds slots) (ha : a ∉ slots) : l.live a = false := by
  rw [← Bool.not_eq_true, h.live_iff]
  exact ha

/-- **Constructing** in a slot without an object. -/
theorem Holds.construct (h : l.Holds slots) (ha : a ∉ slots) :
    (l.construct a true).Holds (insert a slots) := by
  refine ⟨?_, fun c => ?_⟩
  · show (l.fault || l.live a) = false
    rw [h.no_fault, h.live_eq_false ha, Bool.or_false]
  · have hlive : (l.construct a true).live c = if c = a then true else l.live c := by
      by_cases hca : c = a
      · rw [if_pos hca, hca]
        simp [Ledger.construct, live, LedgerEntries.construct]
      · rw [if_neg hca]
        simp [Ledger.construct, live, LedgerEntries.construct, Function.update_of_ne hca]
    rw [hlive, Set.mem_insert_iff]
    by_cases hca : c = a
    · simp [hca]
    · simpa [hca] using h.live_iff c

/-- A construction that fails in a slot without an object. -/
theorem Holds.construct_fail (h : l.Holds slots) (ha : a ∉ slots) :
    (l.construct a false).Holds slots := by
  refine ⟨?_, h.live_iff⟩
  show (l.fault || l.live a) = false
  rw [h.no_fault, h.live_eq_false ha, Bool.or_false]

/-- **Destroying** the object of a slot. -/
theorem Holds.destroy (h : l.Holds slots) (ha : a ∈ slots) : (l.destroy a).Holds (slots \ {a}) := by
  have hheld : (l.entries.held a).isSome = true := (h.live_iff a).mpr ha
  obtain ⟨id, hid⟩ := Option.isSome_iff_exists.mp hheld
  refine ⟨?_, fun c => ?_⟩
  · show (l.fault || !l.live a) = false
    rw [h.no_fault, (h.live_iff a).mpr ha]
    rfl
  · have hlive : (l.destroy a).live c = if c = a then false else l.live c := by
      by_cases hca : c = a
      · rw [if_pos hca, hca]
        simp [Ledger.destroy, live, LedgerEntries.destroy, hid]
      · rw [if_neg hca]
        simp [Ledger.destroy, live, LedgerEntries.destroy, hid, Function.update_of_ne hca]
    rw [hlive, Set.mem_sdiff, Set.mem_singleton_iff]
    by_cases hca : c = a
    · simp [hca]
    · simpa [hca] using h.live_iff c

omit [DecidableEq α] in
/-- **Using** the object of a slot. -/
theorem Holds.access (h : l.Holds slots) (ha : a ∈ slots) : (l.access a).Holds slots := by
  refine ⟨?_, h.live_iff⟩
  show (l.fault || !l.live a) = false
  rw [h.no_fault, (h.live_iff a).mpr ha]
  rfl

/-- **Moving** an object to a slot without one. -/
theorem Holds.relocate (h : l.Holds slots) (ha : a ∈ slots) (hb : b ∉ slots) :
    (l.relocate a b).Holds (insert b (slots \ {a})) := by
  have hheld : (l.entries.held a).isSome = true := (h.live_iff a).mpr ha
  refine ⟨?_, fun c => ?_⟩
  · show (l.fault || (decide (b ≠ a) && l.live b)) = false
    rw [h.no_fault, h.live_eq_false hb, Bool.and_false, Bool.or_false]
  · have hlive : (l.relocate a b).live c = if c = b then true else if c = a then false else l.live c := by
      by_cases hcb : c = b
      · rw [if_pos hcb, hcb]
        simp [Ledger.relocate, live, LedgerEntries.relocate, hheld]
      · by_cases hca : c = a
        · rw [if_neg hcb, if_pos hca]
          subst hca
          simp [Ledger.relocate, live, LedgerEntries.relocate, Function.update_of_ne hcb]
        · rw [if_neg hcb, if_neg hca]
          simp [Ledger.relocate, live, LedgerEntries.relocate, Function.update_of_ne hcb,
            Function.update_of_ne hca]
    rw [hlive, Set.mem_insert_iff, Set.mem_sdiff, Set.mem_singleton_iff]
    by_cases hcb : c = b
    · simp [hcb]
    · by_cases hca : c = a
      · simp [hca]
      · simpa [hcb, hca] using h.live_iff c

/-! ## Faults stay -/

theorem construct_fault (h : l.fault = true) (a : α) (success : Bool) :
    (l.construct a success).fault = true := by
  show (l.fault || l.live a) = true
  rw [h, Bool.true_or]

theorem destroy_fault (h : l.fault = true) (a : α) : (l.destroy a).fault = true := by
  show (l.fault || !l.live a) = true
  rw [h, Bool.true_or]

omit [DecidableEq α] in
theorem access_fault (h : l.fault = true) (a : α) : (l.access a).fault = true := by
  show (l.fault || !l.live a) = true
  rw [h, Bool.true_or]

/-- Destroying the object of a slot without one is a fault. -/
theorem Holds.destroy_fault (h : l.Holds slots) (ha : a ∉ slots) : (l.destroy a).fault = true := by
  show (l.fault || !l.live a) = true
  rw [h.live_eq_false ha, Bool.not_false, Bool.or_true]

omit [DecidableEq α] in
/-- Using the object of a slot without one is a fault. -/
theorem Holds.access_fault (h : l.Holds slots) (ha : a ∉ slots) : (l.access a).fault = true := by
  show (l.fault || !l.live a) = true
  rw [h.live_eq_false ha, Bool.not_false, Bool.or_true]

/-! ## Slots given by a list -/

section Lists

variable {as bs : List α}

omit [DecidableEq α] in
/-- The members of a list with one more, wherever it is. -/
theorem setOf_mem_perm (hperm : bs.Perm (a :: as)) : {b | b ∈ bs} = insert a {b | b ∈ as} := by
  ext b
  rw [Set.mem_insert_iff]
  exact hperm.mem_iff.trans List.mem_cons

omit [DecidableEq α] in
/-- The members of a list with one more in the middle. -/
theorem setOf_mem_insert (as bs : List α) (a : α) :
    {b | b ∈ as ++ a :: bs} = insert a {b | b ∈ as ++ bs} :=
  setOf_mem_perm List.perm_middle

omit [DecidableEq α] in
theorem holds_nil : (empty α).Holds {b | b ∈ []} := by
  simpa using holds_empty

/-- Constructing in a slot that is added to the list. -/
theorem Holds.construct_perm (h : l.Holds {b | b ∈ as}) (hperm : bs.Perm (a :: as)) (ha : a ∉ as) :
    (l.construct a true).Holds {b | b ∈ bs} := by
  rw [setOf_mem_perm hperm]
  exact h.construct ha

/-- Destroying the object of a slot that is taken out of the list. -/
theorem Holds.destroy_perm (h : l.Holds {b | b ∈ bs}) (hperm : bs.Perm (a :: as)) (ha : a ∉ as) :
    (l.destroy a).Holds {b | b ∈ as} := by
  have hdestroy := h.destroy (hperm.mem_iff.mpr List.mem_cons_self)
  rw [setOf_mem_perm hperm] at hdestroy
  rwa [Set.insert_sdiff_self_of_notMem (s := {b | b ∈ as}) ha] at hdestroy

theorem Holds.destroy_mem (h : l.Holds {b | b ∈ as ++ a :: bs}) (ha : a ∉ as ++ bs) :
    (l.destroy a).Holds {b | b ∈ as ++ bs} :=
  h.destroy_perm List.perm_middle ha

/-- Destroying the object of the first slot of the list. -/
theorem Holds.destroy_head (h : l.Holds {b | b ∈ a :: bs}) (ha : a ∉ bs) :
    (l.destroy a).Holds {b | b ∈ bs} :=
  Holds.destroy_mem (show l.Holds {b | b ∈ [] ++ a :: bs} from h) ha

/-- Destroying the object of the last slot of the list. -/
theorem Holds.destroy_last (h : l.Holds {b | b ∈ as ++ [a]}) (ha : a ∉ as) :
    (l.destroy a).Holds {b | b ∈ as} := by
  rw [← List.append_nil as] at ha
  have hholds := Holds.destroy_mem h ha
  rwa [List.append_nil] at hholds

end Lists

/-! ## The end -/

omit [DecidableEq α] in
/-- There was no fault, and every object constructed was destroyed exactly once. -/
structure Settled (l : Ledger α) : Prop where
  no_fault : l.fault = false
  destroyed_once : ∀ id < l.entries.born, l.entries.died id = 1

omit [DecidableEq α] in
instance (l : Ledger α) : Decidable l.Settled :=
  decidable_of_iff (l.fault = false ∧ ∀ id < l.entries.born, l.entries.died id = 1)
    ⟨fun h => ⟨h.1, h.2⟩, fun h => ⟨h.1, h.2⟩⟩

omit [DecidableEq α] in
/-- **Nothing is held**: every object constructed was destroyed exactly once. -/
theorem Holds.settled (h : l.Holds ∅) : l.Settled where
  no_fault := h.no_fault
  destroyed_once id hid := by
    refine (l.accounted h.no_fault).gone id hid fun a ha => ?_
    have hlive := h.live_eq_false (Set.notMem_empty a)
    rw [live, ha] at hlive
    cases hlive

/-! ## Destroying the objects of a list of slots -/

section DestroyAll

variable {as : List α}

/-- Destroy the objects of some slots, one after the other. -/
def destroyAll (l : Ledger α) (as : List α) : Ledger α := as.foldl destroy l

@[simp] theorem destroyAll_nil (l : Ledger α) : l.destroyAll [] = l := rfl

@[simp] theorem destroyAll_cons (l : Ledger α) (a : α) (as : List α) :
    l.destroyAll (a :: as) = (l.destroy a).destroyAll as := rfl

/-- A fault stays. -/
theorem destroyAll_fault (h : l.fault = true) : (l.destroyAll as).fault = true := by
  induction as generalizing l with
  | nil => exact h
  | cons a as ih => exact ih (destroy_fault h a)

/-- Destroying the objects of some slots, one of which has none. -/
theorem Holds.fault_of_destroyAll (h : l.Holds slots) (ha : a ∈ as) (hnot : a ∉ slots) :
    (l.destroyAll as).fault = true := by
  induction as generalizing l slots with
  | nil => cases ha
  | cons b as ih =>
    by_cases hb : b ∈ slots
    · have hne : a ≠ b := fun heq => hnot (heq ▸ hb)
      exact ih (h.destroy hb) ((List.mem_cons.mp ha).resolve_left hne) fun hmem => hnot hmem.1
    · have hfault : ((l.destroy b).destroyAll as).fault = true :=
        destroyAll_fault (h.destroy_fault hb)
      exact hfault

omit [DecidableEq α] in
/-- Nothing is held once every object was destroyed. -/
theorem Settled.eq_empty (hs : l.Settled) (h : l.Holds slots) : slots = ∅ := by
  refine Set.eq_empty_of_forall_notMem fun a ha => ?_
  obtain ⟨id, hid⟩ := Option.isSome_iff_exists.mp ((h.live_iff a).mpr ha)
  obtain ⟨hlt, halive⟩ := (l.accounted h.no_fault).held_alive a id hid
  have hdied := hs.destroyed_once id hlt
  omega

/-- Destroying the objects of different slots that hold one. -/
theorem Holds.destroyAll (h : l.Holds slots) (hnodup : as.Nodup) (hmem : ∀ a ∈ as, a ∈ slots) :
    (l.destroyAll as).Holds (slots \ {a | a ∈ as}) := by
  induction as generalizing l slots with
  | nil => simpa using h
  | cons a as ih =>
    obtain ⟨hnot, hnodup⟩ := List.nodup_cons.mp hnodup
    have hrest := ih (h.destroy (hmem a List.mem_cons_self)) hnodup fun b hb =>
      ⟨hmem b (List.mem_cons_of_mem a hb), fun hba => hnot (hba ▸ hb)⟩
    rw [Set.sdiff_sdiff] at hrest
    rwa [show {b | b ∈ a :: as} = {a} ∪ {b | b ∈ as} by ext b; simp]

/-- **Destroying the objects of a list of slots** settles a ledger iff the list has every slot that
holds an object, once, and no other. -/
theorem Holds.settled_destroyAll_iff (h : l.Holds slots) :
    (l.destroyAll as).Settled ↔ as.Nodup ∧ {a | a ∈ as} = slots := by
  constructor
  · intro hs
    induction as generalizing l slots with
    | nil => exact ⟨List.nodup_nil, by simpa using (hs.eq_empty h).symm⟩
    | cons a as ih =>
      by_cases ha : a ∈ slots
      · obtain ⟨hnodup, hslots⟩ := ih (h.destroy ha) hs
        have hnot : a ∉ as := fun hmem => absurd (hslots.le hmem).2 (by simp)
        refine ⟨List.nodup_cons.mpr ⟨hnot, hnodup⟩, ?_⟩
        rw [setOf_mem_perm (List.Perm.refl (a :: as)), hslots]
        exact Set.insert_sdiff_self_of_mem ha
      · -- the first destruction is a fault, which stays
        have hfault : (l.destroy a).fault = true := h.destroy_fault ha
        have hstays : ((l.destroy a).destroyAll as).fault = true := destroyAll_fault hfault
        rw [← destroyAll_cons, hs.no_fault] at hstays
        cases hstays
  · rintro ⟨hnodup, rfl⟩
    refine Holds.settled ?_
    have hholds := h.destroyAll hnodup fun a ha => ha
    rwa [Set.sdiff_self] at hholds

/-- The same for a ledger whose slots are those of a list. -/
theorem Holds.settled_destroyAll_iff_perm {bs : List α} (h : l.Holds {b | b ∈ bs})
    (hbs : bs.Nodup) : (l.destroyAll as).Settled ↔ as.Perm bs := by
  rw [h.settled_destroyAll_iff]
  constructor
  · rintro ⟨has, hslots⟩
    exact (List.perm_ext_iff_of_nodup has hbs).mpr fun a => Set.ext_iff.mp hslots a
  · intro hperm
    exact ⟨hperm.nodup_iff.mpr hbs, Set.ext fun a => hperm.mem_iff⟩

omit [DecidableEq α] in
/-- A ledger whose slots are those of a list is settled iff the list is empty. -/
theorem Holds.settled_iff_eq_nil (h : l.Holds {b | b ∈ as}) : l.Settled ↔ as = [] := by
  constructor
  · intro hs
    refine List.eq_nil_iff_forall_not_mem.mpr fun a ha => ?_
    exact Set.notMem_empty a (hs.eq_empty h ▸ ha)
  · rintro rfl
    exact Holds.settled (by simpa using h)

end DestroyAll

/-! ## Events -/

/-- What happens to the object of a slot. -/
inductive Event (α : Type*)
  /-- An attempt to construct an object, and whether it succeeds. -/
  | construct (slot : α) (success : Bool)
  | destroy (slot : α)
  deriving DecidableEq, Repr

/-- Enter one event. -/
def record (l : Ledger α) : Event α → Ledger α
  | .construct a success => l.construct a success
  | .destroy a => l.destroy a

/-- Enter some events, in order. -/
def replay (l : Ledger α) (events : List (Event α)) : Ledger α := events.foldl record l

@[simp] theorem replay_nil (l : Ledger α) : l.replay [] = l := rfl

@[simp] theorem replay_cons (l : Ledger α) (event : Event α) (events : List (Event α)) :
    l.replay (event :: events) = (l.record event).replay events := rfl

theorem replay_append (l : Ledger α) (events events' : List (Event α)) :
    l.replay (events ++ events') = (l.replay events).replay events' := List.foldl_append

/-- A fault stays. -/
theorem replay_fault (h : l.fault = true) (events : List (Event α)) :
    (l.replay events).fault = true := by
  induction events generalizing l with
  | nil => exact h
  | cons event events ih =>
    apply ih
    cases event with
    | construct b success => exact construct_fault h b success
    | destroy b => exact destroy_fault h b

/-- Destructions only. -/
theorem replay_map_destroy (l : Ledger α) (as : List α) :
    l.replay (as.map .destroy) = l.destroyAll as := by
  induction as generalizing l with
  | nil => rfl
  | cons a as ih => exact ih (l.destroy a)

end Ledger

/-- A machine together with the ledger of the events of its calls. -/
def Mealy.tracked {σ ι ο α : Type*} [DecidableEq α] (step : σ → ι → ο × σ)
    (events : σ → ι → List (Ledger.Event α)) (s : σ × Ledger α) (c : ι) : ο × (σ × Ledger α) :=
  ((step s.1 c).1, ((step s.1 c).2, s.2.replay (events s.1 c)))

namespace Memkit

section Runs

variable {σ ι ο α : Type*} {step : σ → ι → ο × σ} {good : σ → ι → Prop} {ledger : σ → Ledger α}
  {clear : ι} {start : σ}

/-- After the calls the objects are in order, and a `clear` then ends them all. -/
def Settles (step : σ → ι → ο × σ) (ledger : σ → Ledger α) (clear : ι) (start : σ)
    (calls : List ι) : Prop :=
  (ledger (Mealy.final step start calls)).fault = false ∧
    (ledger (step (Mealy.final step start calls) clear).2).Settled

instance (start : σ) (calls : List ι) : Decidable (Settles step ledger clear start calls) :=
  inferInstanceAs (Decidable (_ ∧ _))

/-- So it is for all calls that meet `good`. -/
def SettledRuns (step : σ → ι → ο × σ) (good : σ → ι → Prop) (ledger : σ → Ledger α) (clear : ι)
    (start : σ) : Prop :=
  ∀ calls, Mealy.EveryCall step good start calls → Settles step ledger clear start calls

/-- **Invariant rule** for the objects of a container. -/
theorem SettledRuns.of_invariant (Inv : σ → Prop)
    (hstep : ∀ s c, Inv s → good s c → Inv (step s c).2) (hstart : Inv start)
    (hfault : ∀ s, Inv s → (ledger s).fault = false)
    (hclear : ∀ s, Inv s → (ledger (step s clear).2).Holds ∅) :
    SettledRuns step good ledger clear start := by
  intro calls hgood
  have hfinal := hgood.final_invariant Inv hstep hstart
  exact ⟨hfault _ hfinal, (hclear _ hfinal).settled⟩

end Runs

end Memkit
