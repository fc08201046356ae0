import Memkit.Core.CopyCalls
import Memkit.Hashing.HashDivisors
import Memkit.Hashing.OpenAddressingGrowth

/-! # The copies of the open-addressing hash map

Which copy callbacks the calls of `hashmap_map_core` with slots run, and when their statuses are
truthful. As with chains `copy_assign` drops the status of a copy; besides, a search for a key that
is not there may fall through the loop of `open_probe`, and then ok is returned for the value of
another key, or for a value that was put into a dead slot. Nothing is assumed of the table: a copy
that fails may leave a key in two slots. -/

namespace Memkit

open CopyCall

variable {w : ℕ} {K V : Type*}

namespace OpenMap

/-- The callbacks that `open_put` runs. -/
def openPutCopies (cfg : HashMapConfig w K V) (s : OpenMap w K V) (key : K) (value : V) :
    List CopyCall :=
  let (state, index) := openProbe cfg s key true
  let slot := s.slots index
  if state = .occupied then
    if cfg.hashPolicy.equal slot.key key then
      [.assign (cfg.valuePolicy.droppedStatus s.copies slot.value value)]
    else []
  else
    let keySt := (cfg.keyPolicy.copyConstruct s.copies slot.key key).1
    if keySt ≠ .ok then [.construct keySt]
    else
      [.construct keySt, .construct (cfg.valuePolicy.copyConstruct (s.copies + 1) slot.value value).1]

/-- The callbacks that `open_get` runs. -/
def openGetCopies (cfg : HashMapConfig w K V) (s : OpenMap w K V) (key : K) (out : V) :
    List CopyCall :=
  let (state, index) := openProbe cfg s key false
  if state ≠ .occupied then []
  else [.assign (cfg.valuePolicy.droppedStatus s.copies out (s.slots index).value)]

/-- The callbacks that the loop of `open_rehash` runs over the remaining old slots. -/
def rehashLoopCopies (cfg : HashMapConfig w K V) (oldSlots : ℕ → Slot K V) :
    List ℕ → OpenMap w K V → List CopyCall
  | [], _ => []
  | i :: is, s =>
    if (oldSlots i).state ≠ .occupied then rehashLoopCopies cfg oldSlots is s
    else
      let (st, t) := openPut cfg s (oldSlots i).key (oldSlots i).value
      openPutCopies cfg s (oldSlots i).key (oldSlots i).value ++
        if st ≠ .ok then [] else rehashLoopCopies cfg oldSlots is t

/-- The callbacks that `open_rehash` runs. -/
def openRehashCopies (cfg : HashMapConfig w K V) (s : OpenMap w K V) (newBucketCount : BitVec w) :
    List CopyCall :=
  let allocSt := cfg.allocRaw s.allocs (newBucketCount * cfg.slotStride)
  let s := { s with allocs := s.allocs + 1 }
  if allocSt ≠ .ok then []
  else rehashLoopCopies cfg s.slots (List.range s.buckets) (freshSlots cfg s newBucketCount)

/-- The callbacks that `maybe_grow` runs. -/
def maybeGrowCopies (cfg : HashMapConfig w K V) (s : OpenMap w K V) : List CopyCall :=
  let newCount := growBucketCount s.bucketCount
  if newCount = s.bucketCount then [] else openRehashCopies cfg s newCount

/-- The callbacks that `put` runs. -/
def putCopies (cfg : HashMapConfig w K V) (s : OpenMap w K V) (key : Option K) (value : Option V) :
    List CopyCall :=
  match key, value with
  | some key, some value =>
    if s.bucketCount = 0 then []
    else if shouldGrow cfg.growable s.bucketCount s.size then
      let (growSt, t) := maybeGrow cfg s
      maybeGrowCopies cfg s ++ if growSt ≠ .ok then [] else openPutCopies cfg t key value
    else openPutCopies cfg s key value
  | _, _ => []

/-- The callbacks that a call runs. -/
def copyCalls (cfg : HashMapConfig w K V) (s : OpenMap w K V) : Call K V → List CopyCall
  | .put key value => putCopies cfg s key value
  | .get (some key) (some out) => openGetCopies cfg s key out
  | .get _ _ => []
  | .remove _ => []
  | .contains _ => []
  | .clear => []

/-- A lookup of `key` ends at a live entry of it, which holds `value`. -/
def Stores (cfg : HashMapConfig w K V) (s : OpenMap w K V) (key : K) (value : V) : Prop :=
  ∃ i, openProbe cfg s key false = (.occupied, i) ∧ StoredAt cfg s key i ∧
    (s.slots i).value = value

/-- The status in a reply. -/
def Reply.status? : Reply V → Option Status
  | .put result => some result
  | .get result _ => some result
  | .remove result => some result
  | .contains _ => none
  | .clear => none

/-- What a call is for is done: a put stored its value, a get delivered the value stored. -/
def Done (cfg : HashMapConfig w K V) (s u : OpenMap w K V) : Call K V → Reply V → Prop
  | .put (some key) (some value), _ => Stores cfg u key value
  | .get (some key) (some _), .get _ (some out) => Stores cfg s key out
  | _, _ => True

/-- The status of the call is truthful. -/
def TruthfulCall (cfg : HashMapConfig w K V) (s : OpenMap w K V) (c : Call K V) : Prop :=
  Truthful (copyCalls cfg s c) (call cfg s c).1.status?
    (Done cfg s (call cfg s c).2 c (call cfg s c).1)

/-- The fall-through of the probe does not mislead the call. -/
def NotMisled (cfg : HashMapConfig w K V) (s : OpenMap w K V) : Call K V → Prop
  | .put (some key) (some _) => Placeable cfg s key
  | .get (some key) (some _) => Answerable cfg s key
  | _ => True

instance (cfg : HashMapConfig w K V) (s : OpenMap w K V) : ∀ c, Decidable (NotMisled cfg s c)
  | .put (some key) (some _) => inferInstanceAs (Decidable (Placeable cfg s key))
  | .get (some key) (some _) => inferInstanceAs (Decidable (Answerable cfg s key))
  | .put none _ | .put (some _) none | .get none _ | .get (some _) none | .remove _ | .contains _
  | .clear => isTrue trivial

variable {cfg : HashMapConfig w K V} {s t : OpenMap w K V} {key : K} {value out : V} {i : ℕ}

/-! ## Any slots -/

/-- A probe that meets a live entry of its key first reports it, whatever it is for. -/
theorem openProbe_hit (hpos : 0 < s.buckets) {d : ℕ} (hd : d < s.buckets)
    (hpass : ∀ e < d, Passes cfg.hashPolicy.equal s.slots key
      (walk s.buckets (home cfg s.buckets key) e))
    (hstate : (s.slots (walk s.buckets (home cfg s.buckets key) d)).state = .occupied)
    (hequal : cfg.hashPolicy.equal (s.slots (walk s.buckets (home cfg s.buckets key) d)).key key =
      true) (forInsert : Bool) :
    openProbe cfg s key forInsert = (.occupied, walk s.buckets (home cfg s.buckets key) d) := by
  have hprobed := openProbe_probed cfg s hpos key forInsert
  have hblock : ¬ Passes cfg.hashPolicy.equal s.slots key
      (walk s.buckets (home cfg s.buckets key) d) := by
    rw [Passes, hstate, hequal]
    simp
  revert hprobed
  generalize openProbe cfg s key forInsert = result
  intro hprobed
  cases hprobed with
  | empty d' hd' hpass' hstate' =>
    rcases Nat.lt_trichotomy d' d with hlt | rfl | hgt
    · rcases hpass d' hlt with hdel | ⟨hocc, -⟩
      · rw [hdel] at hstate'
        cases hstate'
      · rw [hocc] at hstate'
        cases hstate'
    · rw [hstate] at hstate'
      cases hstate'
    · exact absurd (hpass' d hgt) hblock
  | hit d' hd' hpass' hstate' hequal' =>
    rcases Nat.lt_trichotomy d' d with hlt | rfl | hgt
    · rcases hpass d' hlt with hdel | ⟨-, hne⟩
      · rw [hdel] at hstate'
        cases hstate'
      · rw [hequal'] at hne
        cases hne
    · rfl
    · exact absurd (hpass' d hgt) hblock
  | cycled hpass' => exact absurd (hpass' d hd) hblock

/-- A walk that passes every slot is one that no lookup can answer. -/
theorem not_answerable_of_passes (hpos : 0 < s.buckets)
    (hpass : ∀ e < s.buckets, Passes cfg.hashPolicy.equal s.slots key
      (walk s.buckets (home cfg s.buckets key) e)) : ¬ Answerable cfg s key := by
  have hhome : home cfg s.buckets key < s.buckets := Nat.mod_lt _ hpos
  have hall : ∀ i < s.buckets, Passes cfg.hashPolicy.equal s.slots key i := by
    intro i hi
    obtain ⟨d, hd, rfl⟩ := exists_walk_eq hhome hi
    exact hpass d hd
  rintro (⟨i, ⟨hi, hocc⟩, hequal⟩ | ⟨i, hi, hempty⟩)
  · rcases hall i hi with hdel | ⟨-, hne⟩
    · rw [hdel] at hocc
      cases hocc
    · rw [hequal] at hne
      cases hne
  · rcases hall i hi with hdel | ⟨hocc, -⟩
    · rw [hdel] at hempty
      cases hempty
    · rw [hocc] at hempty
      cases hempty

/-- A key without a live entry is not stored. -/
theorem Stores.answerable (h : Stores cfg s key value) : Answerable cfg s key := by
  obtain ⟨i, -, hstored, -⟩ := h
  exact .inl ⟨i, hstored⟩

/-! ## `open_put` -/

/-- What `open_put` may do: over the value of a live entry, into a dead slot that the probe fell
through to, refuse, or write a new entry to a dead slot on the walk of the key. -/
inductive Puts (cfg : HashMapConfig w K V) (s : OpenMap w K V) (key : K) : Prop
  | over (d : ℕ) (hd : d < s.buckets)
      (hpass : ∀ e < d, Passes cfg.hashPolicy.equal s.slots key
        (walk s.buckets (home cfg s.buckets key) e))
      (hstate : (s.slots (walk s.buckets (home cfg s.buckets key) d)).state = .occupied)
      (hequal : cfg.hashPolicy.equal (s.slots (walk s.buckets (home cfg s.buckets key) d)).key key =
        true)
      (hprobe : openProbe cfg s key true = (.occupied, walk s.buckets (home cfg s.buckets key) d))
  | stray (hnot : ¬ Answerable cfg s key)
      (hequal : cfg.hashPolicy.equal (s.slots (fallThrough cfg s key)).key key = true)
      (hprobe : openProbe cfg s key true = (.occupied, fallThrough cfg s key))
  | refuse (hnot : ¬ Answerable cfg s key)
      (hequal : cfg.hashPolicy.equal (s.slots (fallThrough cfg s key)).key key = false)
      (hprobe : openProbe cfg s key true = (.occupied, fallThrough cfg s key))
  | new (d : ℕ) (hd : d < s.buckets)
      (hpass : ∀ e < d, Passes cfg.hashPolicy.equal s.slots key
        (walk s.buckets (home cfg s.buckets key) e))
      (hdead : (s.slots (walk s.buckets (home cfg s.buckets key) d)).state ≠ .occupied)
      (hempty : HasEmpty s)
      (hprobe : openProbe cfg s key true = (.empty, walk s.buckets (home cfg s.buckets key) d))

/-- **`open_put`** goes one of the four ways. -/
theorem puts (cfg : HashMapConfig w K V) (hpos : 0 < s.buckets) (key : K) : Puts cfg s key := by
  have hprobed := openProbe_probed cfg s hpos key true
  generalize hresult : openProbe cfg s key true = result at hprobed
  cases hprobed with
  | empty d hd hpass hstate =>
    have hempty : HasEmpty s := ⟨_, walk_lt hpos _ _, hstate⟩
    rw [target, if_pos rfl] at hresult
    cases hfound : firstTombstone s.slots s.buckets (home cfg s.buckets key) d with
    | none =>
      rw [hfound, Option.getD_none] at hresult
      exact .new d hd hpass (by rw [hstate]; decide) hempty hresult
    | some i =>
      obtain ⟨hdel, e, he, rfl⟩ := firstTombstone_eq_some hfound
      rw [hfound, Option.getD_some] at hresult
      exact .new e (he.trans hd) (fun e' he' => hpass e' (he'.trans he)) (by rw [hdel]; decide)
        hempty hresult
  | hit d hd hpass hstate hequal => exact .over d hd hpass hstate hequal hresult
  | cycled hpass =>
    have hnot := not_answerable_of_passes hpos hpass
    by_cases hequal : cfg.hashPolicy.equal (s.slots (fallThrough cfg s key)).key key = true
    · exact .stray hnot hequal hresult
    · exact .refuse hnot (Bool.eq_false_of_not_eq_true hequal) hresult

/-- What `open_put` does at an entry or a dead slot with an equal key. -/
theorem openPut_over (hprobe : openProbe cfg s key true = (.occupied, i))
    (hequal : cfg.hashPolicy.equal (s.slots i).key key = true) (value : V) :
    openPut cfg s key value =
        (.ok, assigned s i (cfg.valuePolicy.copyAssign s.copies (s.slots i).value value)) ∧
      openPutCopies cfg s key value =
        [.assign (cfg.valuePolicy.droppedStatus s.copies (s.slots i).value value)] := by
  constructor
  · simp only [openPut, hprobe, if_true, hequal]
    rfl
  · simp only [openPutCopies, hprobe, if_true, hequal]

/-- What `open_put` does at an occupied slot with another key. -/
theorem openPut_refuse (hprobe : openProbe cfg s key true = (.occupied, i))
    (hequal : cfg.hashPolicy.equal (s.slots i).key key = false) (value : V) :
    openPut cfg s key value = (.full, s) ∧ openPutCopies cfg s key value = [] := by
  constructor
  · simp [openPut, hprobe, hequal]
  · simp [openPutCopies, hprobe, hequal]

/-- What `open_put` does at a dead slot: a new entry, or a copy fails. -/
theorem openPut_new (hfaithful : cfg.keyPolicy.Faithful) (hfaithful' : cfg.valuePolicy.Faithful)
    (hprobe : openProbe cfg s key true = (.empty, i)) (value : V) :
    AssignsOk (openPutCopies cfg s key value) ∧
      ((openPut cfg s key value = (.ok, inserted s i key value) ∧
          ConstructsOk (openPutCopies cfg s key value)) ∨
        ((openPut cfg s key value).1 ≠ .ok ∧ ¬ ConstructsOk (openPutCopies cfg s key value))) := by
  have hne : ¬ (SlotState.empty = SlotState.occupied) := by decide
  by_cases hkey : (cfg.keyPolicy.copyConstruct s.copies (s.slots i).key key).1 = .ok
  · have hkeyCopied := hfaithful _ _ _ hkey
    have hcopies : openPutCopies cfg s key value =
        [.construct (cfg.keyPolicy.copyConstruct s.copies (s.slots i).key key).1,
          .construct (cfg.valuePolicy.copyConstruct (s.copies + 1) (s.slots i).value value).1] := by
      simp only [openPutCopies, hprobe, hne, if_false, hkey, ne_eq, not_true_eq_false]
    by_cases hvalue : (cfg.valuePolicy.copyConstruct (s.copies + 1) (s.slots i).value value).1 = .ok
    · have hvalueCopied := hfaithful' _ _ _ hvalue
      rw [hcopies, hkey, hvalue]
      refine ⟨by simp [AssignsOk], .inl ⟨?_, by simp [ConstructsOk]⟩⟩
      have hsecond : ({ s with copies := s.copies + 1 }.setSlot i
          { s.slots i with
            key := (cfg.keyPolicy.copyConstruct s.copies (s.slots i).key key).2 }).copies =
          s.copies + 1 := rfl
      simp only [openPut, hprobe, hne, if_false, hkey, ne_eq, not_true_eq_false, hsecond, hvalue]
      simp [setSlot, inserted, hkeyCopied, hvalueCopied, ElementPolicy.copyConstruct]
    · rw [hcopies]
      refine ⟨by simp [AssignsOk], .inr ⟨?_, ?_⟩⟩
      · have hsecond : ({ s with copies := s.copies + 1 }.setSlot i
            { s.slots i with
              key := (cfg.keyPolicy.copyConstruct s.copies (s.slots i).key key).2 }).copies =
            s.copies + 1 := rfl
        simp only [openPut, hprobe, hne, if_false, hkey, ne_eq, not_true_eq_false, hsecond, hvalue,
          not_false_eq_true, if_true]
      · intro hconstructs
        exact hvalue (hconstructs _ (by simp))
  · have hcopies : openPutCopies cfg s key value =
        [.construct (cfg.keyPolicy.copyConstruct s.copies (s.slots i).key key).1] := by
      simp only [openPutCopies, hprobe, hne, if_false, hkey, ne_eq, not_false_eq_true, if_true]
    rw [hcopies]
    refine ⟨by simp [AssignsOk], .inr ⟨?_, fun hconstructs => hkey (hconstructs _ (by simp))⟩⟩
    simp only [openPut, hprobe, hne, if_false, hkey, ne_eq, not_false_eq_true, if_true]

/-- A table with an entry of the key, reached on its walk without meeting another, stores its
value. -/
theorem stores_of_walk (hpos : 0 < t.buckets) {d : ℕ} (hd : d < t.buckets)
    (hpass : ∀ e < d, Passes cfg.hashPolicy.equal t.slots key
      (walk t.buckets (home cfg t.buckets key) e))
    (hstate : (t.slots (walk t.buckets (home cfg t.buckets key) d)).state = .occupied)
    (hequal : cfg.hashPolicy.equal (t.slots (walk t.buckets (home cfg t.buckets key) d)).key key =
      true) (hvalue : (t.slots (walk t.buckets (home cfg t.buckets key) d)).value = value) :
    Stores cfg t key value :=
  ⟨_, openProbe_hit hpos hd hpass hstate hequal false, ⟨⟨walk_lt hpos _ _, hstate⟩, hequal⟩, hvalue⟩

/-- Writing one slot of a walk leaves the slots before it alone. -/
theorem passes_setSlot {slot : Slot K V} {n h d : ℕ} (hd : d < n)
    (hpass : ∀ e < d, Passes cfg.hashPolicy.equal s.slots key (walk n h e)) :
    ∀ e < d, Passes cfg.hashPolicy.equal (s.setSlot (walk n h d) slot).slots key (walk n h e) := by
  intro e he
  have hne : walk n h e ≠ walk n h d := fun heq => he.ne (walk_inj (he.trans hd) hd heq)
  unfold Passes
  rw [show (s.setSlot (walk n h d) slot).slots (walk n h e) = s.slots (walk n h e) from
    Function.update_of_ne hne _ _]
  exact hpass e he

/-- **`open_put`** is truthful unless the copy over an old value fails, or the value goes into a dead
slot. -/
theorem openPut_accounts (hpos : 0 < s.buckets)
    (hhonest : HonestCallbacks cfg.keyPolicy cfg.valuePolicy cfg.hashPolicy) (key : K) (value : V) :
    Accounts (openPutCopies cfg s key value) (some (openPut cfg s key value).1)
      (Stores cfg (openPut cfg s key value).2 key value)
      (Answerable cfg s key ∨
        cfg.hashPolicy.equal (s.slots (fallThrough cfg s key)).key key = false) := by
  rcases puts cfg hpos key with ⟨d, hd, hpass, hstate, hequal, hprobe⟩ | ⟨hnot, hequal, hprobe⟩ |
    ⟨hnot, hequal, hprobe⟩ | ⟨d, hd, hpass, hdead, hempty, hprobe⟩
  · -- over the value of an entry
    obtain ⟨hput, hcopies⟩ := openPut_over hprobe hequal value
    have hgood : Answerable cfg s key := .inl ⟨_, ⟨walk_lt hpos _ _, hstate⟩, hequal⟩
    rw [hput, hcopies]
    refine ⟨fun _ => constructsOk_assign, fun _ _ => rfl,
      fun _ hassigns => iff_of_true ?_ (.inl hgood), fun hnot => absurd (.inl hgood) hnot⟩
    refine stores_of_walk hpos hd
      (passes_setSlot (s := { s with copies := s.copies + 1 }) hd hpass) ?_ ?_ ?_
    · exact (state_assigned _).trans hstate
    · show cfg.hashPolicy.equal ((assigned s _ _).slots _).key key = true
      rw [key_assigned]
      exact hequal
    · exact (congrArg Slot.value slots_assigned_self).trans
        (hhonest.value _ _ _ (assignsOk_assign.mp hassigns))
  · -- into a dead slot
    obtain ⟨hput, hcopies⟩ := openPut_over hprobe hequal value
    have hbad : ¬ (Answerable cfg s key ∨
        cfg.hashPolicy.equal (s.slots (fallThrough cfg s key)).key key = false) := by
      rw [hequal]
      simpa using hnot
    rw [hput, hcopies]
    refine ⟨fun _ => constructsOk_assign, fun _ _ => rfl, fun _ _ => iff_of_false ?_ hbad,
      fun _ => rfl⟩
    -- no live entry has the key: the states and the keys are what they were
    rintro ⟨i, -, ⟨hlive, hequal'⟩, -⟩
    refine hnot (.inl ⟨i, live_assigned.mp hlive, ?_⟩)
    rwa [key_assigned] at hequal'
  · -- refused
    obtain ⟨hput, hcopies⟩ := openPut_refuse hprobe hequal value
    rw [hput, hcopies]
    exact ⟨nofun, fun _ hassigns => absurd assignsOk_nil hassigns, nofun,
      fun hbad => absurd (.inr hequal) hbad⟩
  · -- a new entry
    obtain ⟨hassigns, ⟨hput, hconstructs⟩ | ⟨hst, hconstructs⟩⟩ :=
      openPut_new hhonest.key hhonest.value hprobe value
    · rw [hput]
      refine ⟨fun _ => hconstructs, fun _ hnot => absurd hassigns hnot,
        fun _ _ => iff_of_true ?_ (.inl (.inr hempty)), fun hbad => absurd (.inl (.inr hempty)) hbad⟩
      have hself : (inserted s (walk s.buckets (home cfg s.buckets key) d) key value).slots
          (walk s.buckets (home cfg s.buckets key) d) = ⟨.occupied, key, value⟩ := slots_inserted_self
      refine stores_of_walk hpos hd (passes_setSlot hd hpass) ?_ ?_ ?_
      · exact congrArg Slot.state hself
      · exact (congrArg (fun slot => cfg.hashPolicy.equal slot.key key) hself).trans
          (hhonest.refl key)
      · exact congrArg Slot.value hself
    · exact ⟨fun hok => absurd (Option.some.inj hok) hst, fun hok => absurd hok hconstructs,
        fun hok => absurd (Option.some.inj hok) hst, fun hbad => absurd (.inl (.inr hempty)) hbad⟩

/-- With an empty slot `open_put` fails only if a copy fails. -/
theorem openPut_ok_iff (hpos : 0 < s.buckets) (hempty : HasEmpty s)
    (hhonest : HonestCallbacks cfg.keyPolicy cfg.valuePolicy cfg.hashPolicy) (key : K) (value : V) :
    (openPut cfg s key value).1 = .ok ↔ ConstructsOk (openPutCopies cfg s key value) := by
  rcases puts cfg hpos key with ⟨d, hd, hpass, hstate, hequal, hprobe⟩ | ⟨hnot, -, -⟩ |
    ⟨hnot, -, -⟩ | ⟨d, hd, hpass, hdead, -, hprobe⟩
  · obtain ⟨hput, hcopies⟩ := openPut_over hprobe hequal value
    rw [hput, hcopies]
    exact iff_of_true rfl constructsOk_assign
  · exact absurd (.inr hempty) hnot
  · exact absurd (.inr hempty) hnot
  · obtain ⟨-, ⟨hput, hconstructs⟩ | ⟨hst, hconstructs⟩⟩ :=
      openPut_new hhonest.key hhonest.value hprobe value
    · rw [hput]
      exact iff_of_true rfl hconstructs
    · exact iff_of_false hst hconstructs

/-! ## Growth -/

/-- The slots of a rehash that has put at most `k` entries: no tombstones, and at most `k` entries. -/
structure Filling (newCount : BitVec w) (m : OpenMap w K V) (k : ℕ) : Prop where
  bucketCount : m.bucketCount = newCount
  clean : Clean m
  card_le : ((Finset.range m.buckets).filter fun i => (m.slots i).state = .occupied).card ≤ k

variable {newCount : BitVec w} {m : OpenMap w K V} {k : ℕ}

/-- While there is room, some slot is empty. -/
theorem Filling.hasEmpty (h : Filling newCount m k) (hroom : k < newCount.toNat) : HasEmpty m := by
  by_contra hnone
  have hall : ∀ i ∈ Finset.range m.buckets, (m.slots i).state = .occupied := by
    intro i hi
    have hi := Finset.mem_range.mp hi
    cases hstate : (m.slots i).state with
    | empty => exact absurd ⟨i, hi, hstate⟩ hnone
    | deleted => exact absurd hstate (h.clean i hi)
    | occupied => rfl
  have hcard := h.card_le
  rw [Finset.filter_true_of_mem hall, Finset.card_range, buckets, h.bucketCount] at hcard
  omega

theorem Filling.skip (h : Filling newCount m k) : Filling newCount m (k + 1) :=
  ⟨h.bucketCount, h.clean, h.card_le.trans (Nat.le_succ k)⟩

/-- Putting an entry into the new slots. -/
theorem Filling.put (h : Filling newCount m k) (hroom : k < newCount.toNat)
    (hhonest : HonestCallbacks cfg.keyPolicy cfg.valuePolicy cfg.hashPolicy) (key : K) (value : V)
    (hok : (openPut cfg m key value).1 = .ok) : Filling newCount (openPut cfg m key value).2 (k + 1) := by
  have hpos : 0 < m.buckets := by
    rw [buckets, h.bucketCount]
    exact Nat.zero_lt_of_lt hroom
  have hempty := h.hasEmpty hroom
  rcases puts cfg hpos key with ⟨d, hd, hpass, hstate, hequal, hprobe⟩ | ⟨hnot, -, -⟩ |
    ⟨hnot, -, -⟩ | ⟨d, hd, hpass, hdead, -, hprobe⟩
  · -- no state changes
    obtain ⟨hput, -⟩ := openPut_over hprobe hequal value
    rw [hput]
    refine ⟨h.bucketCount, fun i hi => ?_, ?_⟩
    · rw [state_assigned]
      exact h.clean i hi
    · simp only [state_assigned]
      exact h.card_le.trans (Nat.le_succ k)
  · exact absurd (.inr hempty) hnot
  · exact absurd (.inr hempty) hnot
  · obtain ⟨-, ⟨hput, -⟩ | ⟨hst, -⟩⟩ := openPut_new hhonest.key hhonest.value hprobe value
    · rw [hput]
      refine ⟨h.bucketCount, h.clean.inserted, ?_⟩
      have hsub : ((Finset.range m.buckets).filter fun i => ((inserted m
            (walk m.buckets (home cfg m.buckets key) d) key value).slots i).state = .occupied) ⊆
          insert (walk m.buckets (home cfg m.buckets key) d)
            ((Finset.range m.buckets).filter fun i => (m.slots i).state = .occupied) := by
        intro i hi
        by_cases heq : i = walk m.buckets (home cfg m.buckets key) d
        · exact Finset.mem_insert.mpr (.inl heq)
        · rw [Finset.mem_filter, slots_inserted_of_ne heq] at hi
          exact Finset.mem_insert.mpr (.inr (Finset.mem_filter.mpr hi))
      exact (Finset.card_le_card hsub).trans ((Finset.card_insert_le _ _).trans
        (Nat.succ_le_succ h.card_le))
    · exact absurd hok hst

/-- **The loop of `open_rehash`** fails only if a copy fails. -/
theorem Filling.loop (hhonest : HonestCallbacks cfg.keyPolicy cfg.valuePolicy cfg.hashPolicy)
    (oldSlots : ℕ → Slot K V) (is : List ℕ) (h : Filling newCount m k)
    (hroom : k + is.length ≤ newCount.toNat) :
    ((rehashLoop cfg oldSlots is m).1 = .ok ↔ ConstructsOk (rehashLoopCopies cfg oldSlots is m)) ∧
      ((rehashLoop cfg oldSlots is m).1 = .ok →
        Filling newCount (rehashLoop cfg oldSlots is m).2 (k + is.length)) := by
  induction is generalizing m k with
  | nil => exact ⟨iff_of_true rfl constructsOk_nil, fun _ => h⟩
  | cons i is ih =>
    rw [List.length_cons] at hroom ⊢
    have hlt : k < newCount.toNat := by omega
    have hadd : k + (is.length + 1) = (k + 1) + is.length := by omega
    rw [hadd] at hroom ⊢
    unfold rehashLoop rehashLoopCopies
    by_cases hdead : (oldSlots i).state ≠ .occupied
    · rw [if_pos hdead, if_pos hdead]
      exact ih h.skip hroom
    rw [if_neg hdead, if_neg hdead]
    have hpos : 0 < m.buckets := by
      rw [buckets, h.bucketCount]
      exact Nat.zero_lt_of_lt hlt
    have hiff := openPut_ok_iff hpos (h.hasEmpty hlt) hhonest (oldSlots i).key (oldSlots i).value
    have hput := h.put hlt hhonest (oldSlots i).key (oldSlots i).value
    dsimp only
    generalize openPut cfg m (oldSlots i).key (oldSlots i).value = r at hiff hput ⊢
    obtain ⟨st, u⟩ := r
    by_cases hst : st = .ok
    · obtain ⟨hloop, hfilling⟩ := ih (hput hst) hroom
      simp only [hst, ne_eq, not_true_eq_false, if_false, constructsOk_append, hiff.mp hst, true_and]
      exact ⟨hloop, hfilling⟩
    · rw [if_pos hst, if_pos hst, List.append_nil]
      exact ⟨hiff, fun hok => absurd hok hst⟩

/-- **`maybe_grow`**: the copies decide whether it succeeds, unless it copies nothing, and then some
slot is empty. -/
theorem maybeGrow_copies (hpos : 0 < s.buckets)
    (hhonest : HonestCallbacks cfg.keyPolicy cfg.valuePolicy cfg.hashPolicy) :
    ((maybeGrow cfg s).1 = .ok →
        ConstructsOk (maybeGrowCopies cfg s) ∧ HasEmpty (maybeGrow cfg s).2) ∧
      ((maybeGrow cfg s).1 ≠ .ok →
        maybeGrowCopies cfg s = [] ∨ ¬ ConstructsOk (maybeGrowCopies cfg s)) := by
  unfold maybeGrow maybeGrowCopies openRehash openRehashCopies
  dsimp only
  by_cases hgrows : growBucketCount s.bucketCount = s.bucketCount
  · simp [hgrows]
  have hdouble := toNat_growBucketCount hpos hgrows
  generalize growBucketCount s.bucketCount = newCount at hgrows hdouble ⊢
  rw [if_neg hgrows, if_neg hgrows]
  by_cases halloc : cfg.allocRaw s.allocs (newCount * cfg.slotStride) ≠ .ok
  · rw [if_pos halloc, if_pos halloc]
    exact ⟨fun hok => absurd hok halloc, fun _ => .inl rfl⟩
  rw [if_neg halloc, if_neg halloc]
  have hroom : s.buckets < newCount.toNat := by
    rw [buckets] at hpos ⊢
    omega
  have hfresh : Filling newCount (freshSlots cfg { s with allocs := s.allocs + 1 } newCount) 0 := by
    refine ⟨rfl, fun i _ hdel => ?_, ?_⟩
    · cases hdel
    · rw [Finset.filter_false_of_mem fun i _ hocc => by cases hocc]
      exact le_refl 0
  obtain ⟨hiff, hfilling⟩ := hfresh.loop hhonest s.slots (List.range s.buckets) (by
    rw [List.length_range]
    omega)
  rw [List.length_range, Nat.zero_add] at hfilling
  have hcount : ({ s with allocs := s.allocs + 1 } : OpenMap w K V).buckets = s.buckets := rfl
  rw [hcount]
  generalize rehashLoop cfg s.slots (List.range s.buckets) _ = r at hiff hfilling ⊢
  by_cases hst : r.1 ≠ .ok
  · rw [if_pos hst]
    exact ⟨fun hok => absurd hok hst, fun _ => .inr fun hconstructs => hst (hiff.mpr hconstructs)⟩
  · rw [if_neg hst]
    rw [not_not] at hst
    exact ⟨fun _ => ⟨hiff.mp hst, (hfilling hst).hasEmpty hroom⟩, fun hnot => absurd rfl hnot⟩

/-- Growth leaves some bucket. -/
theorem buckets_maybeGrow_pos (cfg : HashMapConfig w K V) (hpos : 0 < s.buckets) :
    0 < (maybeGrow cfg s).2.buckets := by
  unfold maybeGrow openRehash
  dsimp only
  by_cases hgrows : growBucketCount s.bucketCount = s.bucketCount
  · rw [if_pos hgrows]
    exact hpos
  have hdouble := toNat_growBucketCount hpos hgrows
  rw [if_neg hgrows]
  split
  · exact hpos
  · split
    · exact hpos
    · have hloop := (rehashLoop_buckets cfg s.slots (List.range s.buckets)
        (freshSlots cfg { s with allocs := s.allocs + 1 } (growBucketCount s.bucketCount))).1
      have hcount : (rehashLoop cfg s.slots (List.range s.buckets)
          (freshSlots cfg { s with allocs := s.allocs + 1 }
            (growBucketCount s.bucketCount))).2.buckets = (growBucketCount s.bucketCount).toNat :=
        congrArg BitVec.toNat hloop
      refine lt_of_lt_of_eq ?_ hcount.symm
      rw [hdouble]
      exact Nat.mul_pos two_pos hpos

/-! ## One call -/

/-- **`put`** is truthful unless the copy over an old value fails, or the value goes into a dead
slot. -/
theorem put_accounts (hpos : 0 < s.buckets)
    (hhonest : HonestCallbacks cfg.keyPolicy cfg.valuePolicy cfg.hashPolicy) (key : K) (value : V) :
    Accounts (putCopies cfg s (some key) (some value))
      (some (put cfg s (some key) (some value)).1)
      (Stores cfg (put cfg s (some key) (some value)).2 key value) (Placeable cfg s key) := by
  have hne : s.bucketCount ≠ 0 := by
    intro hzero
    rw [buckets, hzero] at hpos
    simp at hpos
  unfold put putCopies Placeable
  simp only [if_neg hne]
  by_cases hgrow : shouldGrow cfg.growable s.bucketCount s.size = true
  · obtain ⟨hgrown, hfailed⟩ := maybeGrow_copies hpos hhonest
    simp only [hgrow, if_true, true_or]
    generalize maybeGrow cfg s = r at hgrown hfailed ⊢
    by_cases hst : r.1 = .ok
    · obtain ⟨hconstructs, hempty⟩ := hgrown hst
      have hpos' : 0 < r.2.buckets := Nat.zero_lt_of_lt hempty.choose_spec.1
      have haccounts := openPut_accounts hpos' hhonest key value
      have hiff := openPut_ok_iff hpos' hempty hhonest key value
      simp only [hst, ne_eq, not_true_eq_false, if_false]
      refine ⟨fun hok => constructsOk_append.mpr ⟨hconstructs, haccounts.passed hok⟩,
        fun hok _ => congrArg some (hiff.mpr (constructsOk_append.mp hok).2),
        fun hok hassigns => ?_, fun hnot => absurd trivial hnot⟩
      have hdone := haccounts.done_iff hok (assignsOk_append.mp hassigns).2
      exact iff_of_true (hdone.mpr (.inl (.inr hempty))) trivial
    · simp only [ne_eq, hst, not_false_eq_true, if_true, List.append_nil]
      have hne' : some r.1 ≠ some Status.ok := fun heq => hst (Option.some.inj heq)
      refine ⟨fun hok => absurd hok hne', fun hconstructs hassigns => ?_,
        fun hok => absurd hok hne', fun hnot => absurd trivial hnot⟩
      rcases hfailed hst with hnil | hnot
      · rw [hnil] at hassigns
        exact absurd assignsOk_nil hassigns
      · exact absurd hconstructs hnot
  · rw [Bool.not_eq_true] at hgrow
    simp only [hgrow, Bool.false_eq_true, if_false, false_or]
    exact openPut_accounts hpos hhonest key value

/-- **`get`** is truthful unless the copy of the value fails, or the value is that of another
key. -/
theorem openGet_accounts (hpos : 0 < s.buckets) (hvalue : cfg.valuePolicy.Faithful) (key : K)
    (out : V) :
    Accounts (openGetCopies cfg s key out) (some (openGet cfg s key out).1.1)
      (Stores cfg s key (openGet cfg s key out).1.2) (Answerable cfg s key) := by
  have hprobed := openProbe_probed cfg s hpos key false
  unfold openGetCopies openGet
  dsimp only
  generalize hresult : openProbe cfg s key false = result at hprobed
  cases hprobed with
  | empty d hd hpass hstate =>
    have hgood : Answerable cfg s key := .inr ⟨_, walk_lt hpos _ _, hstate⟩
    exact ⟨nofun, fun _ hassigns => absurd assignsOk_nil hassigns, nofun, fun hbad => absurd hgood hbad⟩
  | hit d hd hpass hstate hequal =>
    have hstored : StoredAt cfg s key (walk s.buckets (home cfg s.buckets key) d) :=
      ⟨⟨walk_lt hpos _ _, hstate⟩, hequal⟩
    refine ⟨fun _ => constructsOk_assign, fun _ _ => rfl, fun _ hassigns => iff_of_true ?_
      (.inl ⟨_, hstored⟩), fun hbad => absurd (.inl ⟨_, hstored⟩) hbad⟩
    exact ⟨_, hresult, hstored, (hvalue _ _ _ (assignsOk_assign.mp hassigns)).symm⟩
  | cycled hpass =>
    have hnot := not_answerable_of_passes hpos hpass
    exact ⟨fun _ => constructsOk_assign, fun _ _ => rfl,
      fun _ _ => iff_of_false (fun hstores => hnot hstores.answerable) hnot, fun _ => rfl⟩

/-- **A call** is truthful exactly if no failure of a copy is dropped and the fall-through of the
probe does not mislead it. -/
theorem truthfulCall_iff (hpos : 0 < s.buckets)
    (hhonest : HonestCallbacks cfg.keyPolicy cfg.valuePolicy cfg.hashPolicy) (c : Call K V) :
    TruthfulCall cfg s c ↔ NoneDropped (copyCalls cfg s c) ∧ NotMisled cfg s c := by
  have hnone : NoneDropped [] := fun _ => assignsOk_nil
  cases c with
  | put key value =>
    cases key with
    | none => exact iff_of_true (truthful_nil nofun) ⟨hnone, trivial⟩
    | some key =>
      cases value with
      | none => exact iff_of_true (truthful_nil nofun) ⟨hnone, trivial⟩
      | some value => exact (put_accounts hpos hhonest key value).truthful_iff
  | get key out =>
    cases key with
    | none => exact iff_of_true (truthful_nil nofun) ⟨hnone, trivial⟩
    | some key =>
      cases out with
      | none => exact iff_of_true (truthful_nil nofun) ⟨hnone, trivial⟩
      | some out => exact (openGet_accounts hpos hhonest.value key out).truthful_iff
  | remove key => exact iff_of_true (truthful_nil fun _ => trivial) ⟨hnone, trivial⟩
  | contains key => exact iff_of_true (truthful_nil fun _ => trivial) ⟨hnone, trivial⟩
  | clear => exact iff_of_true (truthful_nil fun _ => trivial) ⟨hnone, trivial⟩

/-- Every call leaves some bucket, whatever the copies return. -/
theorem buckets_call_pos (hpos : 0 < s.buckets) (c : Call K V) : 0 < (call cfg s c).2.buckets := by
  have hput : ∀ (t : OpenMap w K V) (key : K) (value : V),
      (openPut cfg t key value).2.buckets = t.buckets := fun t key value =>
    congrArg BitVec.toNat (bucketCount_openPut cfg t key value)
  cases c with
  | put key value =>
    show 0 < (put cfg s key value).2.buckets
    unfold put
    split
    · split
      · exact hpos
      · split
        · have hgrown := buckets_maybeGrow_pos cfg hpos
          dsimp only
          split
          · exact hgrown
          · rw [hput]
            exact hgrown
        · rw [hput]
          exact hpos
    · exact hpos
  | get key out =>
    obtain ⟨n, hn⟩ := get_map cfg s key out
    show 0 < (get cfg s key out).2.buckets
    rw [hn]
    exact hpos
  | remove key =>
    show 0 < (remove cfg s key).2.buckets
    unfold remove openRemove
    cases key with
    | none => exact hpos
    | some key =>
      dsimp only
      split
      · exact hpos
      · exact hpos
  | contains key => exact hpos
  | clear =>
    have hne : s.bucketCount ≠ 0 := by
      intro hzero
      rw [buckets, hzero] at hpos
      simp at hpos
    show 0 < (clear cfg s).buckets
    rw [clear, if_neg hne, buckets]
    exact lt_of_lt_of_eq hpos (congrArg BitVec.toNat (bucketCount_foldl_clearSlot _).symm)

/-- **After any calls**, whatever the callbacks return, a call is truthful exactly if no failure of a
copy is dropped and the fall-through of the probe does not mislead it. -/
theorem truthfulCall_reachable_iff (cfg : HashMapConfig w K V)
    (hhonest : HonestCallbacks cfg.keyPolicy cfg.valuePolicy cfg.hashPolicy) {memory : ℕ → Slot K V}
    {bucketCount : BitVec w} {s₀ : OpenMap w K V}
    (hinit : initOpen true memory bucketCount cfg.slotStride = .ok s₀) (calls : List (Call K V))
    (c : Call K V) :
    TruthfulCall cfg (Mealy.final (call cfg) s₀ calls) c ↔
      NoneDropped (copyCalls cfg (Mealy.final (call cfg) s₀ calls) c) ∧
        NotMisled cfg (Mealy.final (call cfg) s₀ calls) c := by
  have hcalls : Mealy.EveryCall (call cfg) (fun _ _ => True) s₀ calls := Mealy.everyCall_true s₀ calls
  have hpos := hcalls.final_invariant (fun s => 0 < s.buckets) (fun s c h _ => buckets_call_pos h c)
    (initOpen_spec hinit).1
  exact truthfulCall_iff hpos hhonest c

end OpenMap

end Memkit
