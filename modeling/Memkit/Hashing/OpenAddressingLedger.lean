import Memkit.Core.EntryLedger
import Memkit.Hashing.OpenAddressingBlocks
import Memkit.Hashing.OpenAddressingMap

/-! # The objects of the open-addressing hash map

A ledger of the keys and values in the slots. Growth copies the entries to the slots of another block
and does not destroy those in the old one, and a probe that cycles through a full table reports a
slot that need not hold an entry, which `open_remove` destroys.

* **`PlacedMap`** — the map, with the block that its slots are in.
* **`KeepsObjects`** — the calls that do neither.
* **`settledRuns`** — in a run of such calls every object is constructed in a place without one and
  destroyed once. -/

namespace Memkit

open EntryLedger
open Ledger (Event)

namespace OpenMap

variable {w : ℕ} {K V : Type*}

/-! ## Events -/

/-- The place of a slot: its block and its number. -/
abbrev Place := ℕ × ℕ

/-- The events of `open_put`, with the slots in block `b`. -/
def openPutEvents (cfg : HashMapConfig w K V) (b : ℕ) (s : OpenMap w K V) (key : K) (value : V) :
    List (Event (Part × Place)) :=
  let (state, index) := openProbe cfg s key true
  if state = .occupied then []
  else
    constructBoth (b, index)
      (cfg.keyPolicy.copyConstruct s.copies (s.slots index).key key).1
      (cfg.valuePolicy.copyConstruct (s.copies + 1) (s.slots index).value value).1

/-- The events of `open_remove`. -/
def openRemoveEvents (cfg : HashMapConfig w K V) (b : ℕ) (s : OpenMap w K V) (key : K) :
    List (Event (Part × Place)) :=
  let (state, index) := openProbe cfg s key false
  if state ≠ .occupied then [] else destroyBoth (b, index)

/-- The events of `open_clear`, which looks at every slot once. -/
def openClearEvents (b : ℕ) (s : OpenMap w K V) : List (Event (Part × Place)) :=
  (List.range s.buckets).flatMap fun i =>
    if (s.slots i).state = .occupied then destroyBoth (b, i) else []

/-- The events of the loop of `open_rehash`, with the new slots in block `b`. -/
def rehashEvents (cfg : HashMapConfig w K V) (oldSlots : ℕ → Slot K V) (b : ℕ) :
    List ℕ → OpenMap w K V → List (Event (Part × Place))
  | [], _ => []
  | i :: is, s =>
    if (oldSlots i).state ≠ .occupied then rehashEvents cfg oldSlots b is s
    else
      openPutEvents cfg b s (oldSlots i).key (oldSlots i).value ++
        let (st, s) := openPut cfg s (oldSlots i).key (oldSlots i).value
        if st ≠ .ok then [] else rehashEvents cfg oldSlots b is s

/-- The block of the slots that `open_rehash` obtains next; block 0 is the first one. -/
def nextBlock (s : OpenMap w K V) : ℕ := s.allocs + 1

/-- The events of `maybe_grow`: those of the loop of `open_rehash`. -/
def maybeGrowEvents (cfg : HashMapConfig w K V) (s : OpenMap w K V) :
    List (Event (Part × Place)) :=
  let newCount := growBucketCount s.bucketCount
  if newCount = s.bucketCount then []
  else if cfg.allocRaw s.allocs (newCount * cfg.slotStride) ≠ .ok then []
  else
    rehashEvents cfg s.slots s.nextBlock (List.range s.buckets)
      (freshSlots cfg { s with allocs := s.allocs + 1 } newCount)

/-- The map, with the block that its slots are in. -/
structure PlacedMap (w : ℕ) (K V : Type*) where
  map : OpenMap w K V
  block : ℕ

/-- A call; growth moves the slots to another block. -/
def PlacedMap.call (cfg : HashMapConfig w K V) (p : PlacedMap w K V) (c : Call K V) :
    Reply V × PlacedMap w K V :=
  ((OpenMap.call cfg p.map c).1,
    { map := (OpenMap.call cfg p.map c).2
      block := if grows cfg p.map c then p.map.nextBlock else p.block })

/-- The events of a call. -/
def callEvents (cfg : HashMapConfig w K V) (p : PlacedMap w K V) :
    Call K V → List (Event (Part × Place))
  | .put (some key) (some value) =>
    if p.map.bucketCount = 0 then []
    else if shouldGrow cfg.growable p.map.bucketCount p.map.size then
      let (growSt, s) := maybeGrow cfg p.map
      maybeGrowEvents cfg p.map ++
        if growSt ≠ .ok then [] else openPutEvents cfg p.map.nextBlock s key value
    else openPutEvents cfg p.block p.map key value
  | .remove (some key) => openRemoveEvents cfg p.block p.map key
  | .clear => if p.map.bucketCount = 0 then [] else openClearEvents p.block p.map
  | _ => []

/-! ## The condition -/

/-- The first entry that the loop of `open_rehash` puts into the new slots is put. -/
def movesFirst (cfg : HashMapConfig w K V) (s : OpenMap w K V) (newCount : BitVec w) : Bool :=
  match (List.range s.buckets).find? fun i => (s.slots i).state = .occupied with
  | none => false
  | some i =>
    (openPut cfg (freshSlots cfg { s with allocs := s.allocs + 1 } newCount) (s.slots i).key
      (s.slots i).value).1 = .ok

/-- Growth copies at least one entry. -/
def GrowthMoves (cfg : HashMapConfig w K V) (s : OpenMap w K V) : Prop :=
  s.bucketCount ≠ 0 ∧ shouldGrow cfg.growable s.bucketCount s.size = true ∧
    growBucketCount s.bucketCount ≠ s.bucketCount ∧
    cfg.allocRaw s.allocs (growBucketCount s.bucketCount * cfg.slotStride) = .ok ∧
    movesFirst cfg s (growBucketCount s.bucketCount) = true

instance (cfg : HashMapConfig w K V) (s : OpenMap w K V) : Decidable (GrowthMoves cfg s) :=
  inferInstanceAs (Decidable (_ ∧ _))

/-- The probe of `open_remove` stops at an entry if it says so. -/
def ProbeEndsAtEntry (cfg : HashMapConfig w K V) (s : OpenMap w K V) (key : K) : Prop :=
  (openProbe cfg s key false).1 = .occupied →
    (s.slots (openProbe cfg s key false).2).state = .occupied

instance (cfg : HashMapConfig w K V) (s : OpenMap w K V) (key : K) :
    Decidable (ProbeEndsAtEntry cfg s key) :=
  inferInstanceAs (Decidable (_ → _))

/-- **The condition**: a put does not grow a table with entries, and a remove does not destroy a slot
that has none. -/
def KeepsObjects (cfg : HashMapConfig w K V) (s : OpenMap w K V) : Call K V → Prop
  | .put (some _) (some _) => ¬ GrowthMoves cfg s
  | .remove (some key) => ProbeEndsAtEntry cfg s key
  | _ => True

instance (cfg : HashMapConfig w K V) (s : OpenMap w K V) :
    ∀ c, Decidable (KeepsObjects cfg s c)
  | .put (some _) (some _) => inferInstanceAs (Decidable (¬ _))
  | .put none _ => isTrue trivial
  | .put (some _) none => isTrue trivial
  | .get _ _ => isTrue trivial
  | .remove (some key) => inferInstanceAs (Decidable (ProbeEndsAtEntry cfg s key))
  | .remove none => isTrue trivial
  | .contains _ => isTrue trivial
  | .clear => isTrue trivial

variable {cfg : HashMapConfig w K V} {s u : OpenMap w K V} {key : K} {value : V} {b : ℕ}
  {l : Ledger (Part × Place)} {live : Set Place}

/-! ## One operation -/

/-- The places of the live slots. -/
def places (b : ℕ) (s : OpenMap w K V) : Set Place := {place | place.1 = b ∧ Live s place.2}

theorem places_congr (h : ∀ i, Live u i ↔ Live s i) : places b u = places b s := by
  ext place
  exact and_congr_right fun _ => h place.2

/-- One slot is written, and its entry stays or stays away. -/
theorem live_of_keep {index : ℕ} {slot : Slot K V} (hcount : u.bucketCount = s.bucketCount)
    (hslots : u.slots = Function.update s.slots index slot)
    (hstate : slot.state = .occupied ↔ (s.slots index).state = .occupied) (i : ℕ) :
    Live u i ↔ Live s i := by
  rw [Live, Live, buckets, buckets, hcount, hslots]
  by_cases hi : i = index
  · rw [hi, Function.update_self, hstate]
  · rw [Function.update_of_ne hi]

/-- One slot is written, and has an entry then. -/
theorem live_of_fill {index : ℕ} {slot : Slot K V} (hcount : u.bucketCount = s.bucketCount)
    (hslots : u.slots = Function.update s.slots index slot) (hstate : slot.state = .occupied)
    (hindex : index < s.buckets) (i : ℕ) : Live u i ↔ i = index ∨ Live s i := by
  rw [Live, Live, buckets, hcount, hslots]
  by_cases hi : i = index
  · rw [hi, Function.update_self]
    exact iff_of_true ⟨hindex, hstate⟩ (.inl rfl)
  · rw [Function.update_of_ne hi]
    exact ⟨.inr, fun h => h.resolve_left hi⟩

/-- A probe for an insertion that does not say `occupied` stops at a slot without an entry. -/
theorem probe_free (hpos : 0 < s.buckets)
    (hne : (openProbe cfg s key true).1 ≠ .occupied) :
    (openProbe cfg s key true).2 < s.buckets ∧
      (s.slots (openProbe cfg s key true).2).state ≠ .occupied := by
  have hprobed := openProbe_probed cfg s hpos key true
  generalize openProbe cfg s key true = p at hprobed hne
  cases hprobed with
  | empty d hd hpass hempty =>
    rw [target, if_pos rfl]
    rcases hfirst : firstTombstone s.slots s.buckets (home cfg s.buckets key) d with _ | i
    · refine ⟨walk_lt hpos _ _, ?_⟩
      rw [Option.getD_none, hempty]
      decide
    · obtain ⟨hdeleted, e, -, rfl⟩ := firstTombstone_eq_some hfirst
      refine ⟨walk_lt hpos _ _, ?_⟩
      rw [Option.getD_some, hdeleted]
      decide
  | hit d hd hpass hoccupied hequal => exact absurd rfl hne
  | cycled hpass => exact absurd rfl hne

/-- The copies of `open_put` to a slot. -/
def CopiesOk (cfg : HashMapConfig w K V) (s : OpenMap w K V) (key : K) (value : V) : Prop :=
  (cfg.keyPolicy.copyConstruct s.copies (s.slots (openProbe cfg s key true).2).key key).1 = .ok ∧
    (cfg.valuePolicy.copyConstruct (s.copies + 1)
      (s.slots (openProbe cfg s key true).2).value value).1 = .ok

/-- `open_put` where the probe says `occupied`: no slot gets an entry or loses one. -/
theorem openPut_of_occupied (hstate : (openProbe cfg s key true).1 = .occupied) (value : V) :
    (openPut cfg s key value).2.bucketCount = s.bucketCount ∧
      ∀ i, Live (openPut cfg s key value).2 i ↔ Live s i := by
  unfold openPut
  dsimp only
  rw [if_pos hstate]
  split
  · exact ⟨rfl, live_of_keep rfl rfl Iff.rfl⟩
  · exact ⟨rfl, fun _ => Iff.rfl⟩

/-- `open_put` where it does not: the slot gets an entry if both copies are ok. -/
theorem openPut_of_free (hpos : 0 < s.buckets)
    (hstate : (openProbe cfg s key true).1 ≠ .occupied) (value : V) :
    (openPut cfg s key value).2.bucketCount = s.bucketCount ∧
      ((openPut cfg s key value).1 = .ok ↔ CopiesOk cfg s key value) ∧
      (CopiesOk cfg s key value → ∀ i, Live (openPut cfg s key value).2 i ↔
        i = (openProbe cfg s key true).2 ∨ Live s i) ∧
      (¬ CopiesOk cfg s key value → ∀ i, Live (openPut cfg s key value).2 i ↔ Live s i) := by
  obtain ⟨hindex, hfree⟩ := probe_free hpos hstate
  unfold openPut CopiesOk
  dsimp only
  rw [if_neg hstate]
  split
  · next hkey =>
    refine ⟨rfl, iff_of_false hkey fun h => hkey h.1, fun h => absurd h.1 hkey, fun _ => ?_⟩
    exact live_of_keep rfl rfl Iff.rfl
  next hkey =>
  rw [not_not] at hkey
  split
  · next hvalue =>
    refine ⟨rfl, iff_of_false hvalue fun h => hvalue h.2, fun h => absurd h.2 hvalue, fun _ => ?_⟩
    refine live_of_keep rfl (Function.update_idem _ _ _) (iff_of_false nofun hfree)
  · next hvalue =>
    rw [not_not] at hvalue
    refine ⟨rfl, iff_of_true rfl ⟨hkey, hvalue⟩, fun _ => ?_, fun h => absurd ⟨hkey, hvalue⟩ h⟩
    exact live_of_fill rfl (Function.update_idem _ _ _) rfl hindex

theorem openPut_bucketCount (cfg : HashMapConfig w K V) (s : OpenMap w K V) (key : K) (value : V) :
    (openPut cfg s key value).2.bucketCount = s.bucketCount := by
  unfold openPut
  dsimp only
  repeat' split
  all_goals rfl

/-- **`open_put`** keeps the ledger in step with the live slots. -/
theorem replay_openPutEvents (hpos : 0 < s.buckets) (hl : l.Holds (bothParts (places b s)))
    (value : V) :
    (l.replay (openPutEvents cfg b s key value)).Holds
      (bothParts (places b (openPut cfg s key value).2)) := by
  unfold openPutEvents
  dsimp only
  by_cases hstate : (openProbe cfg s key true).1 = .occupied
  · rw [if_pos hstate, places_congr (openPut_of_occupied hstate value).2]
    exact hl
  · have hnew : (b, (openProbe cfg s key true).2) ∉ places b s := fun hmem =>
      (probe_free hpos hstate).2 hmem.2.2
    obtain ⟨-, -, hfills, hkeeps⟩ := openPut_of_free hpos hstate value
    rw [if_neg hstate]
    by_cases hok : CopiesOk cfg s key value
    · have hplaces : places b (openPut cfg s key value).2 =
          insert (b, (openProbe cfg s key true).2) (places b s) := by
        ext ⟨c, i⟩
        rw [Set.mem_insert_iff, Prod.mk.injEq]
        show c = b ∧ Live _ i ↔ _
        rw [hfills hok i]
        exact ⟨fun h => h.2.imp (fun hi => ⟨h.1, hi⟩) fun hi => ⟨h.1, hi⟩,
          fun h => h.elim (fun h => ⟨h.1, .inl h.2⟩) fun h => ⟨h.1, .inr h.2⟩⟩
      rw [hplaces]
      exact replay_constructBoth hl hnew hok.1 hok.2
    · rw [places_congr (hkeeps hok)]
      exact replay_constructBoth_fail hl hnew hok

/-- A failed `open_put` to slots without objects leaves none behind. -/
theorem replay_openPutEvents_fail (hpos : 0 < s.buckets) (hl : l.Holds (bothParts live))
    (hblock : ∀ i, (b, i) ∉ live) (hfail : (openPut cfg s key value).1 ≠ .ok) :
    (l.replay (openPutEvents cfg b s key value)).Holds (bothParts live) := by
  unfold openPutEvents
  dsimp only
  by_cases hstate : (openProbe cfg s key true).1 = .occupied
  · rw [if_pos hstate]
    exact hl
  · rw [if_neg hstate]
    refine replay_constructBoth_fail hl (hblock _) fun hok => hfail ?_
    exact (openPut_of_free hpos hstate value).2.1.mpr hok

/-- A probe for a removal that says `occupied` stops at a slot of the table. -/
theorem probe_lt (hpos : 0 < s.buckets) (hstate : (openProbe cfg s key false).1 = .occupied) :
    (openProbe cfg s key false).2 < s.buckets := by
  have hprobed := openProbe_probed cfg s hpos key false
  generalize openProbe cfg s key false = p at hprobed hstate
  cases hprobed with
  | empty d hd hpass hempty => cases hstate
  | hit d hd hpass hoccupied hequal => exact walk_lt hpos _ _
  | cycled hpass => exact walk_lt hpos _ _

/-- **`open_remove`**, where its probe ends at an entry. -/
theorem replay_openRemoveEvents (hpos : 0 < s.buckets) (hentry : ProbeEndsAtEntry cfg s key)
    (hl : l.Holds (bothParts (places b s))) :
    (l.replay (openRemoveEvents cfg b s key)).Holds
      (bothParts (places b (openRemove cfg s key).2)) := by
  unfold openRemoveEvents openRemove
  dsimp only
  by_cases hstate : (openProbe cfg s key false).1 = .occupied
  · have hlt := probe_lt hpos hstate
    have hlive : (b, (openProbe cfg s key false).2) ∈ places b s := ⟨rfl, hlt, hentry hstate⟩
    have hplaces : places b (vacated cfg s (openProbe cfg s key false).2) =
        places b s \ {(b, (openProbe cfg s key false).2)} := by
      ext ⟨c, i⟩
      rw [Set.mem_sdiff, Set.mem_singleton_iff, Prod.mk.injEq]
      show c = b ∧ Live _ i ↔ (c = b ∧ Live s i) ∧ _
      rw [live_vacated]
      exact ⟨fun h => ⟨⟨h.1, h.2.2⟩, fun heq => h.2.1 heq.2⟩,
        fun h => ⟨h.1.1, fun hi => h.2 ⟨h.1.1, hi⟩, h.1.2⟩⟩
    rw [if_neg (not_not.mpr hstate), if_neg (not_not.mpr hstate)]
    show Ledger.Holds _ (bothParts (places b (vacated cfg s (openProbe cfg s key false).2)))
    rw [hplaces]
    exact replay_destroyBoth hl hlive
  · rw [if_pos hstate, if_pos hstate]
    exact hl

/-- **`open_clear`** ends every object. -/
theorem replay_openClearEvents (hl : l.Holds (bothParts (places b s))) :
    (l.replay (openClearEvents b s)).Holds ∅ := by
  have hevents : openClearEvents b s =
      (((List.range s.buckets).filter fun i => (s.slots i).state = .occupied).map
        fun i => (b, i)).flatMap destroyBoth := by
    rw [openClearEvents, List.flatMap_map]
    induction List.range s.buckets with
    | nil => rfl
    | cons i is ih =>
      rw [List.flatMap_cons, List.filter_cons, ih]
      by_cases hi : (s.slots i).state = .occupied
      · simp [hi]
      · simp [hi]
  have hplaces : places b s = {place | place ∈
      ((List.range s.buckets).filter fun i => (s.slots i).state = .occupied).map
        fun i => (b, i)} := by
    ext ⟨c, i⟩
    simp [places, Live, eq_comm, and_comm]
  have hnodup : (((List.range s.buckets).filter fun i => (s.slots i).state = .occupied).map
      fun i => (b, i)).Nodup :=
    (List.nodup_range.filter _).map fun i j h => (Prod.mk.inj h).2
  rw [hevents]
  rw [hplaces] at hl
  exact replay_flatMap_destroyBoth hl hnodup

/-! ## Growth -/

/-- The loop of `open_rehash` where no entry is put: there is none, or the first one fails. -/
theorem rehashLoop_of_none {oldSlots : ℕ → Slot K V} {is : List ℕ} (hpos : 0 < s.buckets)
    (hblock : ∀ i, (b, i) ∉ live) (hl : l.Holds (bothParts live))
    (hfirst : ∀ i, is.find? (fun i => (oldSlots i).state = .occupied) = some i →
      (openPut cfg s (oldSlots i).key (oldSlots i).value).1 ≠ .ok) :
    (l.replay (rehashEvents cfg oldSlots b is s)).Holds (bothParts live) ∧
      ((rehashLoop cfg oldSlots is s).1 = .ok →
        (∀ i ∈ is, (oldSlots i).state ≠ .occupied) ∧ (rehashLoop cfg oldSlots is s).2 = s) := by
  induction is with
  | nil => exact ⟨hl, fun _ => ⟨List.forall_mem_nil _, rfl⟩⟩
  | cons i is ih =>
    rw [rehashEvents, rehashLoop]
    dsimp only
    by_cases hi : (oldSlots i).state = .occupied
    · have hfail := hfirst i (by simp [hi])
      rw [if_neg (not_not.mpr hi), if_neg (not_not.mpr hi), if_pos hfail, if_pos hfail,
        List.append_nil]
      exact ⟨replay_openPutEvents_fail hpos hl hblock hfail, fun hok => absurd hok hfail⟩
    · obtain ⟨hheld, hok⟩ := ih fun j hj => hfirst j (by simpa [hi] using hj)
      rw [if_pos hi, if_pos hi]
      refine ⟨hheld, fun h => ⟨?_, (hok h).2⟩⟩
      exact List.forall_mem_cons.mpr ⟨hi, (hok h).1⟩

/-- **`maybe_grow`** that copies no entry: nothing is constructed, and the live slots, in whatever
block they are, are none or the old ones. -/
theorem maybeGrow_keeps (cfg : HashMapConfig w K V) (hpos : 0 < s.buckets) (hb : b ≤ s.allocs)
    (hl : l.Holds (bothParts (places b s)))
    (hmoves : ¬ (growBucketCount s.bucketCount ≠ s.bucketCount ∧
      cfg.allocRaw s.allocs (growBucketCount s.bucketCount * cfg.slotStride) = .ok ∧
      movesFirst cfg s (growBucketCount s.bucketCount) = true)) :
    let b' := if (maybeGrow cfg s).1 = .ok then s.nextBlock else b
    0 < (maybeGrow cfg s).2.buckets ∧ b' ≤ (maybeGrow cfg s).2.allocs ∧
      (l.replay (maybeGrowEvents cfg s)).Holds (bothParts (places b' (maybeGrow cfg s).2)) := by
  intro b'
  unfold b' maybeGrow maybeGrowEvents
  dsimp only
  -- a bucket count that doubles to itself asks for nothing
  by_cases hsame : growBucketCount s.bucketCount = s.bucketCount
  · rw [if_pos hsame, if_pos hsame]
    exact ⟨hpos, hb, hl⟩
  rw [if_neg hsame, if_neg hsame]
  obtain ⟨hallocs, hok⟩ := openRehash_request cfg s (growBucketCount s.bucketCount)
  rw [hallocs]
  by_cases halloc :
      cfg.allocRaw s.allocs (growBucketCount s.bucketCount * cfg.slotStride) = .ok
  · rw [if_neg (not_not.mpr halloc)]
    have hnew : 0 < (freshSlots cfg { s with allocs := s.allocs + 1 }
        (growBucketCount s.bucketCount)).buckets := by
      show 0 < (growBucketCount s.bucketCount).toNat
      rw [toNat_growBucketCount hpos hsame]
      exact Nat.mul_pos (by decide) hpos
    -- the copy of the first entry fails, and the loop stops there
    have hfirst : ∀ i, (List.range s.buckets).find? (fun i => (s.slots i).state = .occupied) =
        some i → (openPut cfg (freshSlots cfg { s with allocs := s.allocs + 1 }
          (growBucketCount s.bucketCount)) (s.slots i).key (s.slots i).value).1 ≠ .ok := by
      intro i hi hput
      refine hmoves ⟨hsame, halloc, ?_⟩
      rw [movesFirst, hi]
      exact decide_eq_true hput
    -- the new block is none of the blocks handed out before
    have hblock : ∀ i, (s.nextBlock, i) ∉ places b s := fun i hmem =>
      absurd hb (Nat.not_le.mpr (hmem.1 ▸ Nat.lt_succ_self _))
    obtain ⟨hheld, hnone⟩ := rehashLoop_of_none hnew hblock hl hfirst
    by_cases hput : (rehashed cfg s (growBucketCount s.bucketCount)).1 = .ok
    · -- a table without entries got other slots
      obtain ⟨hempty, hfresh⟩ := hnone hput
      have hold : places b s = ∅ := Set.eq_empty_of_forall_notMem fun place hmem =>
        hempty place.2 (List.mem_range.mpr hmem.2.1) hmem.2.2
      have hresult : (openRehash cfg s (growBucketCount s.bucketCount)).2 =
          freshSlots cfg { s with allocs := s.allocs + 1 } (growBucketCount s.bucketCount) := by
        rw [openRehash_eq, if_neg (not_not.mpr halloc), if_neg (not_not.mpr hput)]
        exact hfresh
      have hfreshPlaces : places s.nextBlock (freshSlots cfg { s with allocs := s.allocs + 1 }
          (growBucketCount s.bucketCount)) = ∅ :=
        Set.eq_empty_of_forall_notMem fun place hmem => SlotState.noConfusion hmem.2.2
      rw [if_pos (hok.mpr ⟨halloc, hput⟩), hresult, hfreshPlaces]
      refine ⟨hnew, le_rfl, ?_⟩
      rwa [hold] at hheld
    · -- the old slots are put back
      have hresult : (openRehash cfg s (growBucketCount s.bucketCount)).2 =
          { (rehashed cfg s (growBucketCount s.bucketCount)).2 with
            slots := s.slots, bucketCount := s.bucketCount, size := s.size } := by
        rw [openRehash_eq, if_neg (not_not.mpr halloc), if_pos hput]
      rw [if_neg fun h => hput (hok.mp h).2, hresult]
      exact ⟨hpos, Nat.le_succ_of_le hb, hheld⟩
  · -- no memory for the new slots
    have hresult : (openRehash cfg s (growBucketCount s.bucketCount)).2 =
        { s with allocs := s.allocs + 1 } := by
      rw [openRehash_eq, if_pos halloc]
    rw [if_pos halloc, if_neg fun h => halloc (hok.mp h).1, hresult]
    exact ⟨hpos, Nat.le_succ_of_le hb, hl⟩

/-! ## Every call -/

/-- The live objects are those of the entries in the live slots. -/
structure Holding (p : PlacedMap w K V × Ledger (Part × Place)) : Prop where
  pos : 0 < p.1.map.buckets
  block_le : p.1.block ≤ p.1.map.allocs
  holds : p.2.Holds (bothParts (places p.1.block p.1.map))

/-- What `init_open` makes, over an empty ledger. -/
theorem holding_initOpen {hasSlots : Bool} {memory : ℕ → Slot K V}
    {bucketCount slotStride : BitVec w}
    (hinit : initOpen hasSlots memory bucketCount slotStride = .ok s) :
    Holding (⟨s, 0⟩, .empty _) := by
  obtain ⟨hpos, -, hempty⟩ := initOpen_spec hinit
  refine ⟨hpos, Nat.zero_le _, ?_⟩
  have hnone : bothParts (places 0 s) = ∅ := by
    refine Set.eq_empty_of_forall_notMem fun place hmem => ?_
    have hstate := hempty place.2.2 hmem.2.1
    rw [hmem.2.2] at hstate
    cases hstate
  rw [hnone]
  exact Ledger.holds_empty

theorem Holding.bucketCount_ne {p : PlacedMap w K V × Ledger (Part × Place)} (h : Holding p) :
    p.1.map.bucketCount ≠ 0 := by
  intro hzero
  have hpos := h.pos
  rw [buckets, hzero] at hpos
  simp at hpos

/-- A put that copies no entry to other slots. -/
theorem Holding.put {b : ℕ} (h : Holding (⟨s, b⟩, l)) (hkeeps : ¬ GrowthMoves cfg s) :
    Holding (Mealy.tracked (PlacedMap.call cfg) (callEvents cfg) (⟨s, b⟩, l)
      (.put (some key) (some value))).2 := by
  have hne := h.bucketCount_ne
  obtain ⟨hpos, hb, hl⟩ := h
  dsimp only at hpos hb hl hne
  -- the put itself, into whatever slots the table has by then
  have hput : ∀ {u : OpenMap w K V} {b : ℕ} {l : Ledger (Part × Place)}, 0 < u.buckets →
      b ≤ u.allocs → l.Holds (bothParts (places b u)) →
      Holding (⟨(openPut cfg u key value).2, b⟩, l.replay (openPutEvents cfg b u key value)) := by
    intro u b l hpos hb hl
    refine ⟨?_, ?_, replay_openPutEvents hpos hl value⟩
    · show 0 < (openPut cfg u key value).2.bucketCount.toNat
      rw [openPut_bucketCount]
      exact hpos
    · show b ≤ (openPut cfg u key value).2.allocs
      rw [openPut_allocs]
      exact hb
  show Holding (⟨(OpenMap.put cfg s (some key) (some value)).2,
    if grows cfg s (.put (some key) (some value)) then s.nextBlock else b⟩,
    l.replay (callEvents cfg ⟨s, b⟩ (.put (some key) (some value))))
  by_cases hgrow : shouldGrow cfg.growable s.bucketCount s.size = true
  · obtain ⟨hpos', hb', hl'⟩ := maybeGrow_keeps cfg hpos hb hl
      fun hmoves => hkeeps ⟨hne, hgrow, hmoves⟩
    rw [(put_request cfg s key value ⟨hne, hgrow⟩).2]
    -- a put whose growth fails constructs nothing of its own
    by_cases hst : (maybeGrow cfg s).1 = .ok
    · have hcall : OpenMap.put cfg s (some key) (some value) =
          openPut cfg (maybeGrow cfg s).2 key value := by
        simp only [OpenMap.put, hne, if_false, hgrow, if_true, hst, ne_eq, not_true_eq_false]
      have hevents : callEvents cfg ⟨s, b⟩ (.put (some key) (some value)) =
          maybeGrowEvents cfg s ++ openPutEvents cfg s.nextBlock (maybeGrow cfg s).2 key value := by
        simp only [callEvents, hne, if_false, hgrow, if_true, hst, ne_eq, not_true_eq_false]
      rw [if_pos hst] at hb' hl'
      rw [hcall, hevents, decide_eq_true hst, if_pos rfl, Ledger.replay_append]
      exact hput hpos' hb' hl'
    · have hcall : (OpenMap.put cfg s (some key) (some value)).2 = (maybeGrow cfg s).2 := by
        simp only [OpenMap.put, hne, if_false, hgrow, if_true, hst, ne_eq, not_false_eq_true]
      have hevents : callEvents cfg ⟨s, b⟩ (.put (some key) (some value)) =
          maybeGrowEvents cfg s := by
        simp only [callEvents, hne, if_false, hgrow, if_true, hst, ne_eq, not_false_eq_true,
          List.append_nil]
      rw [if_neg hst] at hb' hl'
      rw [hcall, hevents, decide_eq_false hst, if_neg Bool.false_ne_true]
      exact ⟨hpos', hb', hl'⟩
  · rw [Bool.not_eq_true] at hgrow
    have hcall : OpenMap.put cfg s (some key) (some value) = openPut cfg s key value := by
      simp only [OpenMap.put, hne, if_false, hgrow, Bool.false_eq_true]
    have hevents : callEvents cfg ⟨s, b⟩ (.put (some key) (some value)) =
        openPutEvents cfg b s key value := by
      simp only [callEvents, hne, if_false, hgrow, Bool.false_eq_true]
    have hgrows : grows cfg s (.put (some key) (some value)) = false := by
      simp [grows, hgrow]
    rw [hcall, hevents, hgrows, if_neg Bool.false_ne_true]
    exact hput hpos hb hl

/-- `clear` ends all objects. -/
theorem Holding.clear {b : ℕ} (h : Holding (⟨s, b⟩, l)) :
    Holding (Mealy.tracked (PlacedMap.call cfg) (callEvents cfg) (⟨s, b⟩, l) .clear).2 := by
  have hne : s.bucketCount ≠ 0 := h.bucketCount_ne
  obtain ⟨hpos, hb, hl⟩ := h
  have hcount : (openClear cfg s).bucketCount = s.bucketCount := bucketCount_foldl_clearSlot _
  have hclear : OpenMap.clear cfg s = { openClear cfg s with size := 0 } := by
    rw [OpenMap.clear, if_neg hne]
  have hevents : callEvents cfg ⟨s, b⟩ .clear = openClearEvents b s := if_neg hne
  show Holding (⟨OpenMap.clear cfg s, b⟩, l.replay (callEvents cfg ⟨s, b⟩ .clear))
  rw [hclear, hevents]
  refine ⟨?_, ?_, ?_⟩
  · show 0 < (openClear cfg s).bucketCount.toNat
    rw [hcount]
    exact hpos
  · exact hb.trans (foldl_clearSlot_allocs cfg _ s).ge
  · have hnone : bothParts (places b { openClear cfg s with size := 0 }) = ∅ := by
      refine Set.eq_empty_of_forall_notMem fun place hmem => ?_
      have hlt : place.2.2 < s.buckets := hmem.2.1.trans_eq (congrArg BitVec.toNat hcount)
      have hstate : ((openClear cfg s).slots place.2.2).state = .empty :=
        (state_foldl_clearSlot s.buckets place.2.2).trans (if_pos hlt)
      have hoccupied : ((openClear cfg s).slots place.2.2).state = .occupied := hmem.2.2
      rw [hstate] at hoccupied
      cases hoccupied
    rw [hnone]
    exact replay_openClearEvents hl

theorem Holding.call {p : PlacedMap w K V × Ledger (Part × Place)} (h : Holding p) {c : Call K V}
    (hkeeps : KeepsObjects cfg p.1.map c) :
    Holding (Mealy.tracked (PlacedMap.call cfg) (callEvents cfg) p c).2 := by
  obtain ⟨⟨s, b⟩, l⟩ := p
  obtain ⟨hpos, hb, hl⟩ := id h
  dsimp only at hpos hb hl hkeeps
  rcases c with ⟨_ | key, _ | value⟩ | ⟨_ | key, _ | out⟩ | (_ | key) | key | _
  case put.some.some => exact h.put hkeeps
  case get.some.some =>
    obtain ⟨n, hget⟩ := get_map cfg s (some key) (some out)
    show Holding (⟨(OpenMap.get cfg s (some key) (some out)).2, b⟩, l)
    rw [hget]
    exact ⟨hpos, hb, hl⟩
  case remove.some =>
    have hlife : (openRemove cfg s key).2.bucketCount = s.bucketCount ∧
        (openRemove cfg s key).2.allocs = s.allocs := by
      unfold openRemove
      dsimp only
      split <;> exact ⟨rfl, rfl⟩
    refine ⟨?_, ?_, replay_openRemoveEvents hpos hkeeps hl⟩
    · show 0 < (openRemove cfg s key).2.bucketCount.toNat
      rw [hlife.1]
      exact hpos
    · show b ≤ (openRemove cfg s key).2.allocs
      rw [hlife.2]
      exact hb
  case clear => exact h.clear
  all_goals exact ⟨hpos, hb, hl⟩

/-- **The objects of the slots**, in a run of calls that keep them, on an initialised map: every one
is constructed in a place without an object and destroyed once. -/
theorem Holding.settledRuns {p : PlacedMap w K V × Ledger (Part × Place)} (h : Holding p) :
    SettledRuns (Mealy.tracked (PlacedMap.call cfg) (callEvents cfg))
      (fun p c => KeepsObjects cfg p.1.map c) Prod.snd .clear p := by
  refine SettledRuns.of_invariant Holding (fun p c hp hgood => hp.call hgood) h
    (fun p hp => hp.holds.no_fault) fun p hp => ?_
  have hne : p.1.map.bucketCount ≠ 0 := hp.bucketCount_ne
  show Ledger.Holds (p.2.replay (if p.1.map.bucketCount = 0 then [] else _)) ∅
  rw [if_neg hne]
  exact replay_openClearEvents hp.holds

end OpenMap

end Memkit
