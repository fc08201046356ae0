import Memkit.Foundations.Transition

/-! # The double buffer

`detail/double_buffer_core.hpp`: two slots of `slot_capacity_` elements each, and an atomic index of
the readable one. One producer repeats `write_slot`, one write for each element of a block, and
`publish`; one consumer repeats `read_slot` and one read for each element. A step of the interleaving
is one access to shared memory.

* **`DoubleBuffer`** — the shared memory, where each role is, and the blocks published.
* **`Isolated`** — what the consumer has read through one pointer is the beginning of one published
  block.
* **`isolated_of_untouched`** — so it is as long as the producer does not write what the consumer
  has yet to read, and `torn_read` is what happens otherwise. -/

namespace Memkit

/-- Where the producer is. -/
inductive Producer (T : Type*)
  | idle
  /-- It holds the pointer from `write_slot` and has written these elements of its block. -/
  | filling (slot : BitVec 8) (written : List T)
  /-- Inside `publish`, between the load and the store. -/
  | publishing (slot : BitVec 8) (written : List T) (writeIndex : BitVec 8)
  deriving DecidableEq, Repr

/-- Where the consumer is. -/
inductive Consumer (T : Type*)
  | idle
  /-- It holds the pointer from `read_slot` and has read these elements through it. -/
  | reading (slot : BitVec 8) (got : List T)
  deriving DecidableEq, Repr

/-- The shared memory, the two roles, and the blocks published and received. -/
structure DoubleBuffer (T : Type*) where
  /-- `readable_`. -/
  readable : BitVec 8
  /-- The elements of the slots. -/
  slots : BitVec 8 → ℕ → T
  producer : Producer T
  consumer : Consumer T
  published : List (List T)
  received : List (List T)

namespace DoubleBuffer

open Transition

variable {T : Type*}

/-- What happens next. -/
inductive Label (T : Type*)
  | writeSlot
  /-- The producer writes the next element of its block. -/
  | write (value : T)
  /-- The load in `publish`. -/
  | publishLoad
  /-- The store in `publish`. -/
  | publishStore
  | readSlot
  /-- The consumer reads the next element. -/
  | read
  /-- The consumer has read the whole block and drops the pointer. -/
  | finish
  deriving DecidableEq, Repr

/-- One step, for blocks of `len` elements. -/
def step (len : ℕ) (s : DoubleBuffer T) : Label T → Option (DoubleBuffer T)
  | .writeSlot =>
    match s.producer with
    | .idle => some { s with producer := .filling (1 - s.readable) [] }
    | _ => none
  | .write v =>
    match s.producer with
    | .filling slot written =>
      if written.length < len then
        some { s with
          slots := Function.update s.slots slot (Function.update (s.slots slot) written.length v)
          producer := .filling slot (written ++ [v]) }
      else none
    | _ => none
  | .publishLoad =>
    match s.producer with
    | .filling slot written =>
      if written.length = len then
        some { s with producer := .publishing slot written (1 - s.readable) }
      else none
    | _ => none
  | .publishStore =>
    match s.producer with
    | .publishing _ written writeIndex =>
      some { s with
        readable := writeIndex
        producer := .idle
        published := s.published ++ [written] }
    | _ => none
  | .readSlot =>
    match s.consumer with
    | .idle => if s.published = [] then none else some { s with consumer := .reading s.readable [] }
    | _ => none
  | .read =>
    match s.consumer with
    | .reading slot got =>
      if got.length < len then
        some { s with consumer := .reading slot (got ++ [s.slots slot got.length]) }
      else none
    | _ => none
  | .finish =>
    match s.consumer with
    | .reading _ got =>
      if got.length = len then
        some { s with consumer := .idle, received := s.received ++ [got] }
      else none
    | _ => none

/-- The buffer after `init`, over memory with any contents. -/
def init (slots : BitVec 8 → ℕ → T) : DoubleBuffer T where
  readable := 0
  slots := slots
  producer := .idle
  consumer := .idle
  published := []
  received := []

/-- **Snapshot isolation**: what is read through one pointer comes from one published block. -/
structure Isolated (s : DoubleBuffer T) : Prop where
  reading : ∀ slot got, s.consumer = .reading slot got → ∃ block ∈ s.published, got <+: block
  received : ∀ block ∈ s.received, block ∈ s.published

/-- The producer does not write an element that the consumer has yet to read through its pointer. -/
def Untouched (s : DoubleBuffer T) : Label T → Prop
  | .write _ =>
    match s.producer, s.consumer with
    | .filling slot written, .reading held got => held = slot → written.length < got.length
    | _, _ => True
  | _ => True

/-- Whether a step leaves the unread elements alone is checked before it is taken. -/
instance decidableUntouched (s : DoubleBuffer T) : ∀ label, Decidable (Untouched s label)
  | .write _ =>
    match hp : s.producer, hc : s.consumer with
    | .filling slot written, .reading held got =>
      decidable_of_iff (held = slot → written.length < got.length) (by simp [Untouched, hp, hc])
    | .idle, _ => isTrue (by simp [Untouched, hp])
    | .publishing _ _ _, _ => isTrue (by simp [Untouched, hp])
    | .filling _ _, .idle => isTrue (by simp [Untouched, hp, hc])
  | .writeSlot => isTrue trivial
  | .publishLoad => isTrue trivial
  | .publishStore => isTrue trivial
  | .readSlot => isTrue trivial
  | .read => isTrue trivial
  | .finish => isTrue trivial

/-! ## The invariant -/

/-- The slot holds the elements of `block` from position `k` on. -/
def Holds (slots : BitVec 8 → ℕ → T) (slot : BitVec 8) (k : ℕ) (block : List T) : Prop :=
  ∀ i, k ≤ i → ∀ h : i < block.length, slots slot i = block.get ⟨i, h⟩

/-- What the producer knows. -/
def ProducerInv (len : ℕ) (s : DoubleBuffer T) : Prop :=
  match s.producer with
  | .idle => True
  | .filling slot written => slot = 1 - s.readable ∧ Holds s.slots slot 0 written
  | .publishing slot written next =>
    slot = 1 - s.readable ∧ Holds s.slots slot 0 written ∧ next = slot ∧ written.length = len

/-- What the consumer knows: it has read the beginning of a published block, and the rest of that
block is still in the slot it holds. -/
def ConsumerInv (s : DoubleBuffer T) : Prop :=
  match s.consumer with
  | .idle => True
  | .reading slot got =>
    ∃ block ∈ s.published, got <+: block ∧ Holds s.slots slot got.length block

/-- The readable slot holds the last published block, and both roles are where they think. -/
structure Inv (len : ℕ) (s : DoubleBuffer T) : Prop where
  index : s.readable = 0 ∨ s.readable = 1
  current : ∀ block, s.published.getLast? = some block → Holds s.slots s.readable 0 block
  length : ∀ block ∈ s.published, block.length = len
  producer : ProducerInv len s
  consumer : ConsumerInv s
  received : ∀ block ∈ s.received, block ∈ s.published

variable {len : ℕ} {s t : DoubleBuffer T} {labels : List (Label T)}
  {slots : BitVec 8 → ℕ → T} {slot slot' : BitVec 8} {k : ℕ} {block got : List T} {v : T}

theorem inv_init (len : ℕ) (slots : BitVec 8 → ℕ → T) : Inv len (init slots) where
  index := .inl rfl
  current block h := by cases h
  length block h := by cases h
  producer := trivial
  consumer := trivial
  received block h := by cases h

/-- The other slot. -/
theorem other_ne (h : s.readable = 0 ∨ s.readable = 1) : 1 - s.readable ≠ s.readable := by
  rcases h with h | h
  · rw [h]
    decide
  · rw [h]
    decide

namespace Holds

/-- Writing an element does not matter to another slot, nor below the position. -/
theorem write (h : Holds slots slot k block) {i : ℕ} (hout : slot = slot' → i < k) :
    Holds (Function.update slots slot' (Function.update (slots slot') i v)) slot k block := by
  intro j hkj hj
  by_cases hslot : slot = slot'
  · subst hslot
    have hne : j ≠ i := by
      have hlt := hout rfl
      omega
    rw [Function.update_self, Function.update_of_ne hne]
    exact h j hkj hj
  · rw [Function.update_of_ne hslot]
    exact h j hkj hj

/-- Writing the next element. -/
theorem concat (h : Holds slots slot 0 block) :
    Holds (Function.update slots slot (Function.update (slots slot) block.length v)) slot 0
      (block ++ [v]) := by
  intro j _ hj
  rw [Function.update_self]
  by_cases hlast : j = block.length
  · subst hlast
    simp
  · have hlt : j < block.length := by
      rw [List.length_append, List.length_singleton] at hj
      omega
    rw [Function.update_of_ne hlast, h j (Nat.zero_le j) hlt]
    simp [List.getElem_append_left hlt]

/-- Fewer elements matter further on. -/
theorem mono (h : Holds slots slot k block) {k' : ℕ} (hk : k ≤ k') : Holds slots slot k' block :=
  fun j hj => h j (hk.trans hj)

end Holds

/-- The next element of a block after its beginning. -/
theorem prefix_concat (h : got <+: block) (hlt : got.length < block.length)
    (hv : v = block.get ⟨got.length, hlt⟩) : got ++ [v] <+: block := by
  obtain ⟨rest, rfl⟩ := h
  cases rest with
  | nil => simp at hlt
  | cons x rest =>
    have hvx : v = x := by simpa using hv
    subst hvx
    exact ⟨rest, by simp⟩

/-! ## One step for each role -/

/-- The producer writes. -/
theorem Inv.write (h : Inv len s) {written : List T} (hp : s.producer = .filling slot written)
    (hun : ∀ held got, s.consumer = .reading held got → held = slot →
      written.length < got.length) :
    Inv len { s with
      slots := Function.update s.slots slot (Function.update (s.slots slot) written.length v)
      producer := .filling slot (written ++ [v]) } := by
  have hfill := h.producer
  rw [ProducerInv, hp] at hfill
  obtain ⟨hslot, hholds⟩ := hfill
  refine ⟨h.index, ?_, h.length, ⟨hslot, hholds.concat⟩, ?_, h.received⟩
  · intro block hlast
    refine (h.current block hlast).write ?_
    intro heq
    exact absurd (heq.trans hslot) (other_ne h.index).symm
  · have hcons := h.consumer
    unfold ConsumerInv at hcons ⊢
    cases hc : s.consumer with
    | idle => trivial
    | reading held got =>
      rw [hc] at hcons
      obtain ⟨block, hmem, hpre, hrest⟩ := hcons
      exact ⟨block, hmem, hpre, hrest.write (hun held got hc)⟩

/-- The producer publishes. -/
theorem Inv.publish (h : Inv len s) {written : List T} {next : BitVec 8}
    (hp : s.producer = .publishing slot written next) :
    Inv len { s with readable := next, producer := .idle, published := s.published ++ [written] } := by
  have hpub := h.producer
  rw [ProducerInv, hp] at hpub
  obtain ⟨hslot, hholds, rfl, hlen⟩ := hpub
  refine ⟨?_, ?_, ?_, trivial, ?_, ?_⟩
  · rcases h.index with hr | hr
    · right
      rw [hslot, hr]
      rfl
    · left
      rw [hslot, hr]
      rfl
  · intro block hlast
    obtain rfl : written = block := by simpa using hlast
    exact hholds
  · intro block hmem
    rcases List.mem_append.mp hmem with hmem | hmem
    · exact h.length block hmem
    · obtain rfl := List.mem_singleton.mp hmem
      exact hlen
  · have hcons := h.consumer
    unfold ConsumerInv at hcons ⊢
    cases hc : s.consumer with
    | idle => trivial
    | reading held got =>
      rw [hc] at hcons
      obtain ⟨block, hmem, hrest⟩ := hcons
      exact ⟨block, List.mem_append_left _ hmem, hrest⟩
  · intro block hmem
    exact List.mem_append_left _ (h.received block hmem)

/-- The consumer takes the pointer. -/
theorem Inv.readSlot (h : Inv len s) (hpub : s.published ≠ []) :
    Inv len { s with consumer := .reading s.readable [] } := by
  refine ⟨h.index, h.current, h.length, h.producer, ?_, h.received⟩
  refine ⟨s.published.getLast hpub, List.getLast_mem hpub, List.nil_prefix, ?_⟩
  exact h.current _ (List.getLast?_eq_some_getLast hpub)

/-- The consumer reads. -/
theorem Inv.read (h : Inv len s) (hc : s.consumer = .reading slot got) (hlt : got.length < len) :
    Inv len { s with consumer := .reading slot (got ++ [s.slots slot got.length]) } := by
  have hcons := h.consumer
  rw [ConsumerInv, hc] at hcons
  obtain ⟨block, hmem, hpre, hrest⟩ := hcons
  have hlt' : got.length < block.length := by rwa [h.length block hmem]
  refine ⟨h.index, h.current, h.length, h.producer, ⟨block, hmem, ?_, ?_⟩, h.received⟩
  · exact prefix_concat hpre hlt' (hrest got.length le_rfl hlt')
  · exact hrest.mono (by simp)

/-- The consumer has read the whole block. -/
theorem Inv.finish (h : Inv len s) (hc : s.consumer = .reading slot got) (hlen : got.length = len) :
    Inv len { s with consumer := .idle, received := s.received ++ [got] } := by
  have hcons := h.consumer
  rw [ConsumerInv, hc] at hcons
  obtain ⟨block, hmem, hpre, -⟩ := hcons
  have heq : got = block := hpre.eq_of_length (by rw [hlen, h.length block hmem])
  refine ⟨h.index, h.current, h.length, h.producer, trivial, ?_⟩
  intro b hb
  rcases List.mem_append.mp hb with hb | hb
  · exact h.received b hb
  · obtain rfl := List.mem_singleton.mp hb
    rw [heq]
    exact hmem

/-- **Every step that leaves the unread elements alone keeps the invariant.** -/
theorem Inv.step (h : Inv len s) {label : Label T} (hun : Untouched s label)
    (hstep : DoubleBuffer.step len s label = some t) : Inv len t := by
  cases label with
  | writeSlot =>
    simp only [DoubleBuffer.step] at hstep
    split at hstep
    · obtain rfl := Option.some.inj hstep
      exact ⟨h.index, h.current, h.length, ⟨rfl, fun i _ hi => absurd hi (Nat.not_lt_zero i)⟩,
        h.consumer, h.received⟩
    · cases hstep
  | write v =>
    simp only [DoubleBuffer.step] at hstep
    split at hstep
    · rename_i slot written hp
      split at hstep
      · obtain rfl := Option.some.inj hstep
        -- the one step that can spoil a block in use: the condition keeps it off the slot being
        -- read
        refine h.write hp ?_
        intro held got hc
        simpa only [Untouched, hp, hc] using hun
      · cases hstep
    · cases hstep
  | publishLoad =>
    simp only [DoubleBuffer.step] at hstep
    split at hstep
    · rename_i slot written hp
      split at hstep
      · rename_i hlen
        obtain rfl := Option.some.inj hstep
        have hfill := h.producer
        rw [ProducerInv, hp] at hfill
        -- the index has one writer, so that what the load finds is the slot still to be published
        exact ⟨h.index, h.current, h.length, ⟨hfill.1, hfill.2, hfill.1.symm, hlen⟩, h.consumer,
          h.received⟩
      · cases hstep
    · cases hstep
  | publishStore =>
    simp only [DoubleBuffer.step] at hstep
    split at hstep
    · rename_i slot written next hp
      obtain rfl := Option.some.inj hstep
      exact h.publish hp
    · cases hstep
  | readSlot =>
    simp only [DoubleBuffer.step] at hstep
    split at hstep
    · split at hstep
      · cases hstep
      · rename_i hpub
        obtain rfl := Option.some.inj hstep
        exact h.readSlot hpub
    · cases hstep
  | read =>
    simp only [DoubleBuffer.step] at hstep
    split at hstep
    · rename_i slot got hc
      split at hstep
      · rename_i hlt
        obtain rfl := Option.some.inj hstep
        exact h.read hc hlt
      · cases hstep
    · cases hstep
  | finish =>
    simp only [DoubleBuffer.step] at hstep
    split at hstep
    · rename_i slot got hc
      split at hstep
      · rename_i hlen
        obtain rfl := Option.some.inj hstep
        exact h.finish hc hlen
      · cases hstep
    · cases hstep

/-- The invariant gives isolation. -/
theorem Inv.isolated (h : Inv len s) : Isolated s where
  reading := by
    intro slot got hc
    have hcons := h.consumer
    rw [ConsumerInv, hc] at hcons
    obtain ⟨block, hmem, hpre, -⟩ := hcons
    exact ⟨block, hmem, hpre⟩
  received := h.received

/-! ## Runs -/

/-- **Snapshot isolation** in every run in which the producer never writes what the consumer has yet
to read through the pointer it holds. -/
theorem isolated_of_untouched (len : ℕ) (slots : BitVec 8 → ℕ → T) (labels : List (Label T))
    (t : DoubleBuffer T) (hun : EveryStep (step len) Untouched (init slots) labels)
    (hrun : run (step len) (init slots) labels = some t) : Isolated t :=
  (hun.run_invariant (Inv len) (fun _ _ _ h hun hstep => h.step hun hstep) (inv_init len slots)
    hrun).isolated

/-- The producer publishes twice while the consumer reads the first block. -/
def pingPong : List (Label ℕ) :=
  [.writeSlot, .write 1, .write 2, .publishLoad, .publishStore, .readSlot, .read,
    .writeSlot, .write 3, .write 4, .publishLoad, .publishStore, .read, .finish]

/-- The first block is received whole although the second is published meanwhile. -/
theorem isolated_of_untouched_pingPong :
    ∃ t, run (step 2) (init fun _ _ => 0) pingPong = some t ∧ t.received = [[1, 2]] ∧
      Isolated t := by
  obtain ⟨t, hrun, hreceived⟩ := exists_run_eq (step 2) (init fun _ _ => 0) pingPong
    DoubleBuffer.received (b := [[1, 2]]) (by decide)
  refine ⟨t, hrun, hreceived, isolated_of_untouched 2 (fun _ _ => 0) pingPong t ?_ hrun⟩
  decide

/-- **A torn read.** The consumer reads one element of the first block; the producer publishes the
second block and writes the third into the slot that the consumer holds. -/
theorem torn_read :
    ∃ t, run (step 2) (init fun _ _ => 0)
        [.writeSlot, .write 1, .write 2, .publishLoad, .publishStore, .readSlot, .read,
          .writeSlot, .write 3, .write 4, .publishLoad, .publishStore,
          .writeSlot, .write 5, .write 6, .read, .finish] = some t ∧
      t.received = [[1, 6]] ∧ t.published = [[1, 2], [3, 4]] ∧ ¬ Isolated t := by
  obtain ⟨t, hrun, hobserved⟩ := exists_run_eq (step 2) (init fun _ _ => 0)
    [.writeSlot, .write 1, .write 2, .publishLoad, .publishStore, .readSlot, .read,
      .writeSlot, .write 3, .write 4, .publishLoad, .publishStore,
      .writeSlot, .write 5, .write 6, .read, .finish]
    (fun t => (t.received, t.published)) (b := ([[1, 6]], [[1, 2], [3, 4]])) (by decide)
  obtain ⟨hreceived, hpublished⟩ := Prod.mk.inj hobserved
  refine ⟨t, hrun, hreceived, hpublished, ?_⟩
  intro hisolated
  have hmem := hisolated.received [1, 6] (by simp [hreceived])
  rw [hpublished] at hmem
  revert hmem
  decide

end DoubleBuffer

end Memkit
