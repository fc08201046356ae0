import Memkit.Sequences.RingBufferLedger
import Mathlib.Data.List.DropRight

/-! # Circular logs

`containers/ring_log.hpp`: a ring buffer over storage of the caller that overwrites its oldest
record. A program has a family of logs; a log that was moved from, or was not initialized, is a
ring buffer of capacity 0.

* **`RecordType`**, **`LogConfig`** — the record type, and the ring buffer that `init` makes for it.
* **`RingLogs.call`** — a call on a log of the family.
* **`Histories.call`** — what the logs are for: they keep the last records.
* **`keeps_newest`** — the answers agree in every run, and where the records end their lives. -/

namespace Memkit

variable {w : ℕ} {V ι : Type*}

/-- The type of the records: its constructors return nothing, so a copy does not fail. -/
structure RecordType (w : ℕ) (V : Type*) where
  policy : ElementPolicy V
  /-- `!std::is_trivially_destructible_v<Record>`. -/
  needsDestroy : Bool
  /-- `sizeof(Record)`. -/
  size : BitVec w
  size_pos : 0 < size.toNat
  nonFailing : policy.NonFailing

/-- What `init` is given. -/
structure LogStorage (rec : RecordType w V) where
  capacity : BitVec w
  /-- The contents of the storage; `none` for a null pointer. -/
  memory : Option (ℕ × ℕ → V)
  /-- The storage has `storage_bytes(capacity)` bytes. -/
  real : capacity.toNat * rec.size.toNat < 2 ^ (w - 1)

/-- A ring buffer of records with `overwrite_on_full`, which is not growable. -/
structure LogConfig (rec : RecordType w V) extends RingConfig w V where
  policy_eq : policy = rec.policy
  needsDestroy_eq : needsDestroy = rec.needsDestroy
  growable_eq : growable = false
  overwriteOnFull_eq : overwriteOnFull = true

/-- `core_` of an initialized log. -/
structure RingLog (rec : RecordType w V) where
  cfg : LogConfig rec
  core : RingBuffer w V

namespace RingLog

variable {rec : RecordType w V}

/-- The ring buffer that `init` makes. A ring buffer that is not growable allocates nothing. -/
def config (storage : LogStorage rec) (hpos : 0 < storage.capacity.toNat) : LogConfig rec where
  policy := rec.policy
  needsDestroy := rec.needsDestroy
  elemSize := rec.size
  growable := false
  overwriteOnFull := true
  allocate _ _ := .oom
  initialCapacity := storage.capacity
  elemSize_pos := rec.size_pos
  initialCapacity_pos := hpos
  storage_real := storage.real
  allocate_real _ _ hok := Status.noConfusion hok
  policy_eq := rfl
  needsDestroy_eq := rfl
  growable_eq := rfl
  overwriteOnFull_eq := rfl

/-- `init`. -/
def init (log : Option (RingLog rec)) (storage : LogStorage rec) : Status × Option (RingLog rec) :=
  match storage.memory with
  | none => (.invalid, log)
  | some memory =>
    if hpos : 0 < storage.capacity.toNat then
      let cfg := config storage hpos
      (.ok, some ⟨cfg, RingBuffer.init cfg.toRingConfig memory⟩)
    else (.invalid, log)

/-- `append`. -/
def append (log : Option (RingLog rec)) (record : V) : Status × Option (RingLog rec) :=
  match log with
  | none => (.invalid, none)
  | some log =>
    let (st, core) := log.core.pushBack log.cfg.toRingConfig (some record) true
    (st, some { log with core := core })

/-- `clear`. -/
def clear (log : RingLog rec) : RingLog rec :=
  { log with core := log.core.clear log.cfg.toRingConfig }

/-- `size`. -/
def size (log : Option (RingLog rec)) : BitVec w := log.elim 0 fun log => log.core.count

/-- `peek_oldest`. -/
def peekOldest (log : Option (RingLog rec)) (out : V) : Status × Option V :=
  log.elim (.empty, some out) fun log => log.core.peekFront (some out)

/-- `peek_newest`. -/
def peekNewest (log : Option (RingLog rec)) (out : V) : Status × Option V :=
  log.elim (.empty, some out) fun log => log.core.peekBack (some out)

/-- `foreach_chronological`. -/
def foreachChronological (log : Option (RingLog rec)) (visit : List V → Status) :
    Status × List V :=
  log.elim (.ok, []) fun log =>
    let (st, seen) := log.core.foreach fun seen => visit (seen.map Prod.fst)
    (st, seen.map Prod.fst)

/-- The loop of `foreach_newest_first`, from `i` down. -/
def foreachDown (core : RingBuffer w V) (visit : List V → Status) : ℕ → List V → Status × List V
  | 0, seen => (.ok, seen)
  | i + 1, seen =>
    let record := core.cells.contents (core.slotAt (core.logicalIndex (BitVec.ofNat w i)))
    let st := visit (seen ++ [record])
    if st ≠ .ok then (st, seen ++ [record]) else foreachDown core visit i (seen ++ [record])

/-- `foreach_newest_first`. -/
def foreachNewestFirst (log : Option (RingLog rec)) (visit : List V → Status) : Status × List V :=
  log.elim (.ok, []) fun log => foreachDown log.core visit log.core.count.toNat []

end RingLog

/-- The logs of a program. -/
structure RingLogs (ι : Type*) (rec : RecordType w V) where
  /-- The logs; `none` after `reset_state`. -/
  logs : ι → Option (RingLog rec)
  /-- The ring buffers whose storage no log uses any more. -/
  givenBack : List (RingBuffer w V)

namespace RingLogs

variable {rec : RecordType w V}

/-- A call on a log of the family. -/
inductive Call (ι : Type*) (rec : RecordType w V)
  /-- The storage is used by no other log. -/
  | init (i : ι) (storage : LogStorage rec)
  | append (i : ι) (record : V)
  | clear (i : ι)
  | size (i : ι)
  | peekOldest (i : ι) (out : V)
  | peekNewest (i : ι) (out : V)
  /-- The visitor answers by what it has seen. -/
  | foreachChronological (i : ι) (visit : List V → Status)
  | foreachNewestFirst (i : ι) (visit : List V → Status)
  /-- Move assignment, and move construction of a log not used before. -/
  | moveAssign (dst src : ι)
  /-- The destructor; another log may then have the place of this one. -/
  | destroy (i : ι)

/-- What a call returns. -/
inductive LogAnswer (w : ℕ) (V : Type*)
  | status (result : Status)
  | size (count : BitVec w)
  /-- The status and what is in the record of the caller. -/
  | value (result : Status) (out : Option V)
  /-- The status and the records visited. -/
  | visits (result : Status) (seen : List V)
  | done
  deriving DecidableEq

variable [DecidableEq ι]

/-- A log stops using its storage. -/
def giveBack (s : RingLogs ι rec) (log : Option (RingLog rec)) : RingLogs ι rec :=
  { s with givenBack := s.givenBack ++ (log.map RingLog.core).toList }

/-- A log gets another core. -/
def setLog (s : RingLogs ι rec) (i : ι) (log : Option (RingLog rec)) : RingLogs ι rec :=
  { s with logs := Function.update s.logs i log }

/-- Whether `init` refuses the storage. -/
def Refused (storage : LogStorage rec) : Prop := storage.memory = none ∨ storage.capacity.toNat = 0

instance (storage : LogStorage rec) : Decidable (Refused storage) :=
  match h : storage.memory with
  | none => isTrue (.inl h)
  | some _ => decidable_of_iff (storage.capacity.toNat = 0) (by simp [Refused, h])

/-- Dispatch a call. -/
def call (s : RingLogs ι rec) : Call ι rec → LogAnswer w V × RingLogs ι rec
  | .init i storage =>
    let (st, log) := RingLog.init (s.logs i) storage
    (.status st, (if Refused storage then s else s.giveBack (s.logs i)).setLog i log)
  | .append i record =>
    let (st, log) := RingLog.append (s.logs i) record
    (.status st, s.setLog i log)
  | .clear i => (.done, s.setLog i ((s.logs i).map RingLog.clear))
  | .size i => (.size (RingLog.size (s.logs i)), s)
  | .peekOldest i out =>
    let (st, out) := RingLog.peekOldest (s.logs i) out
    (.value st out, s)
  | .peekNewest i out =>
    let (st, out) := RingLog.peekNewest (s.logs i) out
    (.value st out, s)
  | .foreachChronological i visit =>
    let (st, seen) := RingLog.foreachChronological (s.logs i) visit
    (.visits st seen, s)
  | .foreachNewestFirst i visit =>
    let (st, seen) := RingLog.foreachNewestFirst (s.logs i) visit
    (.visits st seen, s)
  | .moveAssign dst src =>
    if dst = src then (.done, s)
    else
      (.done,
        ((s.giveBack ((s.logs dst).map RingLog.clear)).setLog dst (s.logs src)).setLog src none)
  | .destroy i =>
    (.done, (s.giveBack ((s.logs i).map RingLog.clear)).setLog i none)

/-- No log is initialized. -/
def start (ι : Type*) (rec : RecordType w V) : RingLogs ι rec := ⟨fun _ => none, []⟩

end RingLogs

/-! ## What the logs are for -/

/-- The capacity of a log, and all records appended since it was cleared. -/
structure History (V : Type*) where
  capacity : ℕ
  appended : List V

namespace History

/-- The records a log keeps. -/
def kept (h : Option (History V)) : List V := h.elim [] fun h => h.appended.rtake h.capacity

/-- A peek at a record that is there or not. -/
def peek (record : Option V) (out : V) : Status × Option V :=
  record.elim (.empty, some out) fun record => (.ok, some record)

end History

namespace Histories

open RingLogs

variable {rec : RecordType w V} [DecidableEq ι]

/-- Dispatch a call. -/
def call (hs : ι → Option (History V)) : Call ι rec → LogAnswer w V × (ι → Option (History V))
  | .init i storage =>
    if Refused storage then (.status .invalid, hs)
    else (.status .ok, Function.update hs i (some ⟨storage.capacity.toNat, []⟩))
  | .append i record =>
    (.status (if (hs i).isSome then .ok else .invalid),
      Function.update hs i ((hs i).map fun h => { h with appended := h.appended ++ [record] }))
  | .clear i => (.done, Function.update hs i ((hs i).map fun h => { h with appended := [] }))
  | .size i => (.size (BitVec.ofNat w (History.kept (hs i)).length), hs)
  | .peekOldest i out =>
    let (st, out) := History.peek (History.kept (hs i)).head? out
    (.value st out, hs)
  | .peekNewest i out =>
    let (st, out) := History.peek (History.kept (hs i)).getLast? out
    (.value st out, hs)
  | .foreachChronological i visit =>
    let (st, seen) := visitLoop visit [] (History.kept (hs i))
    (.visits st seen, hs)
  | .foreachNewestFirst i visit =>
    let (st, seen) := visitLoop visit [] (History.kept (hs i)).reverse
    (.visits st seen, hs)
  | .moveAssign dst src =>
    (.done,
      if dst = src then hs else Function.update (Function.update hs dst (hs src)) src none)
  | .destroy i => (.done, Function.update hs i none)

end Histories

/-! ## One log -/

/-- One more record of which the last ones are kept. -/
theorem rtake_concat {cap : ℕ} (hcap : 0 < cap) (l : List V) (x : V) :
    (l ++ [x]).rtake cap =
      (if (l.rtake cap).length < cap then l.rtake cap else (l.rtake cap).tail) ++ [x] := by
  obtain ⟨n, rfl⟩ := Nat.exists_eq_succ_of_ne_zero hcap.ne'
  rw [List.rtake_concat_succ]
  congr 1
  unfold List.rtake
  rw [List.length_drop]
  by_cases hlt : l.length < n + 1
  · have hall : l.length - n = l.length - (n + 1) := by omega
    rw [if_pos (by omega), hall]
  · rw [if_neg (by omega), List.tail_drop]
    congr 1
    omega

namespace RingLog

variable {rec : RecordType w V} {log : RingLog rec} {h : History V}

/-- The log keeps the last records of the history. -/
structure Keeps (log : RingLog rec) (h : History V) : Prop where
  capacity_pos : 0 < h.capacity
  core : log.core.Represents ⟨h.appended.rtake h.capacity, h.capacity, log.core.allocs⟩

/-- A call on a ring buffer that is not growable asks for no memory. -/
theorem sizesFit (log : RingLog rec) (c : RingBuffer.Call w V) :
    RingBuffer.SizesFit log.cfg.toRingConfig log.core c := by
  intro newCapacity hrequested
  have hnone : RingBuffer.requested log.cfg.toRingConfig log.core c = none := by
    unfold RingBuffer.requested
    split <;> simp [log.cfg.growable_eq]
  rw [hnone] at hrequested
  cases hrequested

theorem nonFailing (log : RingLog rec) : log.cfg.policy.NonFailing := by
  rw [log.cfg.policy_eq]
  exact rec.nonFailing

/-- **`append`** succeeds, and gives up the oldest record if there is no room. -/
theorem Keeps.append (hkeeps : Keeps log h) (record : V) :
    (log.core.pushBack log.cfg.toRingConfig (some record) true).1 = .ok ∧
      Keeps { log with core := (log.core.pushBack log.cfg.toRingConfig (some record) true).2 }
        { h with appended := h.appended ++ [record] } := by
  obtain ⟨hst, hrep⟩ :=
    hkeeps.core.pushBack log.nonFailing (some record) true (log.sizesFit _)
  have hpush : Deque.pushBack log.cfg.toRingConfig
      ⟨h.appended.rtake h.capacity, h.capacity, log.core.allocs⟩ (some record) true =
        (.ok, ⟨(h.appended ++ [record]).rtake h.capacity, h.capacity, log.core.allocs⟩) := by
    rw [rtake_concat hkeeps.capacity_pos]
    unfold Deque.pushBack Deque.makeRoom
    by_cases hroom : (h.appended.rtake h.capacity).length < h.capacity
    · simp [hroom]
    · simp [hroom, log.cfg.growable_eq]
  rw [hpush] at hst hrep
  refine ⟨hst, hkeeps.capacity_pos, ?_⟩
  exact ⟨hrep.inv, hrep.items, hrep.room, rfl⟩

/-- **`clear`** forgets the history. -/
theorem Keeps.clear (hkeeps : Keeps log h) : Keeps log.clear { h with appended := [] } := by
  have hrep : RingBuffer.Represents (RingBuffer.clear log.cfg.toRingConfig log.core) _ :=
    hkeeps.core.clear
  refine ⟨hkeeps.capacity_pos, hrep.inv, ?_, hrep.room, rfl⟩
  rw [List.rtake_nil]
  exact hrep.items

/-- A log is empty after `init`. -/
theorem keeps_init (storage : LogStorage rec) (hpos : 0 < storage.capacity.toNat)
    (memory : ℕ × ℕ → V) :
    Keeps ⟨config storage hpos, RingBuffer.init (config storage hpos).toRingConfig memory⟩
      ⟨storage.capacity.toNat, []⟩ := by
  refine ⟨hpos, ?_⟩
  rw [List.rtake_nil]
  exact RingBuffer.represents_init (config storage hpos).toRingConfig memory

/-- A peek at the records kept. -/
theorem deque_peek (record : Option V) (out : V) :
    Deque.peek record .empty (some out) = History.peek record out := by
  cases record <;> rfl

/-- **`foreach_chronological`** visits the records kept. -/
theorem Keeps.foreachChronological (hkeeps : Keeps log h) (visit : List V → Status) :
    RingLog.foreachChronological (some log) visit =
      visitLoop visit [] (h.appended.rtake h.capacity) := by
  have hloop := visitLoop_map Prod.fst visit [] log.core.elements
  have hfst : log.core.elements.map Prod.fst = h.appended.rtake h.capacity := by
    rw [hkeeps.core.elements, List.zipIdx_map_fst]
  rw [hfst] at hloop
  exact hloop

/-- The records that the loop of `foreach_newest_first` meets from `i` down. -/
theorem Keeps.foreachDown (hkeeps : Keeps log h) (visit : List V → Status) {i : ℕ}
    (hi : i ≤ log.core.count.toNat) (seen : List V) :
    RingLog.foreachDown log.core visit i seen =
      visitLoop visit seen ((h.appended.rtake h.capacity).take i).reverse := by
  have hlength : (h.appended.rtake h.capacity).length = log.core.count.toNat := hkeeps.core.length
  induction i generalizing seen with
  | zero => rfl
  | succ i ih =>
    have hlt : i < (h.appended.rtake h.capacity).length := by omega
    have hrecord : log.core.cells.contents
        (log.core.slotAt (log.core.logicalIndex (BitVec.ofNat w i))) =
          (h.appended.rtake h.capacity)[i] := by
      have hindex : (BitVec.ofNat w i).toNat = i := by
        rw [BitVec.toNat_ofNat, Nat.mod_eq_of_lt]
        have := log.core.count.isLt
        omega
      have hbound : BitVec.ofNat w i < log.core.count := by
        rw [BitVec.lt_def, hindex]
        omega
      have hget := hkeeps.core.getElem hbound
      rw [hindex, List.getElem?_eq_getElem hlt] at hget
      exact (Option.some.inj hget).symm
    -- the loop meets the last of the first `i + 1` records first
    rw [List.take_succ_eq_append_getElem hlt, List.reverse_append, List.reverse_singleton,
      List.singleton_append, visitLoop, RingLog.foreachDown]
    simp only [hrecord]
    split
    · rfl
    · exact ih (by omega) _

/-- **`foreach_newest_first`** visits them the other way round. -/
theorem Keeps.foreachNewestFirst (hkeeps : Keeps log h) (visit : List V → Status) :
    RingLog.foreachNewestFirst (some log) visit =
      visitLoop visit [] (h.appended.rtake h.capacity).reverse := by
  have hall := hkeeps.foreachDown visit le_rfl []
  rw [List.take_of_length_le hkeeps.core.length.le] at hall
  exact hall

/-! ### With logs that are not initialized -/

section Related

variable {log? : Option (RingLog rec)} {h? : Option (History V)}

theorem init_related (log? : Option (RingLog rec)) (storage : LogStorage rec) :
    (RingLogs.Refused storage ∧ RingLog.init log? storage = (.invalid, log?)) ∨
      (¬ RingLogs.Refused storage ∧ (RingLog.init log? storage).1 = .ok ∧
        Option.Rel Keeps (RingLog.init log? storage).2 (some ⟨storage.capacity.toNat, []⟩)) := by
  unfold RingLog.init RingLogs.Refused
  cases hmemory : storage.memory with
  | none => exact .inl ⟨.inl rfl, rfl⟩
  | some memory =>
    by_cases hpos : 0 < storage.capacity.toNat
    · simp only [dif_pos hpos]
      refine .inr ⟨?_, trivial, .some (keeps_init storage hpos memory)⟩
      rintro (hnone | hzero)
      · cases hnone
      · omega
    · simp only [dif_neg hpos]
      exact .inl ⟨.inr (by omega), trivial⟩

theorem append_related (hrel : Option.Rel Keeps log? h?) (record : V) :
    (RingLog.append log? record).1 = (if h?.isSome then .ok else .invalid) ∧
      Option.Rel Keeps (RingLog.append log? record).2
        (h?.map fun h => { h with appended := h.appended ++ [record] }) := by
  cases hrel with
  | none => exact ⟨rfl, .none⟩
  | some hkeeps =>
    obtain ⟨hst, hnext⟩ := hkeeps.append record
    exact ⟨hst, .some hnext⟩

theorem clear_related (hrel : Option.Rel Keeps log? h?) :
    Option.Rel Keeps (log?.map RingLog.clear) (h?.map fun h => { h with appended := [] }) := by
  cases hrel with
  | none => exact .none
  | some hkeeps => exact .some hkeeps.clear

theorem size_related (hrel : Option.Rel Keeps log? h?) :
    RingLog.size log? = BitVec.ofNat w (History.kept h?).length := by
  cases hrel with
  | none => rfl
  | @some log h hkeeps =>
    show log.core.count = BitVec.ofNat w (h.appended.rtake h.capacity).length
    rw [hkeeps.core.length, BitVec.ofNat_toNat, BitVec.setWidth_eq]

theorem peek_related (hrel : Option.Rel Keeps log? h?) (out : V) :
    RingLog.peekOldest log? out = History.peek (History.kept h?).head? out ∧
      RingLog.peekNewest log? out = History.peek (History.kept h?).getLast? out := by
  cases hrel with
  | none => exact ⟨rfl, rfl⟩
  | some hkeeps =>
    obtain ⟨hfront, hback, -⟩ := hkeeps.core.peek (some out)
    exact ⟨hfront.trans (deque_peek _ out), hback.trans (deque_peek _ out)⟩

theorem foreach_related (hrel : Option.Rel Keeps log? h?) (visit : List V → Status) :
    RingLog.foreachChronological log? visit = visitLoop visit [] (History.kept h?) ∧
      RingLog.foreachNewestFirst log? visit = visitLoop visit [] (History.kept h?).reverse := by
  cases hrel with
  | none => exact ⟨rfl, rfl⟩
  | some hkeeps => exact ⟨hkeeps.foreachChronological visit, hkeeps.foreachNewestFirst visit⟩

end Related

/-! ### The objects -/

/-- The objects in the storage are the records kept. -/
abbrev Sound (log : RingLog rec) : Prop := RingBuffer.Sound log.core

/-- **`clear`** ends every record. -/
theorem Sound.clear (h : Sound log) (hneeds : rec.needsDestroy = true) :
    Sound log.clear ∧ log.clear.core.cells.ledger.Settled := by
  have hclear := RingBuffer.Sound.clear h (log.cfg.needsDestroy_eq.trans hneeds)
  exact ⟨hclear.1, hclear.2.settled⟩

/-- `init` and `append` keep it so. -/
theorem init_sound {log? : Option (RingLog rec)} (h : ∀ log ∈ log?, Sound log)
    (storage : LogStorage rec) : ∀ log ∈ (RingLog.init log? storage).2, Sound log := by
  unfold RingLog.init
  cases storage.memory with
  | none => exact h
  | some memory =>
    by_cases hpos : 0 < storage.capacity.toNat
    · simp only [dif_pos hpos]
      rintro log hlog
      cases hlog
      exact RingBuffer.sound_init _ memory
    · simp only [dif_neg hpos]
      exact h

theorem append_sound {log? : Option (RingLog rec)} (h : ∀ log ∈ log?, Sound log)
    (hneeds : rec.needsDestroy = true) (record : V) :
    ∀ log ∈ (RingLog.append log? record).2, Sound log := by
  cases log? with
  | none => exact fun _ hlog => by cases hlog
  | some log =>
    have hpush := RingBuffer.Sound.pushBack (h log rfl) (log.cfg.needsDestroy_eq.trans hneeds)
      (some record) true (log.sizesFit _)
    intro _ hlog
    obtain rfl := Option.some.inj hlog
    exact hpush

/-- A log without records holds no objects, and one with records holds some. -/
theorem Sound.settled_iff_count (h : Sound log) :
    log.core.cells.ledger.Settled ↔ log.core.count = 0 := by
  have hholds : log.core.cells.ledger.Holds {a | a ∈ log.core.slots} := h.balanced
  rw [hholds.settled_iff_eq_nil, ← List.length_eq_zero_iff, RingIndices.length_slots,
    ← BitVec.toNat_inj, show (0 : BitVec w).toNat = 0 from BitVec.toNat_zero]

end RingLog

/-! ## All logs -/

namespace RingLogs

variable {rec : RecordType w V} [DecidableEq ι] {s : RingLogs ι rec}
  {hs : ι → Option (History V)}

/-- Every log keeps the last records of its history. -/
def Keep (s : RingLogs ι rec) (hs : ι → Option (History V)) : Prop :=
  ∀ i, Option.Rel RingLog.Keeps (s.logs i) (hs i)

/-- One log and its history change. -/
theorem Keep.setLog (h : Keep s hs) (i : ι) {log : Option (RingLog rec)} {history : Option (History V)}
    (hlog : Option.Rel RingLog.Keeps log history) :
    Keep (s.setLog i log) (Function.update hs i history) := by
  intro j
  by_cases hji : j = i
  · subst hji
    show Option.Rel _ (Function.update s.logs j log j) _
    rw [Function.update_self, Function.update_self]
    exact hlog
  · show Option.Rel _ (Function.update s.logs i log j) _
    rw [Function.update_of_ne hji, Function.update_of_ne hji]
    exact h j

/-- **One call** answers as the histories, which the logs go on keeping. -/
theorem Keep.call (h : Keep s hs) (c : Call ι rec) :
    (call s c).1 = (Histories.call hs c).1 ∧ Keep (call s c).2 (Histories.call hs c).2 := by
  cases c with
  | init i storage =>
    rcases RingLog.init_related (s.logs i) storage with ⟨hrefused, hinit⟩ | ⟨haccepted, hst, hnext⟩
    · simp only [RingLogs.call, Histories.call, if_pos hrefused, hinit, true_and]
      have hsame := h.setLog i (h i)
      rwa [Function.update_eq_self] at hsame
    · simp only [RingLogs.call, Histories.call, if_neg haccepted, hst, true_and]
      exact Keep.setLog (s := s.giveBack (s.logs i)) h i hnext
  | append i record =>
    obtain ⟨hst, hnext⟩ := RingLog.append_related (h i) record
    exact ⟨congrArg LogAnswer.status hst, h.setLog i hnext⟩
  | clear i => exact ⟨rfl, h.setLog i (RingLog.clear_related (h i))⟩
  | size i => exact ⟨congrArg LogAnswer.size (RingLog.size_related (h i)), h⟩
  | peekOldest i out =>
    refine ⟨?_, h⟩
    simp only [RingLogs.call, Histories.call, (RingLog.peek_related (h i) out).1]
  | peekNewest i out =>
    refine ⟨?_, h⟩
    simp only [RingLogs.call, Histories.call, (RingLog.peek_related (h i) out).2]
  | foreachChronological i visit =>
    refine ⟨?_, h⟩
    simp only [RingLogs.call, Histories.call, (RingLog.foreach_related (h i) visit).1]
  | foreachNewestFirst i visit =>
    refine ⟨?_, h⟩
    simp only [RingLogs.call, Histories.call, (RingLog.foreach_related (h i) visit).2]
  | moveAssign dst src =>
    by_cases hsame : dst = src
    · simp only [RingLogs.call, Histories.call, if_pos hsame, true_and]
      exact h
    · simp only [RingLogs.call, Histories.call, if_neg hsame, true_and]
      have hmoved := Keep.setLog (s := s.giveBack ((s.logs dst).map RingLog.clear)) h dst (h src)
      exact hmoved.setLog src .none
  | destroy i =>
    exact ⟨rfl, Keep.setLog (s := s.giveBack ((s.logs i).map RingLog.clear)) h i .none⟩

/-! ### The objects of all logs -/

/-- `init` is not called on a log that holds records. -/
def InitsEmpty (s : RingLogs ι rec) : Call ι rec → Prop
  | .init i storage => Refused storage ∨ RingLog.size (s.logs i) = 0
  | _ => True

/-- The storage in use holds the records kept, and what was given back holds none. -/
structure AllSound (s : RingLogs ι rec) : Prop where
  logs : ∀ i, ∀ log ∈ s.logs i, RingLog.Sound log
  givenBack : ∀ core ∈ s.givenBack, core.cells.ledger.Settled

/-- One log changes. -/
theorem AllSound.setLog (h : AllSound s) (i : ι) {log : Option (RingLog rec)}
    (hlog : ∀ l ∈ log, RingLog.Sound l) : AllSound (s.setLog i log) := by
  refine ⟨fun j l hl => ?_, h.givenBack⟩
  replace hl : l ∈ Function.update s.logs i log j := hl
  by_cases hji : j = i
  · subst hji
    rw [Function.update_self] at hl
    exact hlog l hl
  · rw [Function.update_of_ne hji] at hl
    exact h.logs j l hl

omit [DecidableEq ι] in
/-- Storage without records is given back. -/
theorem AllSound.giveBack (h : AllSound s) {log : Option (RingLog rec)}
    (hlog : ∀ l ∈ log, l.core.cells.ledger.Settled) : AllSound (s.giveBack log) := by
  refine ⟨h.logs, fun core hcore => ?_⟩
  replace hcore : core ∈ s.givenBack ++ (log.map RingLog.core).toList := hcore
  rcases List.mem_append.mp hcore with hold | hnew
  · exact h.givenBack core hold
  · obtain ⟨l, hl, rfl⟩ := Option.map_eq_some_iff.mp (Option.mem_toList.mp hnew)
    exact hlog l hl

omit [DecidableEq ι] in
/-- A log that is cleared. -/
theorem AllSound.cleared (h : AllSound s) (hneeds : rec.needsDestroy = true) (i : ι) :
    ∀ l ∈ (s.logs i).map RingLog.clear, RingLog.Sound l ∧ l.core.cells.ledger.Settled := by
  intro l hl
  obtain ⟨log, hlog, rfl⟩ := Option.map_eq_some_iff.mp hl
  exact (h.logs i log hlog).clear hneeds

/-- **One call** keeps it so, unless it is an `init` that forgets records. -/
theorem AllSound.step (h : AllSound s) (hneeds : rec.needsDestroy = true) (c : Call ι rec)
    (hc : InitsEmpty s c) : AllSound (call s c).2 := by
  cases c with
  | init i storage =>
    simp only [RingLogs.call]
    by_cases hrefused : Refused storage
    · rw [if_pos hrefused]
      exact h.setLog i (RingLog.init_sound (h.logs i) storage)
    · rw [if_neg hrefused]
      refine (h.giveBack fun log hlog => ?_).setLog i (RingLog.init_sound (h.logs i) storage)
      have hcount := hc.resolve_left hrefused
      rw [show s.logs i = some log from hlog] at hcount
      exact (h.logs i log hlog).settled_iff_count.mpr hcount
  | append i record => exact h.setLog i (RingLog.append_sound (h.logs i) hneeds record)
  | clear i => exact h.setLog i fun l hl => (h.cleared hneeds i l hl).1
  | size i => exact h
  | peekOldest i out => exact h
  | peekNewest i out => exact h
  | foreachChronological i visit => exact h
  | foreachNewestFirst i visit => exact h
  | moveAssign dst src =>
    simp only [RingLogs.call]
    by_cases hsame : dst = src
    · rw [if_pos hsame]
      exact h
    · rw [if_neg hsame]
      exact ((h.giveBack fun l hl => (h.cleared hneeds dst l hl).2).setLog dst (h.logs src)).setLog
        src fun l hl => by cases hl
  | destroy i =>
    exact (h.giveBack fun l hl => (h.cleared hneeds i l hl).2).setLog i fun l hl => by cases hl

/-- What was given back is never looked at again. -/
theorem givenBack_call (s : RingLogs ι rec) (c : Call ι rec) :
    s.givenBack <+: (call s c).2.givenBack := by
  cases c with
  | init i storage =>
    simp only [RingLogs.call]
    split
    · exact List.prefix_rfl
    · exact List.prefix_append _ _
  | moveAssign dst src =>
    simp only [RingLogs.call]
    split
    · exact List.prefix_rfl
    · exact List.prefix_append _ _
  | destroy i => exact List.prefix_append _ _
  | append i record => exact List.prefix_rfl
  | clear i => exact List.prefix_rfl
  | size i => exact List.prefix_rfl
  | peekOldest i out => exact List.prefix_rfl
  | peekNewest i out => exact List.prefix_rfl
  | foreachChronological i visit => exact List.prefix_rfl
  | foreachNewestFirst i visit => exact List.prefix_rfl

/-- **An `init` that forgets records** gives back storage that holds them. -/
theorem AllSound.forgotten (h : AllSound s) (c : Call ι rec) (hc : ¬ InitsEmpty s c) :
    ∃ core ∈ (call s c).2.givenBack, ¬ core.cells.ledger.Settled := by
  cases c with
  | init i storage =>
    obtain ⟨haccepted, hcount⟩ := not_or.mp hc
    obtain ⟨log, hlog⟩ : ∃ log, s.logs i = some log := by
      refine Option.ne_none_iff_exists'.mp fun hnone => hcount ?_
      rw [hnone]
      rfl
    rw [hlog] at hcount
    refine ⟨log.core, ?_, mt (h.logs i log hlog).settled_iff_count.mp hcount⟩
    simp only [RingLogs.call, if_neg haccepted, hlog]
    exact List.mem_append_right _ List.mem_cons_self
  | append i record => exact absurd trivial hc
  | clear i => exact absurd trivial hc
  | size i => exact absurd trivial hc
  | peekOldest i out => exact absurd trivial hc
  | peekNewest i out => exact absurd trivial hc
  | foreachChronological i visit => exact absurd trivial hc
  | foreachNewestFirst i visit => exact absurd trivial hc
  | moveAssign dst src => exact absurd trivial hc
  | destroy i => exact absurd trivial hc

/-- **The logs keep the newest records**: in every run each log answers by the last records of its
history, as many as its capacity, and a log without storage as an empty one that refuses to append.
Every record in storage given back was destroyed exactly once, if and only if no log was
initialized while it held records. -/
theorem keeps_newest (ι : Type*) [DecidableEq ι] (rec : RecordType w V)
    (calls : List (Call ι rec)) :
    Mealy.outputs call (start ι rec) calls = Mealy.outputs Histories.call (fun _ => none) calls ∧
      (rec.needsDestroy = true →
        (Mealy.EveryCall call InitsEmpty (start ι rec) calls ↔
          ∀ core ∈ (Mealy.final call (start ι rec) calls).givenBack,
            core.cells.ledger.Settled)) := by
  constructor
  · have hstart : Keep (start ι rec) fun _ => none := fun _ => .none
    exact (Mealy.simulation Keep (fun _ _ c hkeep _ => hkeep.call c)
      (Mealy.everyCall_true _ calls) hstart).1
  · intro hneeds
    refine Mealy.everyCall_iff_final AllSound
      (fun s => ∃ core ∈ s.givenBack, ¬ core.cells.ledger.Settled)
      (fun s => ∀ core ∈ s.givenBack, core.cells.ledger.Settled)
      (fun s c h hc => h.step hneeds c hc) (fun s c h hc => h.forgotten c hc) ?_
      (fun s h => h.givenBack) ?_ ⟨?_, ?_⟩ calls
    · rintro s c ⟨core, hcore, hnot⟩
      exact ⟨core, (givenBack_call s c).subset hcore, hnot⟩
    · rintro s ⟨core, hcore, hnot⟩ hall
      exact hnot (hall core hcore)
    · intro i log hlog
      cases hlog
    · intro core hcore
      exact absurd hcore List.not_mem_nil

/-- Records of two bytes with a destructor. -/
def numberRecord : RecordType 16 ℕ where
  policy := .bytewise ℕ
  needsDestroy := true
  size := 2
  size_pos := Nat.two_pos
  nonFailing := ElementPolicy.nonFailing_bytewise ℕ

/-- Storage for two of them. -/
def pairStorage : LogStorage numberRecord where
  capacity := 2
  memory := some fun _ => 0
  real := by decide

/-- A log that wraps and is moved, and an append to the log that it was moved from. -/
def pairLogCalls : List (Call Bool numberRecord) :=
  [.init false pairStorage, .append false 1, .append false 2, .append false 3,
    .foreachNewestFirst false fun _ => .ok, .moveAssign true false, .append false 4,
    .append true 5, .peekOldest true 0, .foreachChronological true fun _ => .full, .destroy true]

/-- The newest records are kept in such a run, and each of the four appended was destroyed once. -/
theorem keeps_newest_pairLogCalls :
    Mealy.outputs call (start Bool numberRecord) pairLogCalls =
        [.status .ok, .status .ok, .status .ok, .status .ok, .visits .ok [3, 2], .done,
          .status .invalid, .status .ok, .value .ok (some 3), .visits .full [3], .done] ∧
      ∀ core ∈ (Mealy.final call (start Bool numberRecord) pairLogCalls).givenBack,
        core.cells.ledger.Settled :=
  ⟨by decide +kernel, ((keeps_newest Bool numberRecord pairLogCalls).2 rfl).mp
    ⟨.inr rfl, trivial, trivial, trivial, trivial, trivial, trivial, trivial, trivial, trivial,
      trivial, trivial⟩⟩

end RingLogs

end Memkit
