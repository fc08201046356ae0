import Mathlib.Data.List.DropRight
import Memkit.Sequences.RingBufferDeque

/-! # The byte ring

`ByteRing` of `containers/byte_ring.hpp`: a ring buffer of plain bytes that does not grow, with
transfers of many bytes at once.

* **`pushBytes`**, **`popBytes`** — the loops, which stop early and report how far they came.
* **`call`** — the operations.
* **`accepted`**, **`popped`** — the bytes that a call takes in and hands out.
* **`Stores`** — the ring stores some bytes; a lemma for each operation says which it stores then.
* **`stream_law`** — what holds in every run. -/

namespace Memkit

open Mealy RingBuffer

variable {w : ℕ}

/-- What a byte ring is initialised with. -/
structure ByteRingConfig (w : ℕ) where
  /-- Whether the policy has the `overwrite_on_full` bit. -/
  overwriteOnFull : Bool
  capacity : BitVec w
  capacity_pos : 0 < capacity.toNat
  /-- A block of memory has at most `PTRDIFF_MAX` bytes. -/
  capacity_real : capacity.toNat < 2 ^ (w - 1)

namespace ByteRingConfig

/-- The size of a byte. -/
theorem toNat_one (cfg : ByteRingConfig w) : (1 : BitVec w).toNat = 1 := by
  have hpos := cfg.capacity_pos
  have hlt := cfg.capacity.isLt
  show 1 % 2 ^ w = 1
  exact Nat.mod_eq_of_lt (by omega)

/-- The ring buffer of the bytes; it never asks for memory. -/
def ring (cfg : ByteRingConfig w) : RingConfig w (BitVec 8) where
  policy := .bytewise (BitVec 8)
  needsDestroy := false
  elemSize := 1
  growable := false
  overwriteOnFull := cfg.overwriteOnFull
  allocate _ _ := .unsupported
  initialCapacity := cfg.capacity
  elemSize_pos := by
    rw [cfg.toNat_one]
    exact Nat.one_pos
  initialCapacity_pos := cfg.capacity_pos
  storage_real := by
    rw [cfg.toNat_one, Nat.mul_one]
    exact cfg.capacity_real
  allocate_real _ _ h := nomatch h

end ByteRingConfig

namespace ByteRing

/-- A pointer and a count: the null pointer, or as many bytes as the list has. -/
inductive Chunk
  | null (count : ℕ)
  | bytes (data : List (BitVec 8))
  deriving DecidableEq, Repr

/-- The members of `ByteRing` that change. -/
abbrev State (w : ℕ) : Type := RingBuffer w (BitVec 8)

variable (cfg : ByteRingConfig w)

/-- `push_byte`. -/
def pushByte (s : State w) (byte : BitVec 8) : Status × State w :=
  pushBack cfg.ring s (some byte) cfg.overwriteOnFull

/-- `pop_byte`; `out` is what the pointer points to. -/
def popByte (s : State w) (out : Option (BitVec 8)) : (Status × Option (BitVec 8)) × State w :=
  popFront cfg.ring s out

/-- The loop of `push_bytes`, with the bytes that are left: the status that it ends with if that is
neither ok nor full, and the number of bytes written. -/
def pushLoop : List (BitVec 8) → ℕ → State w → (Option Status × ℕ) × State w
  | [], written, s => ((none, written), s)
  | byte :: data, written, s =>
    let (st, s) := pushByte cfg s byte
    if st = .full then ((none, written), s)
    else if st ≠ .ok then ((some st, written), s)
    else pushLoop data (written + 1) s

/-- `push_bytes`: the status, and what it writes to `out_written` unless that is null. -/
def pushBytes (s : State w) : Chunk → (Status × Option ℕ) × State w
  | .null count => if 0 < count then ((.nullPtr, none), s) else ((.ok, some 0), s)
  | .bytes data =>
    let ((early, written), s) := pushLoop cfg data 0 s
    match early with
    | some st => ((st, some written), s)
    | none => ((if written = data.length then .ok else .full, some written), s)

/-- The loop of `pop_bytes`, with the part of the buffer that is left: the status that it ends with
if that is neither ok nor empty, the number of bytes read, and that part afterwards. -/
def popLoop : List (BitVec 8) → ℕ → State w →
    ((Option Status × ℕ) × List (BitVec 8)) × State w
  | [], read, s => (((none, read), []), s)
  | old :: out, read, s =>
    if s.count = 0 then (((none, read), old :: out), s)
    else
      let ((st, byte), s) := popByte cfg s (some old)
      let byte := byte.getD old
      if st = .empty then (((none, read), byte :: out), s)
      else if st ≠ .ok then (((some st, read), byte :: out), s)
      else
        let ((result, out), s) := popLoop out (read + 1) s
        ((result, byte :: out), s)

/-- `pop_bytes`: the status, what it writes to `out_read` unless that is null, and what is in the
buffer afterwards. -/
def popBytes (s : State w) : Chunk → ((Status × Option ℕ) × List (BitVec 8)) × State w
  | .null count => if 0 < count then (((.nullPtr, none), []), s) else (((.ok, some 0), []), s)
  | .bytes out =>
    let (((early, read), out'), s) := popLoop cfg out 0 s
    match early with
    | some st => (((st, some read), out'), s)
    | none => (((if read = out.length then .ok else .empty, some read), out'), s)

/-- A call on the byte ring. -/
inductive Call
  | pushByte (byte : BitVec 8)
  | pushBytes (data : Chunk)
  | popByte (out : Option (BitVec 8))
  | popBytes (out : Chunk)
  deriving DecidableEq, Repr

/-- What a call returns, and what it writes to the memory of the caller. -/
inductive Reply
  | status (result : Status)
  | value (result : Status) (out : Option (BitVec 8))
  | counted (result : Status) (count : Option ℕ) (out : List (BitVec 8))
  deriving DecidableEq, Repr

/-- Dispatch a call. -/
def call (s : State w) : Call → Reply × State w
  | .pushByte byte =>
    let (st, s) := pushByte cfg s byte
    (.status st, s)
  | .pushBytes data =>
    let ((st, written), s) := pushBytes cfg s data
    (.counted st written [], s)
  | .popByte out =>
    let ((st, out), s) := popByte cfg s out
    (.value st out, s)
  | .popBytes out =>
    let (((st, read), out), s) := popBytes cfg s out
    (.counted st read out, s)

/-! ## What is transferred -/

/-- The bytes that a call takes in: those whose push was ok. -/
def accepted (s : State w) : Call → List (BitVec 8)
  | .pushByte byte => if (pushByte cfg s byte).1 = .ok then [byte] else []
  | .pushBytes (.bytes data) => data.take (pushLoop cfg data 0 s).1.2
  | _ => []

/-- The bytes that a call takes out: those whose pop was ok. A pop without a pointer takes out the
byte that it would write to one. -/
def popped (s : State w) : Call → List (BitVec 8)
  | .popByte _ => if (popByte cfg s (some 0)).1.1 = .ok then (popByte cfg s (some 0)).1.2.toList else []
  | .popBytes (.bytes out) => (popLoop cfg out 0 s).1.2.take (popLoop cfg out 0 s).1.1.2
  | _ => []

/-- The bytes transferred by a sequence of calls, in order. -/
def transferred (moved : State w → Call → List (BitVec 8)) : State w → List Call → List (BitVec 8)
  | _, [] => []
  | s, c :: calls => moved s c ++ transferred moved (call cfg s c).2 calls

/-! ## One byte -/

/-- The ring is initialised and stores the bytes. -/
def Stores (s : State w) (items : List (BitVec 8)) : Prop :=
  Represents s ⟨items, cfg.capacity.toNat, 0⟩

variable {cfg} {s s' : State w} {items data out : List (BitVec 8)} {byte : BitVec 8}

theorem stores_init (cfg : ByteRingConfig w) (memory : ℕ × ℕ → BitVec 8) :
    Stores cfg (init cfg.ring memory) [] :=
  represents_init cfg.ring memory

theorem Stores.capacity_eq (h : Stores cfg s items) : s.capacity.toNat = cfg.capacity.toNat :=
  h.room

theorem Stores.count_eq (h : Stores cfg s items) : s.count.toNat = items.length :=
  h.length.symm

theorem Stores.length_le (h : Stores cfg s items) : items.length ≤ cfg.capacity.toNat := by
  rw [← h.capacity_eq, ← h.count_eq]
  exact h.inv.indices.count_le

/-- A push by the reference. -/
theorem Stores.pushByte (h : Stores cfg s items) (byte : BitVec 8) :
    (pushByte cfg s byte).1 = (Deque.pushBack cfg.ring ⟨items, cfg.capacity.toNat, 0⟩ (some byte)
        cfg.overwriteOnFull).1 ∧
      Represents (ByteRing.pushByte cfg s byte).2 (Deque.pushBack cfg.ring
        ⟨items, cfg.capacity.toNat, 0⟩ (some byte) cfg.overwriteOnFull).2 :=
  h.pushBack (ElementPolicy.nonFailing_bytewise (BitVec 8)) (some byte) cfg.overwriteOnFull
    fun _ hgrow => by cases hgrow

/-- **A push with room.** -/
theorem Stores.pushByte_room (h : Stores cfg s items) (hroom : items.length < cfg.capacity.toNat)
    (byte : BitVec 8) : (ByteRing.pushByte cfg s byte).1 = .ok ∧
      Stores cfg (ByteRing.pushByte cfg s byte).2 (items ++ [byte]) := by
  obtain ⟨hst, hrep⟩ := h.pushByte byte
  simp only [Deque.pushBack, Deque.makeRoom, if_pos hroom, ne_eq, not_true_eq_false, if_false] at hst hrep
  exact ⟨hst, hrep⟩

/-- **A push that is rejected.** -/
theorem Stores.pushByte_full (h : Stores cfg s items) (hfull : items.length = cfg.capacity.toNat)
    (hreject : cfg.overwriteOnFull = false) (byte : BitVec 8) :
    ByteRing.pushByte cfg s byte = (.full, s) := by
  have hcount : s.count = s.capacity := by
    apply BitVec.eq_of_toNat_eq
    rw [h.count_eq, hfull, h.capacity_eq]
  rw [ByteRing.pushByte, pushBack, if_neg h.inv.capacity_ne, if_pos ⟨hcount, rfl, hreject, hreject⟩]

/-- **A push that overwrites**: the last bytes that fit are stored. -/
theorem Stores.pushByte_overwrite (h : Stores cfg s items) (hover : cfg.overwriteOnFull = true)
    (byte : BitVec 8) : (ByteRing.pushByte cfg s byte).1 = .ok ∧
      Stores cfg (ByteRing.pushByte cfg s byte).2
        ((items ++ [byte]).rtake cfg.capacity.toNat) := by
  have hle := h.length_le
  have hpos := cfg.capacity_pos
  by_cases hroom : items.length < cfg.capacity.toNat
  · obtain ⟨hst, hrep⟩ := h.pushByte_room hroom byte
    refine ⟨hst, ?_⟩
    rw [List.rtake, List.length_append, List.length_singleton, Nat.sub_eq_zero_of_le hroom,
      List.drop_zero]
    exact hrep
  · obtain ⟨hst, hrep⟩ := h.pushByte byte
    have hflag : cfg.ring.overwriteOnFull = true := hover
    have hgrow : cfg.ring.growable = false := rfl
    simp only [Deque.pushBack, Deque.makeRoom, if_neg hroom, hgrow, hover, hflag, Bool.or_self,
      Bool.false_eq_true, ne_eq, not_true_eq_false, if_false, if_true] at hst hrep
    refine ⟨hst, ?_⟩
    have hone : items.length + 1 - cfg.capacity.toNat = 1 := by omega
    have hdrop : (items ++ [byte]).drop 1 = items.tail ++ [byte] := by
      cases items with
      | nil => exact absurd (show (0 : ℕ) < cfg.capacity.toNat from hpos) hroom
      | cons x xs => rfl
    rw [List.rtake, List.length_append, List.length_singleton, hone, hdrop]
    exact hrep

/-- **A pop.** -/
theorem Stores.popByte (h : Stores cfg s items) (old : Option (BitVec 8)) :
    (popByte cfg s old).1 = Deque.report items.head? .empty old ∧
      Stores cfg (ByteRing.popByte cfg s old).2 items.tail :=
  h.popFront (ElementPolicy.nonFailing_bytewise (BitVec 8)) old

/-! ## Many bytes -/

/-- Taking the last elements in two steps. -/
theorem rtake_append_rtake {α : Type*} (xs ys : List α) (n : ℕ) :
    (xs.rtake n ++ ys).rtake n = (xs ++ ys).rtake n := by
  rw [List.rtake_eq_reverse_take_reverse, List.rtake_eq_reverse_take_reverse,
    List.rtake_eq_reverse_take_reverse, List.reverse_append, List.reverse_append,
    List.reverse_reverse, List.take_append, List.take_append, List.take_take,
    min_eq_left (Nat.sub_le n _)]

/-- The loop after a push that is ok. -/
theorem pushLoop_cons_ok (hst : (pushByte cfg s byte).1 = .ok) (data : List (BitVec 8))
    (written : ℕ) :
    pushLoop cfg (byte :: data) written s =
      pushLoop cfg data (written + 1) (pushByte cfg s byte).2 := by
  rw [pushLoop]
  generalize ByteRing.pushByte cfg s byte = r at hst ⊢
  obtain ⟨st, s'⟩ := r
  obtain rfl : st = .ok := hst
  rfl

/-- The loop on a full ring. -/
theorem Stores.pushLoop_full (h : Stores cfg s items) (hfull : items.length = cfg.capacity.toNat)
    (hreject : cfg.overwriteOnFull = false) (data : List (BitVec 8)) (written : ℕ) :
    pushLoop cfg data written s = ((none, written), s) := by
  cases data with
  | nil => rfl
  | cons byte data =>
    rw [pushLoop, h.pushByte_full hfull hreject]
    rfl

/-- **Pushing many bytes** stops at the first one without room. -/
theorem Stores.pushLoop_reject (h : Stores cfg s items) (hreject : cfg.overwriteOnFull = false)
    (data : List (BitVec 8)) (written : ℕ) :
    (pushLoop cfg data written s).1 =
        (none, written + min data.length (cfg.capacity.toNat - items.length)) ∧
      Stores cfg (pushLoop cfg data written s).2
        (items ++ data.take (cfg.capacity.toNat - items.length)) := by
  induction data generalizing s items written with
  | nil =>
    rw [List.take_nil, List.append_nil, List.length_nil, Nat.zero_min]
    exact ⟨rfl, h⟩
  | cons byte data ih =>
    by_cases hroom : items.length < cfg.capacity.toNat
    · obtain ⟨hst, hnext⟩ := h.pushByte_room hroom byte
      obtain ⟨hcount, hstores⟩ := ih hnext (written + 1)
      have hsub : cfg.capacity.toNat - items.length =
          cfg.capacity.toNat - (items ++ [byte]).length + 1 := by
        rw [List.length_append, List.length_singleton]
        omega
      rw [pushLoop_cons_ok hst, hcount, hsub]
      refine ⟨?_, ?_⟩
      · rw [List.length_cons]
        congr 1
        omega
      · rw [List.take_succ_cons]
        rwa [List.append_assoc, List.singleton_append] at hstores
    · have hfull : items.length = cfg.capacity.toNat := by
        have hle := h.length_le
        omega
      rw [h.pushLoop_full hfull hreject, hfull, Nat.sub_self, Nat.min_zero, List.take_zero,
        List.append_nil]
      exact ⟨rfl, h⟩

/-- **Pushing many bytes** over the first ones. -/
theorem Stores.pushLoop_overwrite (h : Stores cfg s items) (hover : cfg.overwriteOnFull = true)
    (data : List (BitVec 8)) (written : ℕ) :
    (pushLoop cfg data written s).1 = (none, written + data.length) ∧
      Stores cfg (pushLoop cfg data written s).2 ((items ++ data).rtake cfg.capacity.toNat) := by
  induction data generalizing s items written with
  | nil =>
    refine ⟨rfl, ?_⟩
    rw [List.append_nil, List.rtake, Nat.sub_eq_zero_of_le h.length_le, List.drop_zero]
    exact h
  | cons byte data ih =>
    obtain ⟨hst, hnext⟩ := h.pushByte_overwrite hover byte
    obtain ⟨hcount, hstores⟩ := ih hnext (written + 1)
    rw [rtake_append_rtake, List.append_assoc, List.singleton_append] at hstores
    rw [pushLoop_cons_ok hst, hcount, List.length_cons]
    refine ⟨?_, hstores⟩
    congr 1
    omega

/-- The loop after a pop that is ok. -/
theorem popLoop_cons_ok {old : BitVec 8} (hcount : s.count ≠ 0)
    (hpop : popByte cfg s (some old) = ((.ok, some byte), s')) (out : List (BitVec 8)) (read : ℕ) :
    popLoop cfg (old :: out) read s =
      (((popLoop cfg out (read + 1) s').1.1, byte :: (popLoop cfg out (read + 1) s').1.2),
        (popLoop cfg out (read + 1) s').2) := by
  rw [popLoop, if_neg hcount, hpop]
  rfl

/-- **Popping many bytes** stops at the last one. -/
theorem Stores.popLoop (h : Stores cfg s items) (out : List (BitVec 8)) (read : ℕ) :
    (popLoop cfg out read s).1 = ((none, read + min out.length items.length),
        items.take out.length ++ out.drop items.length) ∧
      Stores cfg (ByteRing.popLoop cfg out read s).2 (items.drop out.length) := by
  induction out generalizing s items read with
  | nil =>
    rw [List.length_nil, Nat.zero_min, List.take_zero, List.drop_nil, List.drop_zero]
    exact ⟨rfl, h⟩
  | cons old out ih =>
    by_cases hcount : s.count = 0
    · have hnil : items = [] := h.count_eq_zero.mp hcount
      rw [ByteRing.popLoop, if_pos hcount, hnil]
      rw [hnil] at h
      exact ⟨rfl, h⟩
    · cases items with
      | nil => exact absurd (h.count_eq_zero.mpr rfl) hcount
      | cons byte items =>
        obtain ⟨hout, hnext⟩ := h.popByte (some old)
        obtain ⟨hread, hstores⟩ := ih hnext (read + 1)
        have hpop : ByteRing.popByte cfg s (some old) =
            ((.ok, some byte), (ByteRing.popByte cfg s (some old)).2) := Prod.ext hout rfl
        rw [popLoop_cons_ok hcount hpop, hread]
        refine ⟨?_, hstores⟩
        rw [List.length_cons, List.length_cons, Nat.add_min_add_right]
        show ((none, read + 1 + min out.length items.length), _) = _
        rw [show read + 1 + min out.length items.length =
          read + (min out.length items.length + 1) by omega]
        rfl

/-! ## Chunks -/

/-- What `push_bytes` counts does not depend on where the count starts. -/
theorem pushLoop_shift (data : List (BitVec 8)) (written : ℕ) (s : State w) :
    pushLoop cfg data written s =
      (((pushLoop cfg data 0 s).1.1, written + (pushLoop cfg data 0 s).1.2),
        (pushLoop cfg data 0 s).2) := by
  induction data generalizing written s with
  | nil => rfl
  | cons byte data ih =>
    rw [pushLoop, pushLoop]
    generalize pushByte cfg s byte = r
    obtain ⟨st, s'⟩ := r
    dsimp only
    split
    · rfl
    · split
      · rfl
      · rw [ih (written + 1), ih (0 + 1)]
        simp [Nat.add_assoc]

/-- **Two chunks** are pushed like one. -/
theorem Stores.pushLoop_append (h : Stores cfg s items) (xs ys : List (BitVec 8)) (written : ℕ) :
    pushLoop cfg (xs ++ ys) written s =
      pushLoop cfg ys (pushLoop cfg xs written s).1.2 (pushLoop cfg xs written s).2 := by
  induction xs generalizing s items written with
  | nil => rfl
  | cons byte xs ih =>
    rw [List.cons_append]
    cases hover : cfg.overwriteOnFull with
    | true =>
      obtain ⟨hst, hnext⟩ := h.pushByte_overwrite hover byte
      rw [pushLoop_cons_ok hst, pushLoop_cons_ok hst]
      exact ih hnext (written + 1)
    | false =>
      by_cases hroom : items.length < cfg.capacity.toNat
      · obtain ⟨hst, hnext⟩ := h.pushByte_room hroom byte
        rw [pushLoop_cons_ok hst, pushLoop_cons_ok hst]
        exact ih hnext (written + 1)
      · have hfull : items.length = cfg.capacity.toNat := by
          have hle := h.length_le
          omega
        rw [h.pushLoop_full hfull hover, h.pushLoop_full hfull hover, h.pushLoop_full hfull hover]

/-- What `pop_bytes` counts does not depend on where the count starts. -/
theorem popLoop_shift (out : List (BitVec 8)) (read : ℕ) (s : State w) :
    popLoop cfg out read s =
      ((((popLoop cfg out 0 s).1.1.1, read + (popLoop cfg out 0 s).1.1.2),
        (popLoop cfg out 0 s).1.2), (popLoop cfg out 0 s).2) := by
  induction out generalizing read s with
  | nil => rfl
  | cons old out ih =>
    rw [popLoop, popLoop]
    split
    · rfl
    · generalize popByte cfg s (some old) = r
      obtain ⟨⟨st, byte⟩, s'⟩ := r
      dsimp only
      split
      · rfl
      · split
        · rfl
        · rw [ih (read + 1), ih (0 + 1)]
          simp [Nat.add_assoc]

/-- **Two buffers** are filled like one. -/
theorem Stores.popLoop_append (h : Stores cfg s items) (xs ys : List (BitVec 8)) (read : ℕ) :
    ByteRing.popLoop cfg (xs ++ ys) read s =
      (((ByteRing.popLoop cfg ys (ByteRing.popLoop cfg xs read s).1.1.2
            (ByteRing.popLoop cfg xs read s).2).1.1,
          (ByteRing.popLoop cfg xs read s).1.2 ++
            (ByteRing.popLoop cfg ys (ByteRing.popLoop cfg xs read s).1.1.2
              (ByteRing.popLoop cfg xs read s).2).1.2),
        (ByteRing.popLoop cfg ys (ByteRing.popLoop cfg xs read s).1.1.2
          (ByteRing.popLoop cfg xs read s).2).2) := by
  induction xs generalizing s items read with
  | nil => rfl
  | cons old xs ih =>
    rw [List.cons_append]
    by_cases hcount : s.count = 0
    · have hstop : ∀ out, ByteRing.popLoop cfg out read s = (((none, read), out), s) := by
        intro out
        cases out with
        | nil => rfl
        | cons old out => rw [ByteRing.popLoop, if_pos hcount]
      rw [hstop, hstop, hstop]
      rfl
    · cases items with
      | nil => exact absurd (h.count_eq_zero.mpr rfl) hcount
      | cons byte items =>
        obtain ⟨hout, hnext⟩ := h.popByte (some old)
        have hpop : ByteRing.popByte cfg s (some old) =
            ((.ok, some byte), (ByteRing.popByte cfg s (some old)).2) := Prod.ext hout rfl
        rw [popLoop_cons_ok hcount hpop, popLoop_cons_ok hcount hpop, ih hnext (read + 1)]
        rfl

/-- `push_bytes` after its loop. -/
theorem pushBytes_of_loop {n : ℕ} (hloop : (pushLoop cfg data 0 s).1 = (none, n)) :
    pushBytes cfg s (.bytes data) =
      ((if n = data.length then .ok else .full, some n), (pushLoop cfg data 0 s).2) := by
  rw [pushBytes]
  generalize pushLoop cfg data 0 s = r at hloop ⊢
  obtain ⟨⟨early, written⟩, s'⟩ := r
  obtain ⟨rfl, rfl⟩ := Prod.mk.inj hloop
  rfl

/-- **`push_bytes`**: how many bytes are taken, and what is stored then. -/
theorem Stores.pushBytes (h : Stores cfg s items) (data : List (BitVec 8)) :
    ∃ n ≤ data.length, (cfg.overwriteOnFull = true → n = data.length) ∧
      (cfg.overwriteOnFull = false → n = min data.length (cfg.capacity.toNat - items.length)) ∧
      (pushLoop cfg data 0 s).1 = (none, n) ∧
      Stores cfg (pushLoop cfg data 0 s).2
        (if cfg.overwriteOnFull then (items ++ data).rtake cfg.capacity.toNat
        else items ++ data.take n) := by
  cases hover : cfg.overwriteOnFull with
  | true =>
    obtain ⟨hcount, hstores⟩ := h.pushLoop_overwrite hover data 0
    rw [Nat.zero_add] at hcount
    refine ⟨data.length, le_rfl, fun _ => rfl, nofun, hcount, ?_⟩
    rw [if_pos rfl]
    exact hstores
  | false =>
    obtain ⟨hcount, hstores⟩ := h.pushLoop_reject hover data 0
    rw [Nat.zero_add] at hcount
    refine ⟨_, min_le_left _ _, nofun, fun _ => rfl, hcount, ?_⟩
    rw [if_neg Bool.false_ne_true, min_comm, ← List.take_eq_take_min]
    exact hstores

/-- `pop_bytes` after its loop. -/
theorem popBytes_of_loop {n : ℕ} (hloop : (popLoop cfg out 0 s).1 = ((none, n), data)) :
    popBytes cfg s (.bytes out) =
      (((if n = out.length then .ok else .empty, some n), data), (popLoop cfg out 0 s).2) := by
  rw [popBytes]
  generalize popLoop cfg out 0 s = r at hloop ⊢
  obtain ⟨⟨⟨early, read⟩, out'⟩, s'⟩ := r
  obtain ⟨hcount, rfl⟩ := Prod.mk.inj hloop
  obtain ⟨rfl, rfl⟩ := Prod.mk.inj hcount
  rfl

/-- **`pop_bytes`**: how many bytes are handed out, and what is left. -/
theorem Stores.popBytes (h : Stores cfg s items) (out : List (BitVec 8)) :
    (ByteRing.popLoop cfg out 0 s).1 = ((none, min out.length items.length),
        items.take out.length ++ out.drop items.length) ∧
      Stores cfg (ByteRing.popLoop cfg out 0 s).2 (items.drop out.length) := by
  obtain ⟨hread, hstores⟩ := h.popLoop out 0
  rw [Nat.zero_add] at hread
  exact ⟨hread, hstores⟩

/-- A count is the sum of the lengths if both its parts are. -/
theorem status_eq_ok {a b : ℕ} {st : Status} (hst : st ≠ .ok) :
    (if a = b then Status.ok else st) = .ok ↔ a = b := by
  by_cases hab : a = b
  · rw [if_pos hab]
    exact iff_of_true rfl hab
  · rw [if_neg hab]
    exact iff_of_false hst hab

/-- **A chunk is pushed like any partition of it**: the same state, as many bytes, and ok if all the
parts are. -/
theorem Stores.pushBytes_flatten (h : Stores cfg s items) (chunks : List (List (BitVec 8))) :
    let push := fun s data => ByteRing.pushBytes cfg s (.bytes data)
    (push s chunks.flatten).2 = final push s chunks ∧
      (push s chunks.flatten).1.2 =
        some ((outputs push s chunks).map fun r => r.2.getD 0).sum ∧
      ((push s chunks.flatten).1.1 = .ok ↔ ∀ r ∈ outputs push s chunks, r.1 = .ok) := by
  intro push
  induction chunks generalizing s items with
  | nil => exact ⟨rfl, rfl, iff_of_true rfl nofun⟩
  | cons data chunks ih =>
    obtain ⟨m, hm, -, -, hfirst, hstores⟩ := h.pushBytes data
    obtain ⟨n, hn, -, -, hrest, -⟩ := hstores.pushBytes chunks.flatten
    have hhead : push s data =
        ((if m = data.length then .ok else .full, some m), (pushLoop cfg data 0 s).2) :=
      pushBytes_of_loop hfirst
    have htail : push (pushLoop cfg data 0 s).2 chunks.flatten =
        ((if n = chunks.flatten.length then .ok else .full, some n),
          (pushLoop cfg chunks.flatten 0 (pushLoop cfg data 0 s).2).2) := pushBytes_of_loop hrest
    -- the loop over the whole chunk, cut after the first part
    have hloop : pushLoop cfg (data ++ chunks.flatten) 0 s =
        ((none, m + n), (pushLoop cfg chunks.flatten 0 (pushLoop cfg data 0 s).2).2) := by
      rw [h.pushLoop_append, hfirst, pushLoop_shift, hrest]
    have hwhole : push s (data ++ chunks.flatten) =
        ((if m + n = (data ++ chunks.flatten).length then .ok else .full, some (m + n)),
          (pushLoop cfg chunks.flatten 0 (pushLoop cfg data 0 s).2).2) := by
      have hpush := @pushBytes_of_loop w cfg s _ (m + n) (congrArg Prod.fst hloop)
      rw [hloop] at hpush
      exact hpush
    obtain ⟨hstate, hcount, hst⟩ := ih hstores
    rw [htail] at hstate hcount hst
    rw [List.flatten_cons, hwhole, outputs_cons, final_cons, hhead]
    refine ⟨hstate, ?_, ?_⟩
    · rw [List.map_cons, List.sum_cons, ← Option.some.inj hcount]
      rfl
    · rw [List.forall_mem_cons, ← hst, List.length_append]
      dsimp only
      have hne : Status.full ≠ .ok := by decide
      rw [status_eq_ok hne, status_eq_ok hne, status_eq_ok hne]
      omega

/-- **A buffer is filled like any partition of it**: the same state, the same bytes, as many of them,
and ok if all the parts are. -/
theorem Stores.popBytes_flatten (h : Stores cfg s items) (outs : List (List (BitVec 8))) :
    let pop := fun s out => ByteRing.popBytes cfg s (.bytes out)
    (pop s outs.flatten).2 = final pop s outs ∧
      (pop s outs.flatten).1.1.2 = some ((outputs pop s outs).map fun r => r.1.2.getD 0).sum ∧
      (pop s outs.flatten).1.2 = ((outputs pop s outs).map fun r => r.2).flatten ∧
      ((pop s outs.flatten).1.1.1 = .ok ↔ ∀ r ∈ outputs pop s outs, r.1.1 = .ok) := by
  intro pop
  induction outs generalizing s items with
  | nil => exact ⟨rfl, rfl, rfl, iff_of_true rfl nofun⟩
  | cons out outs ih =>
    obtain ⟨hfirst, hstores⟩ := h.popBytes out
    obtain ⟨hrest, -⟩ := hstores.popBytes outs.flatten
    have hm : min out.length items.length ≤ out.length := min_le_left _ _
    have hn : min outs.flatten.length (items.drop out.length).length ≤ outs.flatten.length :=
      min_le_left _ _
    generalize min out.length items.length = m at hfirst hm
    generalize min outs.flatten.length (items.drop out.length).length = n at hrest hn
    generalize items.take out.length ++ out.drop items.length = xs at hfirst
    generalize (items.drop out.length).take outs.flatten.length ++
      outs.flatten.drop (items.drop out.length).length = ys at hrest
    have hhead : pop s out =
        (((if m = out.length then .ok else .empty, some m), xs), (ByteRing.popLoop cfg out 0 s).2) :=
      popBytes_of_loop hfirst
    have htail : pop (ByteRing.popLoop cfg out 0 s).2 outs.flatten =
        (((if n = outs.flatten.length then .ok else .empty, some n), ys),
          (ByteRing.popLoop cfg outs.flatten 0 (ByteRing.popLoop cfg out 0 s).2).2) :=
      popBytes_of_loop hrest
    -- the loop over the whole buffer, cut after the first part
    have hloop : ByteRing.popLoop cfg (out ++ outs.flatten) 0 s =
        (((none, m + n), xs ++ ys),
          (ByteRing.popLoop cfg outs.flatten 0 (ByteRing.popLoop cfg out 0 s).2).2) := by
      rw [h.popLoop_append, hfirst, popLoop_shift, hrest]
    have hwhole : pop s (out ++ outs.flatten) =
        (((if m + n = (out ++ outs.flatten).length then .ok else .empty, some (m + n)), xs ++ ys),
          (ByteRing.popLoop cfg outs.flatten 0 (ByteRing.popLoop cfg out 0 s).2).2) := by
      have hpop := @popBytes_of_loop w cfg s _ _ (m + n) (congrArg Prod.fst hloop)
      rw [hloop] at hpop
      exact hpop
    obtain ⟨hstate, hcount, hbytes, hst⟩ := ih hstores
    rw [htail] at hstate hcount hbytes hst
    rw [List.flatten_cons, hwhole, outputs_cons, final_cons, hhead]
    refine ⟨hstate, ?_, ?_, ?_⟩
    · rw [List.map_cons, List.sum_cons, ← Option.some.inj hcount]
      rfl
    · rw [List.map_cons, List.flatten_cons, ← hbytes]
    · rw [List.forall_mem_cons, ← hst, List.length_append]
      dsimp only
      have hne : Status.empty ≠ .ok := by decide
      rw [status_eq_ok hne, status_eq_ok hne, status_eq_ok hne]
      omega

/-! ## The stream -/

/-- The pushes that can follow a state, one byte or many: under the rejecting policy as many bytes
are taken as fit, under the overwriting one all of them. -/
structure PushLaw (cfg : ByteRingConfig w) (s : State w) : Prop where
  byte_reject : cfg.overwriteOnFull = false → ∀ byte,
    (pushByte cfg s byte).1 = (if s.items.length < cfg.capacity.toNat then .ok else .full) ∧
      (pushByte cfg s byte).2.items =
        if s.items.length < cfg.capacity.toNat then s.items ++ [byte] else s.items
  byte_overwrite : cfg.overwriteOnFull = true → ∀ byte, (pushByte cfg s byte).1 = .ok ∧
    (pushByte cfg s byte).2.items =
      (s.items ++ [byte]).rtake (min cfg.capacity.toNat (s.items.length + 1))
  bytes_reject : cfg.overwriteOnFull = false → ∀ data : List (BitVec 8),
    let n := min data.length (cfg.capacity.toNat - s.items.length)
    (pushBytes cfg s (.bytes data)).1 = (if n = data.length then .ok else .full, some n) ∧
      (pushBytes cfg s (.bytes data)).2.items = s.items ++ data.take n
  bytes_overwrite : cfg.overwriteOnFull = true → ∀ data : List (BitVec 8),
    (pushBytes cfg s (.bytes data)).1 = (.ok, some data.length) ∧
      (pushBytes cfg s (.bytes data)).2.items = (s.items ++ data).rtake cfg.capacity.toNat
  /-- A chunk and any partition of it. -/
  partition : ∀ chunks : List (List (BitVec 8)),
    let push := fun s data => pushBytes cfg s (.bytes data)
    (push s chunks.flatten).2 = final push s chunks ∧
      (push s chunks.flatten).1.2 =
        some ((outputs push s chunks).map fun r => r.2.getD 0).sum ∧
      ((push s chunks.flatten).1.1 = .ok ↔ ∀ r ∈ outputs push s chunks, r.1 = .ok)

/-- The pops that can follow a state, one byte or many: as many bytes are delivered as are stored,
and the rest of the buffer is left alone. -/
structure PopLaw (cfg : ByteRingConfig w) (s : State w) : Prop where
  byte : ∀ old, (popByte cfg s old).1 = Deque.report s.items.head? .empty old ∧
    (popByte cfg s old).2.items = s.items.tail
  bytes : ∀ out : List (BitVec 8),
    let n := min out.length s.items.length
    (popBytes cfg s (.bytes out)).1 = ((if n = out.length then .ok else .empty, some n),
        s.items.take out.length ++ out.drop s.items.length) ∧
      (popBytes cfg s (.bytes out)).2.items = s.items.drop out.length
  /-- A buffer and any partition of it. -/
  partition : ∀ outs : List (List (BitVec 8)),
    let pop := fun s out => popBytes cfg s (.bytes out)
    (pop s outs.flatten).2 = final pop s outs ∧
      (pop s outs.flatten).1.1.2 = some ((outputs pop s outs).map fun r => r.1.2.getD 0).sum ∧
      (pop s outs.flatten).1.2 = ((outputs pop s outs).map fun r => r.2).flatten ∧
      ((pop s outs.flatten).1.1.1 = .ok ↔ ∀ r ∈ outputs pop s outs, r.1.1 = .ok)

/-- The pushes into a ring that stores some bytes. -/
theorem Stores.pushLaw (h : Stores cfg s items) : PushLaw cfg s := by
  have hitems : s.items = items := h.items
  refine ⟨fun hreject byte => ?_, fun hover byte => ?_, fun hreject data => ?_,
    fun hover data => ?_, h.pushBytes_flatten⟩
  · rw [hitems]
    by_cases hroom : items.length < cfg.capacity.toNat
    · obtain ⟨hst, hnext⟩ := h.pushByte_room hroom byte
      rw [if_pos hroom, if_pos hroom]
      exact ⟨hst, hnext.items⟩
    · have hfull : items.length = cfg.capacity.toNat := by
        have hle := h.length_le
        omega
      rw [h.pushByte_full hfull hreject, if_neg hroom, if_neg hroom]
      exact ⟨rfl, hitems⟩
  · obtain ⟨hst, hnext⟩ := h.pushByte_overwrite hover byte
    refine ⟨hst, hnext.items.trans ?_⟩
    have hlen : (items ++ [byte]).length = items.length + 1 := List.length_append
    have hle := h.length_le
    rw [hitems, List.rtake, List.rtake, hlen,
      show items.length + 1 - min cfg.capacity.toNat (items.length + 1) =
        items.length + 1 - cfg.capacity.toNat by omega]
  · obtain ⟨n, -, -, hn, hloop, hstores⟩ := h.pushBytes data
    have hitems' := hstores.items
    rw [if_neg (Bool.eq_false_iff.mp hreject), hn hreject] at hitems'
    rw [hitems, pushBytes_of_loop hloop, hn hreject]
    exact ⟨rfl, hitems'⟩
  · obtain ⟨n, -, hn, -, hloop, hstores⟩ := h.pushBytes data
    have hitems' := hstores.items
    rw [if_pos hover] at hitems'
    rw [hitems, pushBytes_of_loop hloop, hn hover, if_pos rfl]
    exact ⟨rfl, hitems'⟩

/-- The pops from a ring that stores some bytes. -/
theorem Stores.popLaw (h : Stores cfg s items) : PopLaw cfg s := by
  have hitems : s.items = items := h.items
  refine ⟨fun old => ?_, fun out => ?_, h.popBytes_flatten⟩
  · obtain ⟨hout, hnext⟩ := h.popByte old
    rw [hitems]
    exact ⟨hout, hnext.items⟩
  · obtain ⟨hloop, hnext⟩ := h.popBytes out
    rw [popBytes_of_loop hloop, hitems]
    exact ⟨rfl, hnext.items⟩

/-- **Each call keeps the stream**: what was stored and what comes in is what goes out and what is
stored then. -/
theorem Stores.call (h : Stores cfg s items) (c : Call) :
    ∃ items', Stores cfg (call cfg s c).2 items' ∧
      (cfg.overwriteOnFull = false →
        items ++ accepted cfg s c = popped cfg s c ++ items') := by
  cases c with
  | pushByte byte =>
    show ∃ items', Stores cfg (ByteRing.pushByte cfg s byte).2 items' ∧ (_ →
      items ++ (if (ByteRing.pushByte cfg s byte).1 = .ok then [byte] else []) = [] ++ items')
    cases hover : cfg.overwriteOnFull with
    | true => exact ⟨_, (h.pushByte_overwrite hover byte).2, nofun⟩
    | false =>
      by_cases hroom : items.length < cfg.capacity.toNat
      · obtain ⟨hst, hnext⟩ := h.pushByte_room hroom byte
        refine ⟨_, hnext, fun _ => ?_⟩
        rw [if_pos hst, List.nil_append]
      · have hfull : items.length = cfg.capacity.toNat := by
          have hle := h.length_le
          omega
        rw [h.pushByte_full hfull hover]
        refine ⟨items, h, fun _ => ?_⟩
        have hne : Status.full ≠ .ok := by decide
        rw [if_neg hne, List.append_nil, List.nil_append]
  | pushBytes data =>
    cases data with
    | null count =>
      have hstate : (ByteRing.call cfg s (.pushBytes (.null count))).2 = s := by
        unfold ByteRing.call ByteRing.pushBytes
        by_cases hcount : 0 < count
        · simp only [if_pos hcount]
        · simp only [if_neg hcount]
      rw [hstate]
      exact ⟨items, h, fun _ => List.append_nil items⟩
    | bytes data =>
      obtain ⟨n, -, -, -, hloop, hstores⟩ := h.pushBytes data
      have hstate : (ByteRing.call cfg s (.pushBytes (.bytes data))).2 =
          (pushLoop cfg data 0 s).2 := by
        rw [ByteRing.call, pushBytes_of_loop hloop]
      rw [hstate]
      refine ⟨_, hstores, fun hreject => ?_⟩
      rw [if_neg (Bool.eq_false_iff.mp hreject)]
      show items ++ data.take (pushLoop cfg data 0 s).1.2 = [] ++ _
      rw [hloop, List.nil_append]
  | popByte out =>
    obtain ⟨-, hnext⟩ := h.popByte out
    obtain ⟨hout, -⟩ := h.popByte (some 0)
    refine ⟨items.tail, hnext, fun _ => ?_⟩
    show items ++ [] = (if (ByteRing.popByte cfg s (some 0)).1.1 = .ok then
      (ByteRing.popByte cfg s (some 0)).1.2.toList else []) ++ items.tail
    rw [hout, List.append_nil]
    cases items with
    | nil => rfl
    | cons byte items => rfl
  | popBytes out =>
    cases out with
    | null count =>
      have hstate : (ByteRing.call cfg s (.popBytes (.null count))).2 = s := by
        unfold ByteRing.call ByteRing.popBytes
        by_cases hcount : 0 < count
        · simp only [if_pos hcount]
        · simp only [if_neg hcount]
      rw [hstate]
      exact ⟨items, h, fun _ => List.append_nil items⟩
    | bytes out =>
      obtain ⟨hloop, hnext⟩ := h.popBytes out
      have hstate : (ByteRing.call cfg s (.popBytes (.bytes out))).2 =
          (ByteRing.popLoop cfg out 0 s).2 := by
        rw [ByteRing.call, popBytes_of_loop hloop]
      rw [hstate]
      refine ⟨_, hnext, fun _ => ?_⟩
      show items ++ [] = (ByteRing.popLoop cfg out 0 s).1.2.take
        (ByteRing.popLoop cfg out 0 s).1.1.2 ++ _
      rw [hloop, List.append_nil]
      -- the bytes that were delivered are the first ones of the buffer
      have htake : (items.take out.length ++ out.drop items.length).take
          (min out.length items.length) = items.take out.length := by
        rw [← List.length_take, List.take_left]
      rw [htake, List.take_append_drop]

/-- **Every run keeps the stream.** -/
theorem Stores.run (h : Stores cfg s items) (calls : List Call) :
    ∃ items', Stores cfg (final (ByteRing.call cfg) s calls) items' ∧
      (cfg.overwriteOnFull = false →
        items ++ transferred cfg (accepted cfg) s calls =
          transferred cfg (popped cfg) s calls ++ items') := by
  induction calls generalizing s items with
  | nil => exact ⟨items, h, fun _ => List.append_nil items⟩
  | cons c calls ih =>
    obtain ⟨next, hnext, hstep⟩ := h.call c
    obtain ⟨last, hlast, hrest⟩ := ih hnext
    refine ⟨last, hlast, fun hreject => ?_⟩
    rw [transferred, transferred, ← List.append_assoc, hstep hreject, List.append_assoc,
      hrest hreject, ← List.append_assoc]

/-- **The stream law of the byte ring.** After any calls, over any storage: under the rejecting
policy the bytes popped and those still stored are the bytes accepted, in order; and the pushes and
pops that can follow are exact. -/
theorem stream_law (cfg : ByteRingConfig w) (memory : ℕ × ℕ → BitVec 8) (calls : List Call) :
    let start := init cfg.ring memory
    let s := final (ByteRing.call cfg) start calls
    (cfg.overwriteOnFull = false →
        transferred cfg (accepted cfg) start calls =
          transferred cfg (popped cfg) start calls ++ s.items) ∧
      PushLaw cfg s ∧ PopLaw cfg s := by
  intro start s
  obtain ⟨items, hstores, hstream⟩ := (stores_init cfg memory).run calls
  refine ⟨fun hreject => ?_, hstores.pushLaw, hstores.popLaw⟩
  rw [show s.items = items from hstores.items]
  exact hstream hreject

end ByteRing

end Memkit
