import Memkit.Foundations.Transition
import Memkit.Streams.BitStream

/-! # What is written is read back

Fields and alignments written with a new writer are read back with the same counts and alignments,
and fields read from a buffer and written again reproduce it, if the number of bits of the buffer is
a word. Calls that would leave the buffer change nothing.

* **`writeBits_cases`, `readBits_cases`** — one lemma for each operation.
* **`written_read`, `read_written`** — the two round trips.
* **`roundTrips_iff`** — they hold of every buffer of a size exactly if its bits can be counted. -/

namespace Memkit

open BigEndianBits

variable {w : ℕ} {count : BitVec 8} {value out : BitVec 32}

/-- A field has 1 to 32 bits. -/
def ValidCount (count : BitVec 8) : Prop := 0 < count.toNat ∧ count.toNat ≤ 32

theorem validCount_iff : ValidCount count ↔ ¬ (count = 0 ∨ 32 < count) := by
  have hzero : count = 0 ↔ count.toNat = 0 := by
    rw [← BitVec.toNat_inj]
    rfl
  have hbig : 32 < count ↔ 32 < count.toNat := BitVec.lt_def
  rw [ValidCount, hzero, hbig]
  omega

/-- The next multiple of eight. -/
def alignUp8 (pos : ℕ) : ℕ := (pos + 7) / 8 * 8

namespace BitReader

variable {r : BitReader w}

/-- The number of bits that is computed for the buffer. -/
def totalBits (r : BitReader w) : ℕ := (r.size * 8).toNat

theorem bitsRemaining_eq (r : BitReader w) : r.bitsRemaining = r.totalBits - r.bitPos := by
  show (if r.totalBits ≤ r.bitPos then 0 else r.totalBits - r.bitPos) = _
  by_cases hle : r.totalBits ≤ r.bitPos
  · rw [if_pos hle]
    omega
  · rw [if_neg hle]

/-- One round shifts the next bit in. -/
theorem readBit_eq (r : BitReader w) (i : ℕ) (value : BitVec 32) :
    value <<< 1 ||| ((r.bytes ((r.bitPos + i) / 8) >>> (7 - (r.bitPos + i) % 8)).setWidth 32 &&& 1) =
      shiftIn value (bitAt r.bytes (r.bitPos + i)) := by
  rw [shiftIn, bitAt]
  congr 1
  apply BitVec.eq_of_getLsbD_eq
  intro k hk
  by_cases hzero : k = 0
  · subst hzero
    simp only [BitVec.getLsbD_and, BitVec.getLsbD_setWidth, BitVec.getLsbD_ushiftRight]
    simp
  · simp [hzero]

/-- The bits of the number that the loop computes. -/
theorem getLsbD_readLoop (r : BitReader w) {k : ℕ} (hk : k < 32) (rounds i : ℕ)
    (value : BitVec 32) :
    (readLoop r rounds i value).getLsbD k =
      if k < rounds then bitAt r.bytes (r.bitPos + i + rounds - 1 - k)
      else value.getLsbD (k - rounds) := by
  induction rounds generalizing i value with
  | zero => rfl
  | succ rounds ih =>
    rw [readLoop, readBit_eq, ih]
    by_cases hlt : k < rounds
    · rw [if_pos hlt, if_pos (Nat.lt_succ_of_lt hlt)]
      congr 1
      omega
    · rw [if_neg hlt, getLsbD_shiftIn (by omega)]
      by_cases heq : k = rounds
      · subst heq
        rw [if_pos (Nat.sub_self k), if_pos (Nat.lt_succ_self k)]
        congr 1
        omega
      · rw [if_neg (by omega), if_neg (by omega)]
        congr 1

/-- **`read_bits`** reads the next bits, or changes nothing. -/
theorem readBits_cases (r : BitReader w) (count : BitVec 8) (out : BitVec 32) :
    (ValidCount count ∧ r.bitPos + count.toNat ≤ r.totalBits ∧
      ∃ value, readBits r count out = ((.ok, value), { r with bitPos := r.bitPos + count.toNat }) ∧
        ∀ k < 32, value.getLsbD k =
          (decide (k < count.toNat) && bitAt r.bytes (r.bitPos + count.toNat - 1 - k))) ∨
    (¬ (ValidCount count ∧ r.bitPos + count.toNat ≤ r.totalBits) ∧
      ∃ st, st ≠ .ok ∧ readBits r count out = ((st, out), r)) := by
  by_cases hvalid : ValidCount count
  · have hinvalid := validCount_iff.mp hvalid
    by_cases hfits : r.bitPos + count.toNat ≤ r.totalBits
    · have hremaining : ¬ r.bitsRemaining < count.toNat := by
        rw [bitsRemaining_eq]
        omega
      refine .inl ⟨hvalid, hfits, _, by rw [readBits, if_neg hinvalid, if_neg hremaining], ?_⟩
      intro k hk
      rw [getLsbD_readLoop r hk]
      by_cases hlt : k < count.toNat
      · rw [if_pos hlt, decide_eq_true hlt, Nat.add_zero, Bool.true_and]
      · rw [if_neg hlt, decide_eq_false hlt, Bool.false_and]
        exact BitVec.getLsbD_zero
    · have hpos := hvalid.1
      have hremaining : r.bitsRemaining < count.toNat := by
        rw [bitsRemaining_eq]
        omega
      refine .inr ⟨fun h => hfits h.2, .empty, by decide, ?_⟩
      rw [readBits, if_neg hinvalid, if_pos hremaining]
  · refine .inr ⟨fun h => hvalid h.1, .invalid, by decide, ?_⟩
    rw [validCount_iff, not_not] at hvalid
    rw [readBits, if_pos hvalid]

/-- **`skip_bits`** moves on, or changes nothing. -/
theorem skipBits_cases (r : BitReader w) (count : ℕ) (hcount : 0 < count) :
    (r.bitPos + count ≤ r.totalBits ∧
      skipBits r count = (.ok, { r with bitPos := r.bitPos + count })) ∨
    (r.totalBits < r.bitPos + count ∧ skipBits r count = (.empty, r)) := by
  unfold skipBits
  rw [bitsRemaining_eq]
  by_cases hfits : r.bitPos + count ≤ r.totalBits
  · exact .inl ⟨hfits, if_neg (by omega)⟩
  · exact .inr ⟨not_le.mp hfits, if_pos (by omega)⟩

/-- **`align_to_byte`** moves to the next byte, or changes nothing. -/
theorem alignToByte_cases (r : BitReader w) (hpos : r.bitPos ≤ r.totalBits) :
    (alignUp8 r.bitPos ≤ r.totalBits ∧
      alignToByte r = (.ok, { r with bitPos := alignUp8 r.bitPos })) ∨
    (r.totalBits < alignUp8 r.bitPos ∧ alignToByte r = (.empty, r)) := by
  unfold alignToByte alignUp8
  by_cases hoffset : r.bitPos % 8 = 0
  · have hsame : (r.bitPos + 7) / 8 * 8 = r.bitPos := by omega
    rw [if_pos hoffset, hsame]
    exact .inl ⟨hpos, rfl⟩
  · have hnext : (r.bitPos + 7) / 8 * 8 = r.bitPos + (8 - r.bitPos % 8) := by omega
    rw [if_neg hoffset, hnext]
    exact skipBits_cases r (8 - r.bitPos % 8) (by omega)

end BitReader

namespace BitWriter

variable {s : BitWriter w}

theorem bitsAvailable_eq (s : BitWriter w) :
    s.bitsAvailable = s.capacityBits.toNat - s.bitPos := by
  show (if s.capacityBits.toNat ≤ s.bitPos then 0 else s.capacityBits.toNat - s.bitPos) = _
  by_cases hle : s.capacityBits.toNat ≤ s.bitPos
  · rw [if_pos hle]
    omega
  · rw [if_neg hle]

/-- The bit that a round writes. -/
theorem bit_eq (value : BitVec 32) (i : ℕ) :
    decide ((value >>> i) &&& 1 ≠ 0) = value.getLsbD i := by
  have hbit : (value >>> i &&& 1) = (BitVec.ofBool (value.getLsbD i)).setWidth 32 := by
    apply BitVec.eq_of_getLsbD_eq
    intro k hk
    by_cases hzero : k = 0
    · subst hzero
      simp
    · simp [hzero]
  rw [hbit]
  cases value.getLsbD i <;> decide

/-- What the loop of `write_bits` does. -/
theorem writeLoop_eq (value : BitVec 32) (i : ℕ) (s : BitWriter w) :
    ∃ bytes, writeLoop value i s = { s with bytes := bytes, bitPos := s.bitPos + i } ∧
      ∀ j, bitAt bytes j =
        if s.bitPos ≤ j ∧ j < s.bitPos + i then value.getLsbD (s.bitPos + i - 1 - j)
        else bitAt s.bytes j := by
  induction i generalizing s with
  | zero =>
    refine ⟨s.bytes, rfl, fun j => ?_⟩
    rw [if_neg (by omega)]
  | succ i ih =>
    rw [writeLoop, bit_eq]
    obtain ⟨bytes, heq, hbits⟩ := ih
      { s with bytes := putBit s.bytes s.bitPos (value.getLsbD i), bitPos := s.bitPos + 1 }
    refine ⟨bytes, ?_, fun j => ?_⟩
    · rw [heq, Nat.add_assoc, Nat.add_comm 1 i]
    · rw [hbits j, bitAt_putBit]
      by_cases hfirst : j = s.bitPos
      · subst hfirst
        rw [if_neg (by simp), if_pos rfl, if_pos (by omega)]
        congr 1
        omega
      · by_cases hin : s.bitPos ≤ j ∧ j < s.bitPos + (i + 1)
        · rw [if_pos (by simp only; omega), if_pos hin]
          congr 1
          simp only
          omega
        · rw [if_neg (by simp only; omega), if_neg hfirst, if_neg hin]

/-- **`write_bits`** writes the bits of the value, or changes nothing. -/
theorem writeBits_cases (s : BitWriter w) (value : BitVec 32) (count : BitVec 8) :
    (ValidCount count ∧ s.bitPos + count.toNat ≤ s.capacityBits.toNat ∧
      ∃ bytes, writeBits s value count =
          (.ok, { s with bytes := bytes, bitPos := s.bitPos + count.toNat }) ∧
        ∀ j, bitAt bytes j =
          if s.bitPos ≤ j ∧ j < s.bitPos + count.toNat
          then value.getLsbD (s.bitPos + count.toNat - 1 - j) else bitAt s.bytes j) ∨
    (¬ (ValidCount count ∧ s.bitPos + count.toNat ≤ s.capacityBits.toNat) ∧
      ∃ st, st ≠ .ok ∧ writeBits s value count = (st, s)) := by
  by_cases hvalid : ValidCount count
  · have hinvalid := validCount_iff.mp hvalid
    by_cases hfits : s.bitPos + count.toNat ≤ s.capacityBits.toNat
    · have havailable : ¬ s.bitsAvailable < count.toNat := by
        rw [bitsAvailable_eq]
        omega
      obtain ⟨bytes, heq, hbits⟩ := writeLoop_eq value count.toNat s
      refine .inl ⟨hvalid, hfits, bytes, ?_, hbits⟩
      rw [writeBits, if_neg hinvalid, if_neg havailable, heq]
    · have hpos := hvalid.1
      have havailable : s.bitsAvailable < count.toNat := by
        rw [bitsAvailable_eq]
        omega
      refine .inr ⟨fun h => hfits h.2, .full, by decide, ?_⟩
      rw [writeBits, if_neg hinvalid, if_pos havailable]
  · refine .inr ⟨fun h => hvalid h.1, .invalid, by decide, ?_⟩
    rw [validCount_iff, not_not] at hvalid
    rw [writeBits, if_pos hvalid]

/-- **`align_to_byte`** fills the byte with zeros, or changes nothing. -/
theorem alignToByte_cases (s : BitWriter w) (hpos : s.bitPos ≤ s.capacityBits.toNat) :
    (alignUp8 s.bitPos ≤ s.capacityBits.toNat ∧
      ∃ bytes, alignToByte s = (.ok, { s with bytes := bytes, bitPos := alignUp8 s.bitPos }) ∧
        ∀ j, bitAt bytes j =
          if s.bitPos ≤ j ∧ j < alignUp8 s.bitPos then false else bitAt s.bytes j) ∨
    (s.capacityBits.toNat < alignUp8 s.bitPos ∧ ∃ st, st ≠ .ok ∧ alignToByte s = (st, s)) := by
  unfold alignToByte alignUp8
  by_cases hoffset : s.bitPos % 8 = 0
  · have hsame : (s.bitPos + 7) / 8 * 8 = s.bitPos := by omega
    rw [if_pos hoffset, hsame]
    refine .inl ⟨hpos, s.bytes, rfl, fun j => ?_⟩
    rw [if_neg (by omega)]
  · have hnext : (s.bitPos + 7) / 8 * 8 = s.bitPos + (8 - s.bitPos % 8) := by omega
    have hcount : (BitVec.ofNat 8 (8 - s.bitPos % 8)).toNat = 8 - s.bitPos % 8 := by
      rw [BitVec.toNat_ofNat]
      omega
    have hvalid : ValidCount (BitVec.ofNat 8 (8 - s.bitPos % 8)) := by
      rw [ValidCount, hcount]
      omega
    rw [if_neg hoffset, hnext]
    rcases writeBits_cases s 0 (BitVec.ofNat 8 (8 - s.bitPos % 8)) with
      ⟨-, hfits, bytes, heq, hbits⟩ | ⟨hnot, st, hst, heq⟩
    · rw [hcount] at hfits heq hbits
      refine .inl ⟨hfits, bytes, heq, fun j => ?_⟩
      have hzero : ∀ k, BitVec.getLsbD (0 : BitVec 32) k = false := fun k => BitVec.getLsbD_zero
      rw [hbits j, hzero]
    · rw [hcount] at hnot
      exact .inr ⟨not_le.mp fun hfits => hnot ⟨hvalid, hfits⟩, st, hst, heq⟩

end BitWriter

/-! ## Fields and alignments -/

/-- A field to be written, or a request to go on at the next byte. -/
inductive StreamItem
  | field (value : BitVec 32) (count : BitVec 8)
  | align

namespace StreamItem

/-- The call that writes an item. -/
def write : StreamItem → BitWriter.Call
  | field value count => .writeBits value count
  | align => .alignToByte

/-- The call that reads an item, into a variable that holds `out`. -/
def read (out : BitVec 32) : StreamItem → BitReader.Call
  | field _ count => .readBits count out
  | align => .alignToByte

/-- What is read: the value modulo `2 ^ count`. -/
def answer : StreamItem → BitReader.Reply
  | field value count => .value .ok (BitVec.ofNat 32 (value.toNat % 2 ^ count.toNat))
  | align => .status .ok

/-- A field has a valid count. -/
def Valid : StreamItem → Prop
  | field _ count => ValidCount count
  | align => True

/-- The position after an item. -/
def stop (pos : ℕ) : StreamItem → ℕ
  | field _ count => pos + count.toNat
  | align => alignUp8 pos

/-- The position after a list of items. -/
def endPos (pos : ℕ) (items : List StreamItem) : ℕ := items.foldl stop pos

theorem le_stop (pos : ℕ) (item : StreamItem) : pos ≤ item.stop pos := by
  cases item with
  | field value count => exact Nat.le_add_right _ _
  | align =>
    show pos ≤ (pos + 7) / 8 * 8
    omega

theorem le_endPos (pos : ℕ) (items : List StreamItem) : pos ≤ endPos pos items := by
  induction items generalizing pos with
  | nil => exact le_rfl
  | cons item items ih => exact (le_stop pos item).trans (ih (item.stop pos))

/-- The items have valid counts and fit a buffer of `size` bytes. -/
structure Fits (size : BitVec w) (items : List StreamItem) : Prop where
  valid : ∀ item ∈ items, item.Valid
  le : endPos 0 items ≤ 8 * size.toNat

variable {s : BitWriter w} {item : StreamItem} {items : List StreamItem}

/-- **One item**: it is written, other bits stay, and a reader of the bits reads it. -/
theorem write_spec (hvalid : item.Valid) (hpos : s.bitPos ≤ s.capacityBits.toNat)
    (hfits : item.stop s.bitPos ≤ s.capacityBits.toNat) :
    ∃ bytes, BitWriter.call s item.write =
        (.ok, { s with bytes := bytes, bitPos := item.stop s.bitPos }) ∧
      (∀ j, j < s.bitPos ∨ item.stop s.bitPos ≤ j → bitAt bytes j = bitAt s.bytes j) ∧
      ∀ r : BitReader w, r.bitPos = s.bitPos → r.totalBits = s.capacityBits.toNat →
        (∀ j < item.stop s.bitPos, bitAt r.bytes j = bitAt bytes j) → ∀ out,
        BitReader.call r (item.read out) =
          (item.answer, { r with bitPos := item.stop s.bitPos }) := by
  cases item with
  | field value count =>
    rcases BitWriter.writeBits_cases s value count with
      ⟨-, -, bytes, heq, hbits⟩ | ⟨hnot, -⟩
    · refine ⟨bytes, heq, fun j hj => ?_, fun r hr htotal hagree out => ?_⟩
      · rw [hbits j, if_neg (by simp only [stop] at hj; omega)]
      · have hcount : ValidCount count := hvalid
        rcases BitReader.readBits_cases r count out with ⟨-, -, got, hread, hgot⟩ | ⟨hnot, -⟩
        · -- bit by bit, what is read is the low bits that were written
          have hvalue : got = BitVec.ofNat 32 (value.toNat % 2 ^ count.toNat) := by
            apply BitVec.eq_of_getLsbD_eq
            intro k hk
            rw [hgot k hk, BitVec.getLsbD_ofNat, Nat.testBit_mod_two_pow, decide_eq_true hk,
              Bool.true_and]
            by_cases hlt : k < count.toNat
            · have hone := hcount.1
              rw [decide_eq_true hlt, Bool.true_and, Bool.true_and, hr,
                hagree _ (by simp only [stop]; omega), hbits, if_pos (by omega)]
              show value.getLsbD _ = value.getLsbD k
              congr 1
              omega
            · rw [decide_eq_false hlt, Bool.false_and, Bool.false_and]
          simp only [read, BitReader.call, hread, hvalue, hr]
          rfl
        · rw [hr, htotal] at hnot
          exact absurd ⟨hcount, hfits⟩ hnot
    · exact absurd ⟨hvalid, hfits⟩ hnot
  | align =>
    rcases BitWriter.alignToByte_cases s hpos with ⟨-, bytes, heq, hbits⟩ | ⟨hnot, -⟩
    · refine ⟨bytes, heq, fun j hj => ?_, fun r hr htotal _ out => ?_⟩
      · rw [hbits j, if_neg (by simp only [stop] at hj; omega)]
      · rw [← hr, ← htotal] at hpos
        rcases BitReader.alignToByte_cases r hpos with ⟨-, hread⟩ | ⟨hnot, -⟩
        · simp only [read, BitReader.call, hread, hr]
          rfl
        · rw [hr, htotal] at hnot
          exact absurd hfits (not_le.mpr hnot)
    · exact absurd hfits (not_le.mpr hnot)

/-- **A list of items**: it is written, other bits stay, and a reader of the bits reads it. -/
theorem writes_spec (hvalid : ∀ item ∈ items, item.Valid)
    (hfits : endPos s.bitPos items ≤ s.capacityBits.toNat) :
    Mealy.outputs BitWriter.call s (items.map write) = items.map (fun _ => .ok) ∧
      ∃ bytes, Mealy.final BitWriter.call s (items.map write) =
          { s with bytes := bytes, bitPos := endPos s.bitPos items } ∧
        (∀ j, j < s.bitPos ∨ endPos s.bitPos items ≤ j → bitAt bytes j = bitAt s.bytes j) ∧
        ∀ r : BitReader w, r.bitPos = s.bitPos → r.totalBits = s.capacityBits.toNat →
          (∀ j < endPos s.bitPos items, bitAt r.bytes j = bitAt bytes j) → ∀ out,
          Mealy.outputs BitReader.call r (items.map (read out)) = items.map answer := by
  induction items generalizing s with
  | nil => exact ⟨rfl, s.bytes, rfl, fun _ _ => rfl, fun _ _ _ _ _ => rfl⟩
  | cons item items ih =>
    have hle := le_endPos (item.stop s.bitPos) items
    have hstop := le_stop s.bitPos item
    have hfits' : endPos (item.stop s.bitPos) items ≤ s.capacityBits.toNat := hfits
    obtain ⟨bytes₁, heq₁, hframe₁, hread₁⟩ :=
      write_spec (hvalid item List.mem_cons_self) (by omega) (hle.trans hfits')
    obtain ⟨houtputs, bytes, hfinal, hframe, hread⟩ :=
      ih (s := { s with bytes := bytes₁, bitPos := item.stop s.bitPos })
        (fun i hi => hvalid i (List.mem_cons_of_mem item hi)) hfits'
    refine ⟨?_, bytes, ?_, fun j hj => ?_, fun r hr htotal hagree out => ?_⟩
    · rw [List.map_cons, Mealy.outputs_cons, heq₁, houtputs]
      rfl
    · rw [List.map_cons, Mealy.final_cons, heq₁, hfinal]
      rfl
    · have hend : endPos s.bitPos (item :: items) = endPos (item.stop s.bitPos) items := rfl
      rw [hend] at hj
      rw [hframe j (by simp only; omega), hframe₁ j (by omega)]
    · -- what is written later does not change what the item wrote
      have hcall := hread₁ r hr htotal (fun j hj => by
        rw [hagree j (lt_of_lt_of_le hj hle)]
        exact hframe j (.inl hj)) out
      rw [List.map_cons, Mealy.outputs_cons, hcall, List.map_cons]
      congr 1
      exact hread { r with bitPos := item.stop s.bitPos } rfl htotal hagree out

end StreamItem

/-! ## Copying a buffer -/

/-- **Fields are copied**: what is read with some counts and written with the same counts has the
same bits. -/
theorem copy_spec {s : BitWriter w} {r : BitReader w} {counts : List (BitVec 8)}
    (hvalid : ∀ count ∈ counts, ValidCount count) (hpos : r.bitPos = s.bitPos)
    (htotal : r.totalBits = s.capacityBits.toNat)
    (hfits : s.bitPos + (counts.map BitVec.toNat).sum ≤ s.capacityBits.toNat) (out : BitVec 32) :
    ∃ values, values.length = counts.length ∧
      Mealy.outputs BitReader.call r (counts.map fun count => .readBits count out) =
        values.map (BitReader.Reply.value .ok) ∧
      Mealy.outputs BitWriter.call s (List.zipWith .writeBits values counts) =
        counts.map (fun _ => .ok) ∧
      ∃ bytes, Mealy.final BitWriter.call s (List.zipWith .writeBits values counts) =
          { s with bytes := bytes, bitPos := s.bitPos + (counts.map BitVec.toNat).sum } ∧
        (∀ j < s.bitPos, bitAt bytes j = bitAt s.bytes j) ∧
        ∀ j, s.bitPos ≤ j → j < s.bitPos + (counts.map BitVec.toNat).sum →
          bitAt bytes j = bitAt r.bytes j := by
  induction counts generalizing s r with
  | nil => exact ⟨[], rfl, rfl, rfl, s.bytes, rfl, fun _ _ => rfl, fun j hle hlt => by
      rw [List.map_nil, List.sum_nil] at hlt
      omega⟩
  | cons count counts ih =>
    rw [List.map_cons, List.sum_cons] at hfits
    have hcount := hvalid count List.mem_cons_self
    have hfits' : s.bitPos + count.toNat + (counts.map BitVec.toNat).sum ≤ s.capacityBits.toNat := by
      omega
    rcases BitReader.readBits_cases r count out with ⟨-, -, value, hread, hbits⟩ | ⟨hnot, -⟩
    swap
    · exact absurd ⟨hcount, by omega⟩ hnot
    rcases BitWriter.writeBits_cases s value count with ⟨-, -, bytes₁, hwrite, hbits₁⟩ | ⟨hnot, -⟩
    swap
    · exact absurd ⟨hcount, by omega⟩ hnot
    obtain ⟨values, hlength, hreads, hwrites, bytes, hfinal, hbefore, hcopied⟩ :=
      ih (s := { s with bytes := bytes₁, bitPos := s.bitPos + count.toNat })
        (r := { r with bitPos := r.bitPos + count.toNat })
        (fun c hc => hvalid c (List.mem_cons_of_mem count hc))
        (congrArg (fun pos => pos + count.toNat) hpos) htotal hfits'
    have hcallRead : BitReader.call r (.readBits count out) =
        (.value .ok value, { r with bitPos := r.bitPos + count.toNat }) := by
      simp only [BitReader.call, hread]
    have hcallWrite : BitWriter.call s (.writeBits value count) =
        (.ok, { s with bytes := bytes₁, bitPos := s.bitPos + count.toNat }) := hwrite
    refine ⟨value :: values, congrArg Nat.succ hlength, ?_, ?_, bytes, ?_, fun j hj => ?_,
      fun j hle hlt => ?_⟩
    · rw [List.map_cons, Mealy.outputs_cons, hcallRead, hreads, List.map_cons]
    · rw [List.zipWith_cons_cons, Mealy.outputs_cons, hcallWrite, hwrites, List.map_cons]
    · rw [List.zipWith_cons_cons, Mealy.final_cons, hcallWrite, hfinal, List.map_cons,
        List.sum_cons]
      show ({ s with bytes := bytes, bitPos := _ } : BitWriter w) = _
      rw [Nat.add_assoc]
    · rw [hbefore j (by simp only; omega), hbits₁ j, if_neg (by omega)]
    · rw [List.map_cons, List.sum_cons] at hlt
      by_cases hfirst : j < s.bitPos + count.toNat
      · -- a bit of this field: it was read at the place where it is written
        rw [hbefore j hfirst, hbits₁ j, if_pos ⟨hle, hfirst⟩, hbits _ (by have := hcount.2; omega),
          decide_eq_true (by omega), Bool.true_and]
        congr 1
        omega
      · exact hcopied j (not_lt.mp hfirst) (by simp only; omega)

/-! ## Buffers of every size -/

/-- A writer on a new buffer: it is at the start, and the bits are zero. -/
theorem BitWriter.init_spec {s₀ s : BitWriter w} {data : Option (ℕ → BitVec 8)} {size : BitVec w}
    (h : s₀.init data size = (.ok, s)) :
    s.size = size ∧ s.bitPos = 0 ∧ ∀ j < 8 * size.toNat, bitAt s.bytes j = false := by
  cases data with
  | none =>
    unfold BitWriter.init at h
    by_cases hsize : 0 < size
    · rw [if_pos hsize] at h
      cases h
    · rw [if_neg hsize] at h
      obtain rfl := congrArg Prod.snd h
      refine ⟨rfl, rfl, fun j hj => ?_⟩
      have hzero : size.toNat = 0 := by
        rw [BitVec.lt_def] at hsize
        simpa using hsize
      omega
  | some bytes =>
    obtain rfl : _ = s := congrArg Prod.snd h
    refine ⟨rfl, rfl, fun j hj => ?_⟩
    have hbyte : (if j / 8 < size.toNat then (0 : BitVec 8) else bytes (j / 8)) = 0 :=
      if_pos (by omega)
    show (if j / 8 < size.toNat then (0 : BitVec 8) else bytes (j / 8)).getLsbD _ = false
    rw [hbyte]
    exact BitVec.getLsbD_zero

/-- Calls keep the size of the buffer, and do not pass its computed end. -/
theorem BitWriter.call_bitPos_le {s : BitWriter w} (h : s.bitPos ≤ s.capacityBits.toNat)
    (c : BitWriter.Call) :
    (BitWriter.call s c).2.size = s.size ∧
      (BitWriter.call s c).2.bitPos ≤ s.capacityBits.toNat := by
  cases c with
  | writeBits value count =>
    rcases BitWriter.writeBits_cases s value count with ⟨-, hfits, bytes, heq, -⟩ | ⟨-, st, -, heq⟩
    · rw [show BitWriter.call s (.writeBits value count) = _ from heq]
      exact ⟨rfl, hfits⟩
    · rw [show BitWriter.call s (.writeBits value count) = _ from heq]
      exact ⟨rfl, h⟩
  | alignToByte =>
    rcases BitWriter.alignToByte_cases s h with ⟨hfits, bytes, heq, -⟩ | ⟨-, st, -, heq⟩
    · rw [show BitWriter.call s .alignToByte = _ from heq]
      exact ⟨rfl, hfits⟩
    · rw [show BitWriter.call s .alignToByte = _ from heq]
      exact ⟨rfl, h⟩

/-- Over a run too. -/
theorem BitWriter.final_bitPos_le {s : BitWriter w} (h : s.bitPos ≤ s.capacityBits.toNat)
    (calls : List BitWriter.Call) :
    (Mealy.final BitWriter.call s calls).size = s.size ∧
      (Mealy.final BitWriter.call s calls).bitPos ≤ s.capacityBits.toNat := by
  refine (Mealy.everyCall_true s calls).final_invariant
    (fun t => t.size = s.size ∧ t.bitPos ≤ s.capacityBits.toNat) (fun t c ht _ => ?_) ⟨rfl, h⟩
  have hcap : t.capacityBits = s.capacityBits := congrArg (fun size => size * 8) ht.1
  obtain ⟨hsize, hpos⟩ := BitWriter.call_bitPos_le (s := t) (by rw [hcap]; exact ht.2) c
  exact ⟨hsize.trans ht.1, by rwa [hcap] at hpos⟩

/-- Calls on a reader keep the buffer, and do not pass its computed end. -/
theorem BitReader.final_bitPos_le {r : BitReader w} (h : r.bitPos ≤ r.totalBits)
    (calls : List BitReader.Call) :
    (Mealy.final BitReader.call r calls).size = r.size ∧
      (Mealy.final BitReader.call r calls).bitPos ≤ r.totalBits := by
  refine (Mealy.everyCall_true r calls).final_invariant
    (fun t => t.size = r.size ∧ t.bitPos ≤ r.totalBits) (fun t c ht _ => ?_) ⟨rfl, h⟩
  have htotal : t.totalBits = r.totalBits := congrArg (fun size => (size * 8).toNat) ht.1
  cases c with
  | readBits count out =>
    rcases BitReader.readBits_cases t count out with ⟨-, hfits, value, heq, -⟩ | ⟨-, st, -, heq⟩
    · simp only [BitReader.call, heq]
      exact ⟨ht.1, htotal ▸ hfits⟩
    · simp only [BitReader.call, heq]
      exact ht
  | skipBits count =>
    simp only [BitReader.call, BitReader.skipBits, BitReader.bitsRemaining_eq]
    by_cases hfits : t.totalBits - t.bitPos < count
    · rw [if_pos hfits]
      exact ht
    · rw [if_neg hfits]
      exact ⟨ht.1, by rw [← htotal]; have := ht.2; simp only; omega⟩
  | alignToByte =>
    rcases BitReader.alignToByte_cases t (htotal ▸ ht.2) with ⟨hfits, heq⟩ | ⟨-, heq⟩
    · simp only [BitReader.call, heq]
      exact ⟨ht.1, htotal ▸ hfits⟩
    · simp only [BitReader.call, heq]
      exact ht

/-- **The round trips** over buffers of `size` bytes. -/
structure RoundTrips (size : BitVec w) : Prop where
  /-- Items written with a new writer are read back, and behind them are zeros. -/
  written_read : ∀ (s₀ s : BitWriter w) (data : Option (ℕ → BitVec 8)) (r₀ : BitReader w)
    (out : BitVec 32) (items : List StreamItem), s₀.init data size = (.ok, s) →
    StreamItem.Fits size items →
    Mealy.outputs BitWriter.call s (items.map StreamItem.write) = items.map (fun _ => .ok) ∧
      ∃ t, Mealy.final BitWriter.call s (items.map StreamItem.write) = t ∧
        t.bitPos = StreamItem.endPos 0 items ∧
        (∀ j, t.bitPos ≤ j → j < 8 * size.toNat → bitAt t.bytes j = false) ∧
        Mealy.outputs BitReader.call (r₀.init (some t.bytes) size).2
          (items.map (StreamItem.read out)) = items.map StreamItem.answer
  /-- What is read with counts that make up the buffer, written again, gives the bytes. -/
  read_written : ∀ (s₀ s : BitWriter w) (data : Option (ℕ → BitVec 8)) (r₀ : BitReader w)
    (bytes : ℕ → BitVec 8) (out : BitVec 32) (counts : List (BitVec 8)),
    s₀.init data size = (.ok, s) → (∀ count ∈ counts, ValidCount count) →
    (counts.map BitVec.toNat).sum = 8 * size.toNat →
    ∃ values, values.length = counts.length ∧
      Mealy.outputs BitReader.call (r₀.init (some bytes) size).2
        (counts.map fun count => .readBits count out) = values.map (BitReader.Reply.value .ok) ∧
      Mealy.outputs BitWriter.call s (List.zipWith .writeBits values counts) =
        counts.map (fun _ => .ok) ∧
      ∀ k < size.toNat,
        (Mealy.final BitWriter.call s (List.zipWith .writeBits values counts)).bytes k = bytes k
  /-- A write that is invalid or leaves the buffer fails and changes nothing. -/
  write_refused : ∀ (s₀ s : BitWriter w) (data : Option (ℕ → BitVec 8))
    (calls : List BitWriter.Call) (value : BitVec 32) (count : BitVec 8),
    s₀.init data size = (.ok, s) → ∀ t, Mealy.final BitWriter.call s calls = t →
    (¬ ValidCount count ∨ 8 * size.toNat < t.bitPos + count.toNat →
      ∃ st, st ≠ .ok ∧ t.writeBits value count = (st, t)) ∧
    (8 * size.toNat < alignUp8 t.bitPos → ∃ st, st ≠ .ok ∧ t.alignToByte = (st, t))
  /-- So does a read. -/
  read_refused : ∀ (r₀ r : BitReader w) (data : Option (ℕ → BitVec 8))
    (calls : List BitReader.Call) (count : BitVec 8) (bits : ℕ) (out : BitVec 32),
    r₀.init data size = (.ok, r) → ∀ t, Mealy.final BitReader.call r calls = t →
    (¬ ValidCount count ∨ 8 * size.toNat < t.bitPos + count.toNat →
      ∃ st, st ≠ .ok ∧ t.readBits count out = ((st, out), t)) ∧
    (8 * size.toNat < t.bitPos + bits → ∃ st, st ≠ .ok ∧ t.skipBits bits = (st, t)) ∧
    (8 * size.toNat < alignUp8 t.bitPos → ∃ st, st ≠ .ok ∧ t.alignToByte = (st, t))

theorem endPos_replicate (n pos : ℕ) :
    StreamItem.endPos pos (List.replicate n (.field 0 1)) = pos + n := by
  induction n generalizing pos with
  | zero => rfl
  | succ n ih =>
    rw [List.replicate_succ]
    exact (ih (pos + 1)).trans (by omega)

/-- The number of bits that is computed for a buffer. -/
theorem toNat_mul_eight (size : BitVec w) : (size * 8).toNat = 8 * size.toNat % 2 ^ w := by
  rw [BitVec.toNat_mul, show (8 : BitVec w).toNat = 8 % 2 ^ w from BitVec.toNat_ofNat 8 w,
    Nat.mul_mod_mod, Nat.mul_comm]

/-- A writer takes no field that its capacity, as computed, has no room for. -/
theorem RoundTrips.lt {size : BitVec w} (h : RoundTrips size) : 8 * size.toNat < 2 ^ w := by
  by_contra hbig
  -- as many single bits as the computed capacity, and one more
  have hmod := Nat.mod_lt (8 * size.toNat) (Nat.two_pow_pos w)
  have hend := endPos_replicate (8 * size.toNat % 2 ^ w + 1) 0
  have hfits : StreamItem.Fits size
      (List.replicate (8 * size.toNat % 2 ^ w + 1) (.field 0 1)) := by
    refine ⟨fun item hitem => ?_, ?_⟩
    · rw [List.eq_of_mem_replicate hitem]
      exact ⟨by decide, by decide⟩
    · rw [hend]
      omega
  obtain ⟨-, t, hfinal, hpos, -⟩ := h.written_read ⟨fun _ => 0, 0, 0⟩ _ (some fun _ => 0)
    ⟨fun _ => 0, 0, 0⟩ 0 _ rfl hfits
  obtain ⟨-, hle⟩ := BitWriter.final_bitPos_le (Nat.zero_le _)
    ((List.replicate (8 * size.toNat % 2 ^ w + 1) (.field 0 1)).map StreamItem.write)
    (s := ⟨fun i => if i < size.toNat then 0 else 0, size, 0⟩)
  rw [hfinal, hpos, hend] at hle
  change 0 + (8 * size.toNat % 2 ^ w + 1) ≤ (size * 8).toNat at hle
  rw [toNat_mul_eight] at hle
  omega

/-- **Bit streams round-trip** over the buffers of a size exactly if the number of their bits is a
word. -/
theorem roundTrips_iff (size : BitVec w) : RoundTrips size ↔ 8 * size.toNat < 2 ^ w := by
  refine ⟨RoundTrips.lt, fun hlt => ?_⟩
  -- both ends compute the number of bits with `size * 8`, exact below `2 ^ w`
  have hbits : (size * 8).toNat = 8 * size.toNat := by
    rw [toNat_mul_eight, Nat.mod_eq_of_lt hlt]
  refine ⟨?_, ?_, ?_, ?_⟩
  · intro s₀ s data r₀ out items hinit hfits
    obtain ⟨hsize, hpos, hzero⟩ := BitWriter.init_spec hinit
    have hcap : s.capacityBits.toNat = 8 * size.toNat := by
      rw [BitWriter.capacityBits, hsize, hbits]
    have hle : StreamItem.endPos s.bitPos items ≤ s.capacityBits.toNat := by
      rw [hpos, hcap]
      exact hfits.le
    -- the writer starts at bit zero of a cleared buffer, and the reader at bit zero of what it left
    obtain ⟨houtputs, bytes, hfinal, hframe, hread⟩ := StreamItem.writes_spec hfits.valid hle
    refine ⟨houtputs, _, hfinal, by rw [hpos], fun j hj hlt => ?_, ?_⟩
    · exact (hframe j (.inr hj)).trans (hzero j hlt)
    · exact hread ⟨bytes, size, 0⟩ hpos.symm (hbits.trans hcap.symm) (fun _ _ => rfl) out
  · intro s₀ s data r₀ bytes out counts hinit hvalid hsum
    obtain ⟨hsize, hpos, -⟩ := BitWriter.init_spec hinit
    have hcap : s.capacityBits.toNat = 8 * size.toNat := by
      rw [BitWriter.capacityBits, hsize, hbits]
    obtain ⟨values, hlength, hreads, hwrites, bytes', hfinal, -, hcopied⟩ :=
      -- the reader and the writer stay at one position, and the bits before it agree
      copy_spec (s := s) (r := ⟨bytes, size, 0⟩) hvalid hpos.symm (hbits.trans hcap.symm)
        (by rw [hpos, hsum, hcap, Nat.zero_add]) out
    refine ⟨values, hlength, hreads, hwrites, fun k hk => ?_⟩
    rw [hfinal]
    refine byte_eq (fun i hi => ?_) hk
    exact hcopied i (by rw [hpos]; exact Nat.zero_le i) (by rw [hpos, hsum]; omega)
  · -- a call on the writer is refused exactly when it does not fit before the end of the buffer
    intro s₀ s data calls value count hinit t hfinal
    obtain ⟨hsize, hpos, -⟩ := BitWriter.init_spec hinit
    have hcap : s.capacityBits.toNat = 8 * size.toNat := by
      rw [BitWriter.capacityBits, hsize, hbits]
    obtain ⟨htsize, htpos⟩ := BitWriter.final_bitPos_le (s := s) (by omega) calls
    rw [hfinal] at htsize htpos
    have htcap : t.capacityBits.toNat = 8 * size.toNat := by
      rw [BitWriter.capacityBits, htsize, hsize, hbits]
    refine ⟨fun hbad => ?_, fun hbad => ?_⟩
    · rcases BitWriter.writeBits_cases t value count with ⟨hcount, hfits, -⟩ | ⟨-, hrefused⟩
      · exact (hbad.elim (fun hnot => hnot hcount) fun hover => by omega).elim
      · exact hrefused
    · rcases BitWriter.alignToByte_cases t (by omega) with ⟨hfits, -⟩ | ⟨-, hrefused⟩
      · omega
      · exact hrefused
  · -- so is a call on the reader, which may also have been made without a buffer
    intro r₀ r data calls count bits out hinit t hfinal
    have hfresh : r.size = size ∧ r.bitPos = 0 := by
      cases data with
      | none =>
        unfold BitReader.init at hinit
        by_cases hsize : 0 < size
        · rw [if_pos hsize] at hinit
          cases hinit
        · rw [if_neg hsize] at hinit
          obtain rfl := congrArg Prod.snd hinit
          exact ⟨rfl, rfl⟩
      | some bytes =>
        obtain rfl : _ = r := congrArg Prod.snd hinit
        exact ⟨rfl, rfl⟩
    obtain ⟨hsize, hpos⟩ := hfresh
    obtain ⟨htsize, htpos⟩ := BitReader.final_bitPos_le (r := r) (by omega) calls
    rw [hfinal] at htsize htpos
    have htotal : ∀ u : BitReader w, u.size = size → u.totalBits = 8 * size.toNat := by
      intro u husize
      rw [BitReader.totalBits, husize, hbits]
    have ht := htotal t (htsize.trans hsize)
    have hr := htotal r hsize
    refine ⟨fun hbad => ?_, fun hbad => ?_, fun hbad => ?_⟩
    · rcases BitReader.readBits_cases t count out with ⟨hcount, hfits, -⟩ | ⟨-, hrefused⟩
      · exact (hbad.elim (fun hnot => hnot hcount) fun hover => by omega).elim
      · exact hrefused
    · rcases BitReader.skipBits_cases t bits (by omega) with ⟨hfits, -⟩ | ⟨-, heq⟩
      · omega
      · exact ⟨.empty, by decide, heq⟩
    · rcases BitReader.alignToByte_cases t (by omega) with ⟨hfits, -⟩ | ⟨-, heq⟩
      · omega
      · exact ⟨.empty, by decide, heq⟩

/-- In words of 32 bits, a new writer on a buffer of `2 ^ 29` bytes has no room for one bit. -/
theorem not_roundTrips_half_gigabyte : ¬ RoundTrips (0x20000000 : BitVec 32) := by
  intro h
  have hfits : StreamItem.Fits (0x20000000 : BitVec 32) [.field 1 1] := by
    refine ⟨fun item hitem => ?_, by decide⟩
    rw [List.mem_singleton.mp hitem]
    exact ⟨by decide, by decide⟩
  obtain ⟨houtputs, -⟩ := h.written_read ⟨fun _ => 0, 0, 0⟩ _ (some fun _ => 0)
    ⟨fun _ => 0, 0, 0⟩ 0 _ rfl hfits
  have hfull : Mealy.outputs BitWriter.call
      (⟨fun i => if i < (0x20000000 : BitVec 32).toNat then 0 else 0, 0x20000000, 0⟩ : BitWriter 32)
      ([StreamItem.field 1 1].map StreamItem.write) = [.full] := by
    decide +kernel
  rw [hfull] at houtputs
  cases houtputs

end Memkit
