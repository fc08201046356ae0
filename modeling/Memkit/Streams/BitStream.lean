import Memkit.Core.Status
import Memkit.Foundations.BigEndianBits

/-! # Bit streams

`BitWriter` and `BitReader` of `containers/bit_stream.hpp`: fields of 1 to 32 bits in a buffer of
bytes, most significant bit first. Sizes are words, and `capacity_bits` is a machine product; a
position never passes it, so positions are natural numbers. A buffer that is not there is `none`. -/

namespace Memkit

open BigEndianBits

/-- The members of `BitReader`. -/
structure BitReader (w : ℕ) where
  /-- `bytes_`. -/
  bytes : ℕ → BitVec 8
  /-- `bytes_.size()`. -/
  size : BitVec w
  /-- `bit_pos_`. -/
  bitPos : ℕ

/-- The members of `BitWriter`. -/
structure BitWriter (w : ℕ) where
  /-- `bytes_`. -/
  bytes : ℕ → BitVec 8
  /-- `bytes_.size()`. -/
  size : BitVec w
  /-- `bit_pos_`. -/
  bitPos : ℕ

variable {w : ℕ}

namespace BitReader

/-- `init`. -/
def init (r : BitReader w) (data : Option (ℕ → BitVec 8)) (size : BitVec w) :
    Status × BitReader w :=
  match data with
  | none => if 0 < size then (.nullPtr, r) else (.ok, { r with size := size, bitPos := 0 })
  | some bytes => (.ok, ⟨bytes, size, 0⟩)

/-- `bits_remaining`. -/
def bitsRemaining (r : BitReader w) : ℕ :=
  let totalBits := r.size * 8
  if totalBits.toNat ≤ r.bitPos then 0 else totalBits.toNat - r.bitPos

/-- The loop of `read_bits`: `rounds` are left, and `i` were made. -/
def readLoop (r : BitReader w) : ℕ → ℕ → BitVec 32 → BitVec 32
  | 0, _, value => value
  | rounds + 1, i, value =>
    let absoluteBit := r.bitPos + i
    let byteIndex := absoluteBit / 8
    let bitIndex := 7 - absoluteBit % 8
    let byte := r.bytes byteIndex
    let bit := (byte >>> bitIndex).setWidth 32 &&& 1
    readLoop r rounds (i + 1) (value <<< 1 ||| bit)

/-- `read_bits`: the status, and what `out` is afterwards. -/
def readBits (r : BitReader w) (count : BitVec 8) (out : BitVec 32) :
    (Status × BitVec 32) × BitReader w :=
  if count = 0 ∨ 32 < count then ((.invalid, out), r)
  else if r.bitsRemaining < count.toNat then ((.empty, out), r)
  else
    let value := readLoop r count.toNat 0 0
    ((.ok, value), { r with bitPos := r.bitPos + count.toNat })

/-- `skip_bits`. -/
def skipBits (r : BitReader w) (count : ℕ) : Status × BitReader w :=
  if r.bitsRemaining < count then (.empty, r) else (.ok, { r with bitPos := r.bitPos + count })

/-- `align_to_byte`. -/
def alignToByte (r : BitReader w) : Status × BitReader w :=
  let offset := r.bitPos % 8
  if offset = 0 then (.ok, r) else skipBits r (8 - offset)

/-- A call on the reader. -/
inductive Call
  | readBits (count : BitVec 8) (out : BitVec 32)
  | skipBits (count : ℕ)
  | alignToByte

/-- What a call returns, and what it writes to `out`. -/
inductive Reply
  | value (result : Status) (out : BitVec 32)
  | status (result : Status)
  deriving DecidableEq

/-- Dispatch a call. -/
def call (r : BitReader w) : Call → Reply × BitReader w
  | .readBits count out =>
    let ((st, out), r) := readBits r count out
    (.value st out, r)
  | .skipBits count =>
    let (st, r) := skipBits r count
    (.status st, r)
  | .alignToByte =>
    let (st, r) := alignToByte r
    (.status st, r)

end BitReader

namespace BitWriter

/-- `init`: the bytes are zeroed. -/
def init (s : BitWriter w) (data : Option (ℕ → BitVec 8)) (size : BitVec w) :
    Status × BitWriter w :=
  match data with
  | none => if 0 < size then (.nullPtr, s) else (.ok, { s with size := size, bitPos := 0 })
  | some bytes => (.ok, ⟨fun i => if i < size.toNat then 0 else bytes i, size, 0⟩)

/-- `capacity_bits`. -/
def capacityBits (s : BitWriter w) : BitVec w := s.size * 8

/-- `bits_available`. -/
def bitsAvailable (s : BitWriter w) : ℕ :=
  let cap := s.capacityBits
  if cap.toNat ≤ s.bitPos then 0 else cap.toNat - s.bitPos

/-- The loop of `write_bits`, from bit `i - 1` of the value down to bit 0. -/
def writeLoop (value : BitVec 32) : ℕ → BitWriter w → BitWriter w
  | 0, s => s
  | i + 1, s =>
    let bit := decide ((value >>> i) &&& 1 ≠ 0)
    writeLoop value i { s with bytes := putBit s.bytes s.bitPos bit, bitPos := s.bitPos + 1 }

/-- `write_bits`. -/
def writeBits (s : BitWriter w) (value : BitVec 32) (count : BitVec 8) : Status × BitWriter w :=
  if count = 0 ∨ 32 < count then (.invalid, s)
  else if s.bitsAvailable < count.toNat then (.full, s)
  else (.ok, writeLoop value count.toNat s)

/-- `align_to_byte`. -/
def alignToByte (s : BitWriter w) : Status × BitWriter w :=
  let offset := s.bitPos % 8
  if offset = 0 then (.ok, s) else writeBits s 0 (BitVec.ofNat 8 (8 - offset))

/-- A call on the writer. -/
inductive Call
  | writeBits (value : BitVec 32) (count : BitVec 8)
  | alignToByte

/-- Dispatch a call. -/
def call (s : BitWriter w) : Call → Status × BitWriter w
  | .writeBits value count => writeBits s value count
  | .alignToByte => alignToByte s

end BitWriter

end Memkit
