import Mathlib.Tactic

/-! # Bits in an array of bytes

A set of numbers kept as one bit each, eight to a byte: number `i` is bit `i % 8` of byte `i / 8`.

* **`set`**, **`clear`**, **`toggle`** — change one bit; the lemmas say what testing one gives then.
* **`overwrite`** — change the first bytes.
* **`keepBelow`** — clear the bits of the last byte from a number on.
* **`members`** — the numbers whose bits are set, with their count by bytes.
* **`encode`** — the bytes of a set of numbers. -/

namespace ByteBits

/-- The mask of a number in its byte. -/
def mask (i : ℕ) : BitVec 8 := 1 <<< (i % 8)

/-- Test the bit of a number. -/
def test (bits : ℕ → BitVec 8) (i : ℕ) : Bool := bits (i / 8) &&& mask i ≠ 0

/-- Set the bit of a number. -/
def set (bits : ℕ → BitVec 8) (i : ℕ) : ℕ → BitVec 8 :=
  Function.update bits (i / 8) (bits (i / 8) ||| mask i)

/-- Clear the bit of a number. -/
def clear (bits : ℕ → BitVec 8) (i : ℕ) : ℕ → BitVec 8 :=
  Function.update bits (i / 8) (bits (i / 8) &&& ~~~mask i)

/-- Flip the bit of a number. -/
def toggle (bits : ℕ → BitVec 8) (i : ℕ) : ℕ → BitVec 8 :=
  Function.update bits (i / 8) (bits (i / 8) ^^^ mask i)

variable {bits : ℕ → BitVec 8} {i j : ℕ}

/-- The mask has one bit. -/
theorem mask_eq (i : ℕ) : mask i = BitVec.twoPow 8 (i % 8) := rfl

/-- Testing reads one bit of the byte. -/
theorem test_eq (bits : ℕ → BitVec 8) (i : ℕ) : test bits i = (bits (i / 8)).getLsbD (i % 8) := by
  have hlt : i % 8 < 8 := Nat.mod_lt _ (by norm_num)
  rw [test, mask_eq, BitVec.and_twoPow]
  cases (bits (i / 8)).getLsbD (i % 8) with
  | false => simp
  | true =>
    have hne : BitVec.twoPow 8 (i % 8) ≠ 0 := by
      intro h0
      have hbit := congrArg (fun b => BitVec.getLsbD b (i % 8)) h0
      simp [hlt] at hbit
    simpa using hne

/-- Setting a bit. -/
theorem test_set : test (set bits i) j = (decide (j = i) || test bits j) := by
  have hi : i % 8 < 8 := Nat.mod_lt _ (by norm_num)
  have hj : j % 8 < 8 := Nat.mod_lt _ (by norm_num)
  rw [test_eq, test_eq, set]
  by_cases hbyte : j / 8 = i / 8
  · rw [hbyte, Function.update_self, BitVec.getLsbD_or, mask_eq, BitVec.getLsbD_twoPow,
      Bool.or_comm]
    congr 1
    simp only [hi, decide_true, Bool.true_and, decide_eq_decide]
    omega
  · have hne : j ≠ i := by
      rintro rfl
      exact hbyte rfl
    rw [Function.update_of_ne hbyte]
    simp [hne]

/-- Clearing a bit. -/
theorem test_clear : test (clear bits i) j = (!decide (j = i) && test bits j) := by
  have hi : i % 8 < 8 := Nat.mod_lt _ (by norm_num)
  have hj : j % 8 < 8 := Nat.mod_lt _ (by norm_num)
  rw [test_eq, test_eq, clear]
  by_cases hbyte : j / 8 = i / 8
  · rw [hbyte, Function.update_self, BitVec.getLsbD_and, BitVec.getLsbD_not, mask_eq,
      BitVec.getLsbD_twoPow, Bool.and_comm]
    congr 1
    simp only [hi, hj, decide_true, Bool.true_and]
    congr 1
    simp only [decide_eq_decide]
    omega
  · have hne : j ≠ i := by
      rintro rfl
      exact hbyte rfl
    rw [Function.update_of_ne hbyte]
    simp [hne]

/-- Flipping a bit. -/
theorem test_toggle : test (toggle bits i) j = (decide (j = i) ^^ test bits j) := by
  have hi : i % 8 < 8 := Nat.mod_lt _ (by norm_num)
  rw [test_eq, test_eq, toggle]
  by_cases hbyte : j / 8 = i / 8
  · rw [hbyte, Function.update_self, BitVec.getLsbD_xor, mask_eq, BitVec.getLsbD_twoPow,
      Bool.xor_comm]
    congr 1
    simp only [hi, decide_true, Bool.true_and, decide_eq_decide]
    omega
  · have hne : j ≠ i := by
      rintro rfl
      exact hbyte rfl
    rw [Function.update_of_ne hbyte]
    simp [hne]

/-! ## Many bytes -/

/-- Two arrays have the same first bytes exactly if they have the same first bits. -/
theorem forall_bytes_iff {a b : ℕ → BitVec 8} {n : ℕ} :
    (∀ i < n, a i = b i) ↔ ∀ j < 8 * n, test a j = test b j := by
  constructor
  · intro h j hj
    rw [test_eq, test_eq, h (j / 8) (by omega)]
  · intro h i hi
    apply BitVec.eq_of_getLsbD_eq
    intro k hk
    have hbit := h (8 * i + k) (by omega)
    rwa [test_eq, test_eq, show (8 * i + k) / 8 = i by omega, show (8 * i + k) % 8 = k by omega]
      at hbit

/-- Write the first bytes. -/
def overwrite (n : ℕ) (source bits : ℕ → BitVec 8) : ℕ → BitVec 8 :=
  fun i => if i < n then source i else bits i

theorem overwrite_of_lt {n : ℕ} {source : ℕ → BitVec 8} (hi : i < n) :
    overwrite n source bits i = source i := if_pos hi

theorem test_overwrite {n : ℕ} {source : ℕ → BitVec 8} (hj : j < 8 * n) :
    test (overwrite n source bits) j = test source j := by
  rw [test_eq, test_eq, overwrite_of_lt (by omega)]

/-- The mask of the numbers below a bound in the last byte that has such numbers. -/
def tail (n : ℕ) : BitVec 8 := if n % 8 = 0 then 0xFF else (1 <<< (n % 8)) - 1

theorem getLsbD_tail (n k : ℕ) (hk : k < 8) :
    (tail n).getLsbD k = decide (n % 8 = 0 ∨ k < n % 8) := by
  unfold tail
  generalize hr : n % 8 = r
  have hlt : r < 8 := by omega
  interval_cases r <;> interval_cases k <;> rfl

/-- Clear the bits of the last byte that belong to numbers from the bound on. -/
def keepBelow (n : ℕ) (bits : ℕ → BitVec 8) : ℕ → BitVec 8 :=
  Function.update bits ((n + 7) / 8 - 1) (bits ((n + 7) / 8 - 1) &&& tail n)

/-- What is kept. -/
theorem test_keepBelow {n : ℕ} (hj : j < 8 * ((n + 7) / 8)) :
    test (keepBelow n bits) j = (test bits j && decide (j < n)) := by
  have hlt : j % 8 < 8 := Nat.mod_lt _ (by norm_num)
  rw [test_eq, test_eq, keepBelow]
  by_cases hlast : j / 8 = (n + 7) / 8 - 1
  · rw [hlast, Function.update_self, BitVec.getLsbD_and, getLsbD_tail n _ hlt]
    congr 1
    rw [decide_eq_decide]
    omega
  · rw [Function.update_of_ne hlast, decide_eq_true (show j < n by omega), Bool.and_true]

/-! ## The set -/

/-- The numbers below a bound whose bits are set. -/
def members (bits : ℕ → BitVec 8) (n : ℕ) : Finset ℕ :=
  (Finset.range n).filter fun i => test bits i = true

theorem mem_members {n : ℕ} : i ∈ members bits n ↔ i < n ∧ test bits i = true := by
  rw [members, Finset.mem_filter, Finset.mem_range]

/-- The number of bits of a byte that are set. -/
def weight (byte : BitVec 8) : ℕ := ∑ k ∈ Finset.range 8, (byte.getLsbD k).toNat

/-- The members are counted byte by byte. -/
theorem card_members_bytes (bits : ℕ → BitVec 8) (n : ℕ) :
    (members bits (8 * n)).card = ∑ i ∈ Finset.range n, weight (bits i) := by
  have hsum : ∀ m, (members bits m).card = ∑ j ∈ Finset.range m, (test bits j).toNat := by
    intro m
    rw [members, Finset.card_filter]
    refine Finset.sum_congr rfl fun j _ => ?_
    cases test bits j <;> rfl
  rw [hsum]
  induction n with
  | zero => rfl
  | succ n ih =>
    rw [Finset.sum_range_succ, ← ih, Nat.mul_succ, Finset.sum_range_add]
    congr 1
    refine Finset.sum_congr rfl fun k hk => ?_
    have hk := Finset.mem_range.mp hk
    rw [test_eq, show (8 * n + k) / 8 = n by omega, show (8 * n + k) % 8 = k by omega]

/-- If no bit is set from the bound on, the members are those of all the bytes. -/
theorem members_of_zero {m n : ℕ} (hle : n ≤ m)
    (hzero : ∀ j, n ≤ j → j < m → test bits j = false) : members bits m = members bits n := by
  ext j
  rw [mem_members, mem_members]
  constructor
  · rintro ⟨hj, htest⟩
    refine ⟨?_, htest⟩
    by_contra hge
    rw [hzero j (by omega) hj] at htest
    cases htest
  · rintro ⟨hj, htest⟩
    exact ⟨by omega, htest⟩

/-- The bytes of a set of numbers. -/
def encode (s : ℕ → Bool) : ℕ → BitVec 8 :=
  fun i => (BitVec.iunfoldr (fun (k : Fin 8) (_ : Unit) => ((), s (8 * i + k))) ()).2

theorem test_encode (s : ℕ → Bool) (i : ℕ) : test (encode s) i = s i := by
  have hlt : i % 8 < 8 := Nat.mod_lt _ (by norm_num)
  have hbit := BitVec.iunfoldr_getLsbD (f := fun (k : Fin 8) (_ : Unit) => ((), s (8 * (i / 8) + k)))
    (fun _ => ()) ⟨i % 8, hlt⟩ (fun _ => rfl)
  rw [test_eq]
  exact hbit.trans (congrArg s (Nat.div_add_mod i 8))

end ByteBits
