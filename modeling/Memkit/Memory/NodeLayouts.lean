import Memkit.Boxes.HashMapBox
import Memkit.Foundations.RecordLayout
import Memkit.Memory.ArenaTemplate

/-! # The layouts of nodes, entries and slots

How the cores compute the stride of their records and the addresses in them, from `sizeof` and the
sizes of the elements:

* **`ListCore.layout`**, **`DListCore.layout`**, **`BTreeMapCore.layout`** — a header of pointers,
  then the element.
* **`LruCacheMapCore.layout`** — a header of pointers, then the key and the value.
* **`HashMapMapCore.slotLayout`**, **`HashMapMapCore.chainLayout`** — a slot is a byte of state, then
  key and value; a chained node is a pointer, then key and value.
* **`FlatMapCore.layout`** — a key, then a value at a rounded offset.

Each is sound exactly under a condition on sizes and alignments; none rounds its stride up. -/

namespace Memkit

open RecordLayout

variable {w : ℕ}

/-! ## Sizes and alignments -/

/-- `sizeof` and `alignof` of an object type. -/
structure TypeLayout (w : ℕ) where
  size : BitVec w
  align : BitVec w
  align_power : isPowerOfTwo align = true
  align_dvd : align.toNat ∣ size.toNat
  size_pos : 0 < size.toNat

/-- What the layouts take from the platform. -/
structure Platform (w : ℕ) where
  /-- A pointer. -/
  pointer : TypeLayout w
  /-- `alignof(std::max_align_t)`. -/
  maxAlign : BitVec w
  /-- The largest header has three pointers. -/
  headers_real : 3 * pointer.size.toNat < 2 ^ w

theorem Platform.toNat_pointers (pf : Platform w) {n : ℕ} (hn : n ≤ 3) :
    (BitVec.ofNat w (n * pf.pointer.size.toNat)).toNat = n * pf.pointer.size.toNat := by
  rw [BitVec.toNat_ofNat]
  exact Nat.mod_eq_of_lt ((Nat.mul_le_mul_right _ hn).trans_lt pf.headers_real)

/-- A struct of pointers. -/
def Platform.pointers (pf : Platform w) (n : ℕ) (hpos : 0 < n) (hn : n ≤ 3) : TypeLayout w where
  size := BitVec.ofNat w (n * pf.pointer.size.toNat)
  align := pf.pointer.align
  align_power := pf.pointer.align_power
  align_dvd := (pf.toNat_pointers hn).symm ▸ pf.pointer.align_dvd.mul_left n
  size_pos := (pf.toNat_pointers hn).symm ▸ Nat.mul_pos hpos pf.pointer.size_pos

theorem Platform.size_pointers (pf : Platform w) {n : ℕ} (hpos : 0 < n) (hn : n ≤ 3) :
    (pf.pointers n hpos hn).size.toNat = n * pf.pointer.size.toNat := pf.toNat_pointers hn

namespace TypeLayout

theorem exists_power (t : TypeLayout w) : ∃ k < w, t.align.toNat = 2 ^ k := by
  obtain ⟨hne, hpow⟩ := isPowerOfTwo_eq_true.mp t.align_power
  obtain ⟨k, hk, hval, -⟩ := exists_alignment hne hpow
  exact ⟨k, hk, hval⟩

/-- A size is rounded up to itself. -/
theorem alignUp_size (t : TypeLayout w) : alignUp t.size t.align = t.size := by
  obtain ⟨k, hk, hval⟩ := t.exists_power
  have hpos : 0 < 2 ^ k := Nat.two_pow_pos k
  obtain ⟨m, hm⟩ := hval ▸ t.align_dvd
  have hlt : t.size.toNat + (2 ^ k - 1) < 2 ^ w := by
    have hsize := t.size.isLt
    obtain ⟨d, hd⟩ := pow_dvd_pow 2 hk.le
    rw [hm, hd] at hsize ⊢
    have hle := Nat.mul_le_mul_left (2 ^ k) (Nat.succ_le_of_lt (Nat.lt_of_mul_lt_mul_left hsize))
    rw [Nat.mul_succ] at hle
    omega
  apply BitVec.eq_of_toNat_eq
  rw [alignUp_eq, toNat_roundUp hk hval hlt, hm, Nat.mul_add_div hpos,
    Nat.div_eq_of_lt (Nat.sub_lt hpos Nat.one_pos), Nat.add_zero, Nat.mul_comm]

/-- `bytes_alignment` of a size. -/
def bytesAlignment (maxAlign : BitVec w) (t : TypeLayout w) : BitVec w :=
  HashMapBoxConfig.bytesAlignment maxAlign t.size

/-- `bytes_alignment` is the largest power of two that divides the size, so every alignment divides
it. -/
theorem exists_bytesAlignment (maxAlign : BitVec w) (t : TypeLayout w) :
    ∃ k < w, (t.bytesAlignment maxAlign).toNat = 2 ^ k ∧ 2 ^ k ∣ t.size.toNat ∧
      t.align.toNat ∣ 2 ^ k := by
  have hne : t.size ≠ 0 := by
    intro hzero
    have hpos := t.size_pos
    rw [hzero] at hpos
    simp at hpos
  obtain ⟨k, hk, hval, hdvd⟩ := exists_lowest_bit hne
  obtain ⟨j, -, hj⟩ := t.exists_power
  have hlow : 0 < t.size &&& (~~~t.size + 1) := by
    rw [BitVec.lt_def, hval]
    simp
  refine ⟨k, hk, ?_, (hdvd k).mpr le_rfl, ?_⟩
  · rw [bytesAlignment, HashMapBoxConfig.bytesAlignment, if_neg hne]
    simp only [if_pos hlow, hval]
  · rw [hj]
    exact pow_dvd_pow 2 ((hdvd j).mp (hj ▸ t.align_dvd))

end TypeLayout

/-! ## The formulas of the cores -/

/-- A part of a record at an offset that the code computes. -/
def TypeLayout.partAt (t : TypeLayout w) (offset : BitVec w) : RecordPart :=
  ⟨offset.toNat, t.size.toNat, t.align.toNat⟩

/-- `node_stride` and `node_data`: a header, then the element. -/
def headedLayout (header elem : TypeLayout w) : RecordLayout w :=
  let headerSize := alignUp header.size header.align
  { stride := headerSize + elem.size
    parts := [header.partAt 0, elem.partAt headerSize] }

/-- `list_node_header`. -/
def listNodeHeader (pf : Platform w) : TypeLayout w :=
  pf.pointers 1 (Nat.succ_pos 0) (Nat.le_add_left 1 2)

/-- `dlist_node_header`. -/
def dlistNodeHeader (pf : Platform w) : TypeLayout w :=
  pf.pointers 2 (Nat.succ_pos 1) (Nat.le_succ 2)

/-- `btree_node_header`. -/
def btreeNodeHeader (pf : Platform w) : TypeLayout w :=
  pf.pointers 2 (Nat.succ_pos 1) (Nat.le_succ 2)

/-- `lrucache_entry_header`. -/
def lrucacheEntryHeader (pf : Platform w) : TypeLayout w :=
  pf.pointers 3 (Nat.succ_pos 2) le_rfl

/-- `hashmap_chain_node`. -/
def hashmapChainNode (pf : Platform w) : TypeLayout w :=
  pf.pointers 1 (Nat.succ_pos 0) (Nat.le_add_left 1 2)

/-- The nodes of `list_core`. -/
def ListCore.layout (pf : Platform w) (elem : TypeLayout w) : RecordLayout w :=
  headedLayout (listNodeHeader pf) elem

/-- The nodes of `dlist_core`. -/
def DListCore.layout (pf : Platform w) (elem : TypeLayout w) : RecordLayout w :=
  headedLayout (dlistNodeHeader pf) elem

/-- The nodes of `btree_map_core`. -/
def BTreeMapCore.layout (pf : Platform w) (elem : TypeLayout w) : RecordLayout w :=
  headedLayout (btreeNodeHeader pf) elem

/-- Something at the start of a record, then a key at an offset and a value right after it. -/
def pairLayout (first : RecordPart) (keyOffset : BitVec w) (key value : TypeLayout w) :
    RecordLayout w where
  stride := keyOffset + key.size + value.size
  parts := [first, key.partAt keyOffset, value.partAt (keyOffset + key.size)]

/-- The entries of `lrucache_map_core`: `entry_stride`, `entry_key` and `entry_value`. -/
def LruCacheMapCore.layout (pf : Platform w) (key value : TypeLayout w) : RecordLayout w :=
  let header := lrucacheEntryHeader pf
  pairLayout (header.partAt 0) (alignUp header.size header.align) key value

/-- The slots of `hashmap_map_core`: `open_slot_stride` and the offsets of `init_from_arena`. -/
def HashMapMapCore.slotLayout (pf : Platform w) (key value : TypeLayout w) : RecordLayout w :=
  pairLayout ⟨0, 1, 1⟩ (alignUp 1 (key.bytesAlignment pf.maxAlign)) key value

/-- A node of `hashmap_map_core`: `chain_node_bytes`, `chain_node_key` and `chain_node_value`. -/
def HashMapMapCore.chainLayout (pf : Platform w) (key value : TypeLayout w) : RecordLayout w :=
  pairLayout ((hashmapChainNode pf).partAt 0) (hashmapChainNode pf).size key value

/-- The element policies that `flat_map_core` is used with. -/
inductive PolicyKind
  | typed
  | runtime

/-- `alignment()`: the alignment of the type, or `bytes_alignment` of its size. -/
def PolicyKind.alignment (kind : PolicyKind) (pf : Platform w) (t : TypeLayout w) : BitVec w :=
  match kind with
  | .typed => t.align
  | .runtime => t.bytesAlignment pf.maxAlign

/-- The entries of `flat_map_core`: `entry_stride`, and `value_offset_` of `init`. -/
def FlatMapCore.layout (pf : Platform w) (kind : PolicyKind) (key value : TypeLayout w) :
    RecordLayout w :=
  let valueOff := alignUp key.size (value.bytesAlignment pf.maxAlign)
  { stride := valueOff + value.size
    parts := [key.partAt 0, value.partAt (alignUp key.size (kind.alignment pf value))] }

/-! ## When they are sound -/

variable {pf : Platform w} {header elem key value : TypeLayout w} {base : ℕ} {capacity : BitVec w}

theorem partAt_pos (t : TypeLayout w) (offset : BitVec w) :
    0 < (t.partAt offset).offset + (t.partAt offset).size :=
  Nat.add_pos_right _ t.size_pos

/-- A sum of sizes that a record must hold does not wrap. -/
theorem toNat_add_of_le {a b : BitVec w} (h : a.toNat + b.toNat ≤ (a + b).toNat) :
    (a + b).toNat = a.toNat + b.toNat :=
  le_antisymm (by rw [BitVec.toNat_add]; exact Nat.mod_le _ _) h

theorem toNat_zero_offset : (0 : BitVec w).toNat = 0 := BitVec.toNat_zero

theorem toNat_add_of_lt {a b : BitVec w} (h : a.toNat + b.toNat < 2 ^ w) :
    (a + b).toNat = a.toNat + b.toNat := by
  rw [BitVec.toNat_add, Nat.mod_eq_of_lt h]

/-- A header and an element. -/
theorem regular_headedLayout (hcap : 0 < capacity.toNat) :
    (headedLayout header elem).Regular capacity ↔
      elem.align.toNat ∣ header.size.toNat ∧
        (2 ≤ capacity.toNat → header.align.toNat ∣ elem.size.toNat) ∧
        capacity.toNat * (header.size.toNat + elem.size.toNat) < 2 ^ w := by
  have hlayout : headedLayout header elem =
      ⟨header.size + elem.size, [header.partAt 0, elem.partAt header.size]⟩ := by
    simp only [headedLayout, TypeLayout.alignUp_size]
  rw [hlayout]
  constructor
  · intro h
    have hfits := h.fits (elem.partAt header.size) (by simp)
    have hsum : (header.size + elem.size).toNat = _ := toNat_add_of_le hfits
    refine ⟨h.offset (elem.partAt header.size) (by simp), fun htwo => ?_, ?_⟩
    · have hstride := h.stride htwo (header.partAt 0) (by simp)
      rw [hsum] at hstride
      exact (Nat.dvd_add_right header.align_dvd).mp hstride
    · have hwrap := h.noWrap
      rwa [hsum] at hwrap
  · rintro ⟨hoffset, hstride, hwrap⟩
    have hsum := toNat_add_of_lt ((Nat.le_mul_of_pos_left _ hcap).trans_lt hwrap)
    refine ⟨?_, ?_, ?_, ?_, ?_⟩
    · simp [TypeLayout.partAt]
    · simp [TypeLayout.partAt, hsum]
    · rwa [hsum]
    · simpa [TypeLayout.partAt] using hoffset
    · intro htwo
      simpa [TypeLayout.partAt, hsum] using
        ⟨header.align_dvd.add (hstride htwo), hoffset.add elem.align_dvd⟩

/-- A key and a value after something else. -/
theorem regular_pairLayout {first : RecordPart} {keyOffset : BitVec w} (hzero : first.offset = 0)
    (hfirst : first.size ≤ keyOffset.toNat) (hcap : 0 < capacity.toNat) :
    (pairLayout first keyOffset key value).Regular capacity ↔
      key.align.toNat ∣ keyOffset.toNat ∧
        value.align.toNat ∣ keyOffset.toNat + key.size.toNat ∧
        (2 ≤ capacity.toNat →
          first.align ∣ keyOffset.toNat + key.size.toNat + value.size.toNat ∧
            key.align.toNat ∣ value.size.toNat) ∧
        capacity.toNat * (keyOffset.toNat + key.size.toNat + value.size.toNat) < 2 ^ w := by
  constructor
  · intro h
    have hordered := h.ordered
    simp only [pairLayout, TypeLayout.partAt, List.pairwise_cons, List.mem_cons, forall_eq_or_imp,
      List.not_mem_nil, false_imp_iff, implies_true, and_true, List.Pairwise.nil] at hordered
    -- parts in order cannot have wrapped, so that the sums are exact
    have hkey := toNat_add_of_le hordered.2
    have hfits := h.fits (value.partAt (keyOffset + key.size)) (by simp [pairLayout])
    have hsum : (keyOffset + key.size + value.size).toNat = _ := toNat_add_of_le hfits
    rw [hkey] at hsum
    have hoff := h.offset (key.partAt keyOffset) (by simp [pairLayout])
    have hvalue := h.offset (value.partAt (keyOffset + key.size)) (by simp [pairLayout])
    have hwrap := h.noWrap
    simp only [TypeLayout.partAt, pairLayout, hkey, hsum] at hoff hvalue hwrap
    refine ⟨hoff, hvalue, fun htwo => ⟨?_, ?_⟩, hwrap⟩
    · have hstride := h.stride htwo first (by simp [pairLayout])
      rwa [pairLayout, hsum] at hstride
    · have hstride := h.stride htwo (key.partAt keyOffset) (by simp [pairLayout])
      rw [pairLayout, hsum] at hstride
      exact (Nat.dvd_add_right (hoff.add key.align_dvd)).mp hstride
  · rintro ⟨hoff, hvalue, hstride, hwrap⟩
    -- a pool that does not wrap has records that do not
    have hlt := (Nat.le_mul_of_pos_left _ hcap).trans_lt hwrap
    have hkey := toNat_add_of_lt (a := keyOffset) (b := key.size) (by omega)
    have hsum : (keyOffset + key.size + value.size).toNat =
        keyOffset.toNat + key.size.toNat + value.size.toNat := by
      rw [toNat_add_of_lt (by rwa [hkey]), hkey]
    refine ⟨?_, ?_, ?_, ?_, ?_⟩
    · simp only [pairLayout, TypeLayout.partAt, List.pairwise_cons, List.mem_cons,
        forall_eq_or_imp, List.not_mem_nil, false_imp_iff, implies_true, and_true,
        List.Pairwise.nil, hkey, hzero]
      omega
    · simp only [pairLayout, TypeLayout.partAt, List.mem_cons, forall_eq_or_imp, List.not_mem_nil,
        false_imp_iff, implies_true, and_true, hkey, hsum, hzero]
      omega
    · rwa [pairLayout, hsum]
    · simp only [pairLayout, TypeLayout.partAt, List.mem_cons, forall_eq_or_imp, List.not_mem_nil,
        false_imp_iff, implies_true, and_true, hkey, hzero]
      exact ⟨dvd_zero _, hoff, hvalue⟩
    · intro htwo
      simp only [pairLayout, TypeLayout.partAt, List.mem_cons, forall_eq_or_imp, List.not_mem_nil,
        false_imp_iff, implies_true, and_true, hsum]
      exact ⟨(hstride htwo).1, (hoff.add key.align_dvd).add (hstride htwo).2,
        hvalue.add value.align_dvd⟩

/-- The key of a slot is as aligned as its size allows. -/
theorem toNat_slotKeyOffset (pf : Platform w) (key : TypeLayout w) :
    (alignUp 1 (key.bytesAlignment pf.maxAlign)).toNat =
      (key.bytesAlignment pf.maxAlign).toNat := by
  obtain ⟨k, hk, hval, -⟩ := key.exists_bytesAlignment pf.maxAlign
  have hpos : 0 < 2 ^ k := Nat.two_pow_pos k
  have hpowlt : 2 ^ k < 2 ^ w := Nat.pow_lt_pow_right one_lt_two hk
  have hone : (1 : BitVec w).toNat = 1 := by
    rw [show (1 : BitVec w) = BitVec.ofNat w 1 from rfl, BitVec.toNat_ofNat, Nat.mod_eq_of_lt]
    omega
  have hsum : 1 + (2 ^ k - 1) = 2 ^ k := by omega
  rw [alignUp_eq, toNat_roundUp hk hval (by omega), hone, hsum, Nat.div_self hpos, Nat.one_mul, hval]

/-! ## Rounding up in numbers -/

/-- The least multiple of `a` that is not below `n`. -/
def ceilTo (a n : ℕ) : ℕ := (n + (a - 1)) / a * a

theorem dvd_ceilTo (a n : ℕ) : a ∣ ceilTo a n := Nat.dvd_mul_left ..

theorem le_ceilTo {a : ℕ} (ha : 0 < a) (n : ℕ) : n ≤ ceilTo a n := by
  have hdiv := Nat.div_add_mod (n + (a - 1)) a
  have hmod := Nat.mod_lt (n + (a - 1)) ha
  rw [ceilTo, Nat.mul_comm]
  omega

theorem ceilTo_le {a n m : ℕ} (ha : 0 < a) (hn : n ≤ m) (hm : a ∣ m) : ceilTo a n ≤ m := by
  obtain ⟨c, rfl⟩ := hm
  have hlt : (n + (a - 1)) / a < c + 1 := by
    apply Nat.div_lt_of_lt_mul
    rw [Nat.mul_succ]
    omega
  rw [ceilTo, Nat.mul_comm]
  exact Nat.mul_le_mul_left a (Nat.le_of_lt_succ hlt)

/-- Rounding up a word, which wraps to zero if the multiple is out of range. -/
theorem toNat_alignUp (value : BitVec w) {alignment : BitVec w} {k : ℕ} (hk : k < w)
    (hval : alignment.toNat = 2 ^ k) :
    (ceilTo (2 ^ k) value.toNat < 2 ^ w ∧
        (alignUp value alignment).toNat = ceilTo (2 ^ k) value.toNat) ∨
      (2 ^ w ≤ ceilTo (2 ^ k) value.toNat ∧ alignUp value alignment = 0) := by
  have hpos : 0 < 2 ^ k := Nat.two_pow_pos k
  rw [alignUp_eq]
  rcases Nat.lt_or_ge (value.toNat + (2 ^ k - 1)) (2 ^ w) with hlt | hge
  · have heq := toNat_roundUp hk hval hlt
    exact .inl ⟨(Nat.div_mul_le_self _ _).trans_lt hlt, heq⟩
  · refine .inr ⟨?_, roundUp_of_wrap hk hval hge⟩
    obtain ⟨d, hd⟩ := pow_dvd_pow 2 hk.le
    rw [ceilTo, hd, Nat.mul_comm (2 ^ k) d]
    exact Nat.mul_le_mul_right _ ((Nat.le_div_iff_mul_le hpos).mpr (by rwa [Nat.mul_comm, ← hd]))

/-- Where the value of an entry ends up by the stride: the padded size of the key. -/
def FlatMapCore.paddedKey (pf : Platform w) (key value : TypeLayout w) : ℕ :=
  ceilTo (value.bytesAlignment pf.maxAlign).toNat key.size.toNat

/-- Either policy aligns a value as its type asks, and no more than the stride does. -/
theorem PolicyKind.exists_alignment (kind : PolicyKind) (pf : Platform w) (t : TypeLayout w) :
    ∃ j < w, (kind.alignment pf t).toNat = 2 ^ j ∧ t.align.toNat ∣ 2 ^ j ∧
      2 ^ j ∣ (t.bytesAlignment pf.maxAlign).toNat := by
  obtain ⟨k, hk, hval, -, hdvd⟩ := t.exists_bytesAlignment pf.maxAlign
  cases kind with
  | typed =>
    obtain ⟨j, hj, hpow⟩ := t.exists_power
    exact ⟨j, hj, hpow, dvd_of_eq hpow, by rw [hval, ← hpow]; exact hdvd⟩
  | runtime => exact ⟨k, hk, hval, hdvd, dvd_of_eq hval.symm⟩

/-- A key and a value at a rounded offset. -/
theorem regular_flatLayout {kind : PolicyKind} (hcap : 0 < capacity.toNat) :
    (FlatMapCore.layout pf kind key value).Regular capacity ↔
      (2 ≤ capacity.toNat →
        key.align.toNat ∣ FlatMapCore.paddedKey pf key value + value.size.toNat) ∧
        capacity.toNat * (FlatMapCore.paddedKey pf key value + value.size.toNat) < 2 ^ w := by
  obtain ⟨k, hk, hval, hsize, hdvd⟩ := value.exists_bytesAlignment pf.maxAlign
  obtain ⟨j, hj, hpolicy, halign, hjk⟩ := kind.exists_alignment pf value
  rw [hval] at hjk
  have hkpos : 0 < 2 ^ k := Nat.two_pow_pos k
  have hjpos : 0 < 2 ^ j := Nat.two_pow_pos j
  have hpad : FlatMapCore.paddedKey pf key value = ceilTo (2 ^ k) key.size.toNat := by
    rw [FlatMapCore.paddedKey, hval]
  have hkey := key.size_pos
  rw [hpad]
  constructor
  · intro h
    have hordered := h.ordered
    have hfits := h.fits (value.partAt (alignUp key.size (kind.alignment pf value)))
      (by simp [FlatMapCore.layout])
    have hwrap := h.noWrap
    simp only [FlatMapCore.layout, TypeLayout.partAt, List.pairwise_cons, List.mem_cons,
      forall_eq_or_imp, List.not_mem_nil, false_imp_iff, implies_true, and_true,
      List.Pairwise.nil] at hordered hfits hwrap
    rcases toNat_alignUp key.size hk hval with ⟨hlt, hoff⟩ | ⟨-, hzero⟩
    · have hsum : (alignUp key.size (value.bytesAlignment pf.maxAlign) + value.size).toNat =
          ceilTo (2 ^ k) key.size.toNat + value.size.toNat := by
        rw [← hoff]
        apply toNat_add_of_lt
        -- a stride that wrapped would be shorter than the value
        by_contra hge
        rw [not_lt] at hge
        have hv := value.size.isLt
        rw [BitVec.toNat_add, Nat.mod_eq_sub_mod hge, Nat.mod_eq_of_lt (by omega)] at hfits
        omega
      rw [hsum] at hwrap
      refine ⟨fun htwo => ?_, hwrap⟩
      have hstride := h.stride htwo (key.partAt 0) (by simp [FlatMapCore.layout])
      simp only [FlatMapCore.layout, TypeLayout.partAt, hsum] at hstride
      exact hstride
    · have hsum : (0 : BitVec w) + value.size = value.size := BitVec.zero_add _
      rw [hzero, hsum] at hfits
      rw [toNat_zero_offset] at hordered
      omega
  · rintro ⟨hstride, hwrap⟩
    have hlt := (Nat.le_mul_of_pos_left _ hcap).trans_lt hwrap
    have hle := ceilTo_le hjpos (le_ceilTo hkpos key.size.toNat) (hjk.trans (dvd_ceilTo _ _))
    have hge := le_ceilTo hjpos key.size.toNat
    have hoff : (alignUp key.size (value.bytesAlignment pf.maxAlign)).toNat =
        ceilTo (2 ^ k) key.size.toNat := by
      rcases toNat_alignUp key.size hk hval with ⟨-, heq⟩ | ⟨hout, -⟩
      · exact heq
      · omega
    have hvalue : (alignUp key.size (kind.alignment pf value)).toNat =
        ceilTo (2 ^ j) key.size.toNat := by
      rcases toNat_alignUp key.size hj hpolicy with ⟨-, heq⟩ | ⟨hout, -⟩
      · exact heq
      · omega
    have hsum : (alignUp key.size (value.bytesAlignment pf.maxAlign) + value.size).toNat =
        ceilTo (2 ^ k) key.size.toNat + value.size.toNat := by
      rw [toNat_add_of_lt (by rwa [hoff]), hoff]
    refine ⟨?_, ?_, ?_, ?_, ?_⟩
    · simpa [FlatMapCore.layout, TypeLayout.partAt, hvalue] using hge
    · simp only [FlatMapCore.layout, TypeLayout.partAt, List.mem_cons, forall_eq_or_imp,
        List.not_mem_nil, false_imp_iff, implies_true, and_true, hvalue, hsum, toNat_zero_offset]
      omega
    · simpa only [FlatMapCore.layout, hsum] using hwrap
    · simp only [FlatMapCore.layout, TypeLayout.partAt, List.mem_cons, forall_eq_or_imp,
        List.not_mem_nil, false_imp_iff, implies_true, and_true, hvalue]
      exact ⟨by simp, halign.trans (dvd_ceilTo _ _)⟩
    · intro htwo
      simp only [FlatMapCore.layout, TypeLayout.partAt, List.mem_cons, forall_eq_or_imp,
        List.not_mem_nil, false_imp_iff, implies_true, and_true, hsum]
      exact ⟨hstride htwo, (hdvd.trans (dvd_ceilTo _ _)).add value.align_dvd⟩

/-! ## The cores -/

/-- Nodes with a header of pointers. -/
theorem sound_headedLayout (hcap : 0 < capacity.toNat) (hheader : header.align.toNat ∣ base)
    (helem : elem.align.toNat ∣ base) :
    (headedLayout header elem).Sound base capacity ↔
      elem.align.toNat ∣ header.size.toNat ∧
        (2 ≤ capacity.toNat → header.align.toNat ∣ elem.size.toNat) ∧
        capacity.toNat * (header.size.toNat + elem.size.toNat) < 2 ^ w := by
  rw [sound_iff (p := header.partAt 0) _ hcap (by simp [headedLayout]) (partAt_pos header 0),
    regular_headedLayout hcap]
  simpa [headedLayout, TypeLayout.partAt] using ⟨hheader, helem⟩

/-- Records with a key and a value after something else. -/
theorem sound_pairLayout {first : RecordPart} {keyOffset : BitVec w} (hzero : first.offset = 0)
    (hfirst : first.size ≤ keyOffset.toNat) (hcap : 0 < capacity.toNat) (hbase : first.align ∣ base)
    (hkey : key.align.toNat ∣ base) (hvalue : value.align.toNat ∣ base) :
    (pairLayout first keyOffset key value).Sound base capacity ↔
      key.align.toNat ∣ keyOffset.toNat ∧
        value.align.toNat ∣ keyOffset.toNat + key.size.toNat ∧
        (2 ≤ capacity.toNat →
          first.align ∣ keyOffset.toNat + key.size.toNat + value.size.toNat ∧
            key.align.toNat ∣ value.size.toNat) ∧
        capacity.toNat * (keyOffset.toNat + key.size.toNat + value.size.toNat) < 2 ^ w := by
  rw [sound_iff (p := key.partAt keyOffset) _ hcap (by simp [pairLayout]) (partAt_pos key _),
    regular_pairLayout hzero hfirst hcap]
  simpa [pairLayout, TypeLayout.partAt] using ⟨hbase, hkey, hvalue⟩

variable (hcap : 0 < capacity.toNat) (hpointer : pf.pointer.align.toNat ∣ base)
  (helem : elem.align.toNat ∣ base) (hkey : key.align.toNat ∣ base)
  (hvalue : value.align.toNat ∣ base)

include hcap hpointer helem in
theorem sound_listLayout :
    (ListCore.layout pf elem).Sound base capacity ↔
      elem.align.toNat ∣ pf.pointer.size.toNat ∧
        (2 ≤ capacity.toNat → pf.pointer.align.toNat ∣ elem.size.toNat) ∧
        capacity.toNat * (pf.pointer.size.toNat + elem.size.toNat) < 2 ^ w := by
  have hheader : (listNodeHeader pf).align.toNat ∣ base := hpointer
  rw [ListCore.layout, sound_headedLayout hcap hheader helem, listNodeHeader,
    Platform.size_pointers, Nat.one_mul]
  rfl

include hcap hpointer helem in
theorem sound_dlistLayout :
    (DListCore.layout pf elem).Sound base capacity ↔
      elem.align.toNat ∣ 2 * pf.pointer.size.toNat ∧
        (2 ≤ capacity.toNat → pf.pointer.align.toNat ∣ elem.size.toNat) ∧
        capacity.toNat * (2 * pf.pointer.size.toNat + elem.size.toNat) < 2 ^ w := by
  have hheader : (dlistNodeHeader pf).align.toNat ∣ base := hpointer
  rw [DListCore.layout, sound_headedLayout hcap hheader helem, dlistNodeHeader,
    Platform.size_pointers]
  rfl

include hcap hpointer hkey hvalue in
theorem sound_lruLayout :
    (LruCacheMapCore.layout pf key value).Sound base capacity ↔
      key.align.toNat ∣ 3 * pf.pointer.size.toNat ∧
        value.align.toNat ∣ 3 * pf.pointer.size.toNat + key.size.toNat ∧
        (2 ≤ capacity.toNat →
          pf.pointer.align.toNat ∣ key.size.toNat + value.size.toNat ∧
            key.align.toNat ∣ value.size.toNat) ∧
        capacity.toNat * (3 * pf.pointer.size.toNat + key.size.toNat + value.size.toNat) <
          2 ^ w := by
  have hheader : pf.pointer.align.toNat ∣ 3 * pf.pointer.size.toNat :=
    pf.pointer.align_dvd.mul_left 3
  rw [LruCacheMapCore.layout, TypeLayout.alignUp_size,
    sound_pairLayout toNat_zero_offset le_rfl hcap hpointer hkey hvalue, lrucacheEntryHeader,
    Platform.size_pointers, Nat.add_assoc, ← Nat.dvd_add_right hheader]
  rfl

include hcap hkey hvalue in
theorem sound_slotLayout :
    (HashMapMapCore.slotLayout pf key value).Sound base capacity ↔
      value.align.toNat ∣ (key.bytesAlignment pf.maxAlign).toNat + key.size.toNat ∧
        (2 ≤ capacity.toNat → key.align.toNat ∣ value.size.toNat) ∧
        capacity.toNat * ((key.bytesAlignment pf.maxAlign).toNat + key.size.toNat +
          value.size.toNat) < 2 ^ w := by
  obtain ⟨k, -, hval, -, hdvd⟩ := key.exists_bytesAlignment pf.maxAlign
  have hstate : 1 ≤ (alignUp 1 (key.bytesAlignment pf.maxAlign)).toNat := by
    rw [toNat_slotKeyOffset, hval]
    exact Nat.one_le_two_pow
  rw [HashMapMapCore.slotLayout,
    sound_pairLayout rfl hstate hcap (one_dvd base) hkey hvalue, toNat_slotKeyOffset]
  simp only [hval, hdvd, one_dvd, true_and]

include hpointer hkey hvalue in
theorem sound_chainLayout (hw : 0 < w) :
    (HashMapMapCore.chainLayout pf key value).Sound base 1 ↔
      key.align.toNat ∣ pf.pointer.size.toNat ∧
        value.align.toNat ∣ pf.pointer.size.toNat + key.size.toNat ∧
        pf.pointer.size.toNat + key.size.toNat + value.size.toNat < 2 ^ w := by
  have hone : (1 : BitVec w).toNat = 1 := by
    rw [show (1 : BitVec w) = BitVec.ofNat w 1 from rfl, BitVec.toNat_ofNat]
    exact Nat.mod_eq_of_lt (Nat.one_lt_two_pow hw.ne')
  rw [HashMapMapCore.chainLayout,
    sound_pairLayout toNat_zero_offset le_rfl (by rw [hone]; exact Nat.one_pos) hpointer hkey hvalue,
    hashmapChainNode, Platform.size_pointers, hone, Nat.one_mul, Nat.one_mul]
  simp only [Nat.not_succ_le_self, false_imp_iff, true_and]

include hcap hkey hvalue in
theorem sound_flatLayout (kind : PolicyKind) :
    (FlatMapCore.layout pf kind key value).Sound base capacity ↔
      (2 ≤ capacity.toNat →
        key.align.toNat ∣ FlatMapCore.paddedKey pf key value + value.size.toNat) ∧
        capacity.toNat * (FlatMapCore.paddedKey pf key value + value.size.toNat) < 2 ^ w := by
  rw [sound_iff (p := key.partAt 0) _ hcap (by simp [FlatMapCore.layout]) (partAt_pos key 0),
    regular_flatLayout hcap]
  simpa [FlatMapCore.layout, TypeLayout.partAt] using ⟨hkey, hvalue⟩

/-- **When the record layouts are sound**, for a base that is aligned for the header and the elements:
the alignments must divide the offsets that the formulas give, and, from two records on, the stride. -/
theorem record_layouts_sound_iff (pf : Platform w) (kind : PolicyKind) (elem key value : TypeLayout w)
    (base : ℕ) (capacity : BitVec w) (hcap : 0 < capacity.toNat)
    (hpointer : pf.pointer.align.toNat ∣ base) (helem : elem.align.toNat ∣ base)
    (hkey : key.align.toNat ∣ base) (hvalue : value.align.toNat ∣ base) :
    ((ListCore.layout pf elem).Sound base capacity ↔
      elem.align.toNat ∣ pf.pointer.size.toNat ∧
        (2 ≤ capacity.toNat → pf.pointer.align.toNat ∣ elem.size.toNat) ∧
        capacity.toNat * (pf.pointer.size.toNat + elem.size.toNat) < 2 ^ w) ∧
    ((DListCore.layout pf elem).Sound base capacity ↔
      elem.align.toNat ∣ 2 * pf.pointer.size.toNat ∧
        (2 ≤ capacity.toNat → pf.pointer.align.toNat ∣ elem.size.toNat) ∧
        capacity.toNat * (2 * pf.pointer.size.toNat + elem.size.toNat) < 2 ^ w) ∧
    ((BTreeMapCore.layout pf elem).Sound base capacity ↔
      elem.align.toNat ∣ 2 * pf.pointer.size.toNat ∧
        (2 ≤ capacity.toNat → pf.pointer.align.toNat ∣ elem.size.toNat) ∧
        capacity.toNat * (2 * pf.pointer.size.toNat + elem.size.toNat) < 2 ^ w) ∧
    ((LruCacheMapCore.layout pf key value).Sound base capacity ↔
      key.align.toNat ∣ 3 * pf.pointer.size.toNat ∧
        value.align.toNat ∣ 3 * pf.pointer.size.toNat + key.size.toNat ∧
        (2 ≤ capacity.toNat →
          pf.pointer.align.toNat ∣ key.size.toNat + value.size.toNat ∧
            key.align.toNat ∣ value.size.toNat) ∧
        capacity.toNat * (3 * pf.pointer.size.toNat + key.size.toNat + value.size.toNat) < 2 ^ w) ∧
    ((HashMapMapCore.slotLayout pf key value).Sound base capacity ↔
      value.align.toNat ∣ (key.bytesAlignment pf.maxAlign).toNat + key.size.toNat ∧
        (2 ≤ capacity.toNat → key.align.toNat ∣ value.size.toNat) ∧
        capacity.toNat * ((key.bytesAlignment pf.maxAlign).toNat + key.size.toNat +
          value.size.toNat) < 2 ^ w) ∧
    ((HashMapMapCore.chainLayout pf key value).Sound base 1 ↔
      key.align.toNat ∣ pf.pointer.size.toNat ∧
        value.align.toNat ∣ pf.pointer.size.toNat + key.size.toNat ∧
        pf.pointer.size.toNat + key.size.toNat + value.size.toNat < 2 ^ w) ∧
    ((FlatMapCore.layout pf kind key value).Sound base capacity ↔
      (2 ≤ capacity.toNat →
        key.align.toNat ∣ FlatMapCore.paddedKey pf key value + value.size.toNat) ∧
        capacity.toNat * (FlatMapCore.paddedKey pf key value + value.size.toNat) < 2 ^ w) := by
  have hw : 0 < w := by
    rw [Nat.pos_iff_ne_zero]
    rintro rfl
    exact absurd hcap (by omega)
  exact ⟨sound_listLayout hcap hpointer helem, sound_dlistLayout hcap hpointer helem,
    sound_dlistLayout hcap hpointer helem, sound_lruLayout hcap hpointer hkey hvalue,
    sound_slotLayout hcap hkey hvalue, sound_chainLayout hpointer hkey hvalue hw,
    sound_flatLayout hcap hkey hvalue kind⟩

/-- An integer type of `2 ^ k` bytes on a platform of 64 bits, aligned to its size. -/
def integerType (k : Fin 4) : TypeLayout 64 where
  size := BitVec.ofNat 64 (2 ^ k.val)
  align := BitVec.ofNat 64 (2 ^ k.val)
  align_power := by
    revert k
    decide
  align_dvd := dvd_rfl
  size_pos := by
    revert k
    decide

/-- `std::uint8_t`. -/
def byteType : TypeLayout 64 := integerType 0

/-- `std::uint32_t`. -/
def halfType : TypeLayout 64 := integerType 2

/-- `std::uint64_t`, and a pointer. -/
def wordType : TypeLayout 64 := integerType 3

/-- A platform of 64 bits. -/
def lp64 : Platform 64 := ⟨wordType, 16, by decide⟩

/-- Records of 64-bit words are sound. -/
theorem record_layouts_sound_words :
    (ListCore.layout lp64 wordType).Sound 4096 4 ∧ (DListCore.layout lp64 wordType).Sound 4096 4 ∧
      (BTreeMapCore.layout lp64 wordType).Sound 4096 4 ∧
      (LruCacheMapCore.layout lp64 wordType wordType).Sound 4096 4 ∧
      (HashMapMapCore.slotLayout lp64 wordType wordType).Sound 4096 4 ∧
      (HashMapMapCore.chainLayout lp64 wordType wordType).Sound 4096 1 ∧
      (FlatMapCore.layout lp64 .typed wordType wordType).Sound 4096 4 := by
  obtain ⟨hlist, hdlist, htree, hlru, hslot, hchain, hflat⟩ :=
    record_layouts_sound_iff lp64 .typed wordType wordType wordType 4096 4 (by decide) (by decide)
      (by decide) (by decide) (by decide)
  exact ⟨hlist.mpr (by decide), hdlist.mpr (by decide), htree.mpr (by decide),
    hlru.mpr (by decide), hslot.mpr (by decide), hchain.mpr (by decide), hflat.mpr (by decide)⟩

/-- **No core rounds its stride up, and three of the layouts misplace values**: two nodes with one
byte each, an entry and a chained node with a 32-bit key and a 64-bit value, a slot with one byte and a
32-bit value, two flat entries with a 64-bit key and one byte. -/
theorem not_sound_small :
    ¬ (ListCore.layout lp64 byteType).Sound 4096 2 ∧ ¬ (DListCore.layout lp64 byteType).Sound 4096 2 ∧
      ¬ (BTreeMapCore.layout lp64 byteType).Sound 4096 2 ∧
      ¬ (LruCacheMapCore.layout lp64 halfType wordType).Sound 4096 1 ∧
      ¬ (HashMapMapCore.slotLayout lp64 byteType halfType).Sound 4096 1 ∧
      ¬ (HashMapMapCore.chainLayout lp64 halfType wordType).Sound 4096 1 ∧
      ¬ (FlatMapCore.layout lp64 .typed wordType byteType).Sound 4096 2 := by
  have hbyte : ¬ 8 ∣ 1 := by decide
  refine ⟨fun h => ?_, fun h => ?_, fun h => ?_, fun h => ?_, fun h => ?_, fun h => ?_, fun h => ?_⟩
  · exact hbyte (((sound_listLayout (by decide) (by decide) (by decide)).mp h).2.1 le_rfl)
  · exact hbyte (((sound_dlistLayout (by decide) (by decide) (by decide)).mp h).2.1 le_rfl)
  · exact hbyte (((sound_dlistLayout (by decide) (by decide) (by decide)).mp h).2.1 le_rfl)
  · exact absurd ((sound_lruLayout (by decide) (by decide) (by decide) (by decide)).mp h).2.1
      (by decide)
  · exact absurd ((sound_slotLayout (by decide) (by decide) (by decide)).mp h).1 (by decide)
  · exact absurd ((sound_chainLayout (by decide) (by decide) (by decide) (by decide)).mp h).2.1
      (by decide)
  · exact absurd (((sound_flatLayout (by decide) (by decide) (by decide) .typed).mp h).1 le_rfl)
      (by decide)

end Memkit
