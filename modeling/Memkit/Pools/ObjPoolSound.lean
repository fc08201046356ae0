import Memkit.Pools.ObjPool

/-! # The object pool never allocates a slot twice

The free stack and the bitmap of `objpool_core` are two records of one set. Over any calls, with
copies that fail as they like and with any word passed to `free`:

* **`Booked`** — a slot is on the free stack, once, exactly if its bit is clear, and the live
  addresses are those of the slots whose bit is set.
* **`Answered`** — what each call answers and what it does to the live addresses.
* **`pool_sound`** — both hold in every run. -/

namespace Memkit

variable {w : ℕ} {V : Type*}

namespace ObjPool

/-- The slots on the free stack, from the bottom. -/
def freeSlots (p : ObjPool w V) : List ℕ :=
  (List.range p.freeCount.toNat).map fun k => (p.freeStack k).toNat

/-- The pool after slot `i` is taken off the stack. -/
def taken (p : ObjPool w V) (i : ℕ) : ObjPool w V :=
  { p with
    freeCount := p.freeCount - 1
    usedBits := ByteBits.set p.usedBits i
    usedCount := p.usedCount + 1 }

/-- The pool after slot `i` is put on the stack. -/
def returned (p : ObjPool w V) (i : ℕ) : ObjPool w V :=
  { p with
    usedBits := ByteBits.clear p.usedBits i
    freeStack := Function.update p.freeStack p.freeCount.toNat (BitVec.ofNat 32 i)
    freeCount := p.freeCount + 1
    usedCount := p.usedCount - 1 }

/-! ## Addresses of slots -/

section Addresses

variable {cfg : ObjPoolConfig w V} {elem : BitVec w} {i j : ℕ}

/-- The address of a slot does not wrap. -/
theorem toNat_elemAt (hi : i < cfg.capacity.toNat) :
    (elemAt cfg i).toNat = cfg.storage.toNat + i * cfg.elemSize.toNat := by
  have hfits := cfg.storage_fits
  have hsize := cfg.elemSize_pos
  have hcapacity := cfg.capacity.isLt
  have hend : (i + 1) * cfg.elemSize.toNat ≤ cfg.capacity.toNat * cfg.elemSize.toNat :=
    Nat.mul_le_mul_right _ hi
  rw [Nat.succ_mul] at hend
  rw [elemAt, BitVec.toNat_add, BitVec.toNat_mul, BitVec.toNat_ofNat,
    Nat.mod_eq_of_lt (show i < 2 ^ w by omega),
    Nat.mod_eq_of_lt (show i * cfg.elemSize.toNat < 2 ^ w by omega)]
  exact Nat.mod_eq_of_lt (by omega)

/-- `index` finds the slot at its own address. -/
theorem indexOf_elemAt (hi : i < cfg.capacity.toNat) : indexOf cfg (elemAt cfg i) = (.ok, i) := by
  have haddr := toNat_elemAt hi
  have hnull : elemAt cfg i ≠ 0 := by
    intro h0
    have hstorage : cfg.storage.toNat = 0 := by
      have hzero : (elemAt cfg i).toNat = 0 := by rw [h0]; exact BitVec.toNat_zero
      omega
    exact cfg.storage_ne (BitVec.eq_of_toNat_eq (by simpa using hstorage))
  have hbelow : cfg.storage ≤ elemAt cfg i := by
    rw [BitVec.le_def]
    omega
  have hoffset : (elemAt cfg i - cfg.storage).toNat = i * cfg.elemSize.toNat := by
    rw [BitVec.toNat_sub_of_le hbelow]
    omega
  have hrem : (elemAt cfg i - cfg.storage) % cfg.elemSize = 0 := by
    apply BitVec.eq_of_toNat_eq
    rw [BitVec.toNat_umod, hoffset, Nat.mul_mod_left]
    exact BitVec.toNat_zero.symm
  have hquot : ((elemAt cfg i - cfg.storage) / cfg.elemSize).toNat = i := by
    rw [BitVec.toNat_udiv, hoffset, Nat.mul_div_cancel _ cfg.elemSize_pos]
  have hin : ¬ cfg.capacity ≤ (elemAt cfg i - cfg.storage) / cfg.elemSize := by
    rw [BitVec.le_def, hquot]
    omega
  rw [indexOf, if_neg hnull, if_neg (BitVec.not_lt.mpr hbelow), if_neg (not_not.mpr hrem),
    if_neg hin, hquot]

/-- **`index`** accepts the addresses of slots only. -/
theorem elem_eq_of_indexOf (h : indexOf cfg elem = (.ok, i)) :
    i < cfg.capacity.toNat ∧ elem = elemAt cfg i := by
  unfold indexOf at h
  by_cases hnull : elem = 0
  · rw [if_pos hnull] at h
    cases h
  by_cases hbelow : elem < cfg.storage
  · rw [if_neg hnull, if_pos hbelow] at h
    cases h
  rw [if_neg hnull, if_neg hbelow] at h
  by_cases hrem : (elem - cfg.storage) % cfg.elemSize = 0
  swap
  · rw [if_pos hrem] at h
    cases h
  by_cases hin : cfg.capacity ≤ (elem - cfg.storage) / cfg.elemSize
  · rw [if_neg (not_not.mpr hrem), if_pos hin] at h
    cases h
  rw [if_neg (not_not.mpr hrem), if_neg hin] at h
  have hquot : (elem - cfg.storage).toNat / cfg.elemSize.toNat = i := by
    rw [← BitVec.toNat_udiv]
    exact (Prod.mk.inj h).2
  have hlt : i < cfg.capacity.toNat := by
    rw [BitVec.le_def, BitVec.toNat_udiv, hquot] at hin
    omega
  refine ⟨hlt, BitVec.eq_of_toNat_eq ?_⟩
  -- the offset is a multiple of the element size
  have hdvd : (elem - cfg.storage).toNat % cfg.elemSize.toNat = 0 := by
    rw [← BitVec.toNat_umod, hrem]
    exact BitVec.toNat_zero
  have hoffset : (elem - cfg.storage).toNat = i * cfg.elemSize.toNat := by
    rw [← hquot]
    exact (Nat.div_mul_cancel (Nat.dvd_of_mod_eq_zero hdvd)).symm
  rw [BitVec.not_lt] at hbelow
  rw [BitVec.toNat_sub_of_le hbelow] at hoffset
  rw [BitVec.le_def] at hbelow
  rw [toNat_elemAt hlt]
  omega

/-- Different slots have different addresses. -/
theorem elemAt_inj (hi : i < cfg.capacity.toNat) (hj : j < cfg.capacity.toNat)
    (h : elemAt cfg i = elemAt cfg j) : i = j := by
  have hindex := indexOf_elemAt hi
  rw [h, indexOf_elemAt hj] at hindex
  exact (Prod.mk.inj hindex).2.symm

end Addresses

/-! ## The two records -/

/-- The free stack, the bitmap and the live addresses agree. -/
structure Booked (cfg : ObjPoolConfig w V) (bits : ℕ → BitVec 8) (freeList : List ℕ)
    (live : List (BitVec w)) : Prop where
  free_nodup : freeList.Nodup
  mem_free : ∀ i, i ∈ freeList ↔ i < cfg.capacity.toNat ∧ ByteBits.test bits i = false
  live_nodup : live.Nodup
  mem_live : ∀ elem, elem ∈ live ↔
    ∃ i < cfg.capacity.toNat, ByteBits.test bits i = true ∧ elem = elemAt cfg i
  count : live.length + freeList.length = cfg.capacity.toNat

section Booked

variable {cfg : ObjPoolConfig w V} {bits : ℕ → BitVec 8} {freeList : List ℕ}
  {live : List (BitVec w)} {elem : BitVec w} {i : ℕ}

/-- A slot is live if its bit is set. -/
theorem Booked.elemAt_mem (h : Booked cfg bits freeList live) (hi : i < cfg.capacity.toNat) :
    elemAt cfg i ∈ live ↔ ByteBits.test bits i = true := by
  rw [h.mem_live]
  constructor
  · rintro ⟨j, hj, hbit, heq⟩
    rwa [elemAt_inj hi hj heq]
  · intro hbit
    exact ⟨i, hi, hbit, rfl⟩

/-- **Taking** the slot on top of the stack. -/
theorem Booked.take (h : Booked cfg bits (freeList ++ [i]) live) :
    i < cfg.capacity.toNat ∧ elemAt cfg i ∉ live ∧
      Booked cfg (ByteBits.set bits i) freeList (elemAt cfg i :: live) := by
  obtain ⟨hi, hbit⟩ := (h.mem_free i).mp (by simp)
  have hnot : elemAt cfg i ∉ live := by
    rw [h.elemAt_mem hi, hbit]
    exact Bool.false_ne_true
  obtain ⟨hfree, -, hdisj⟩ := List.nodup_append.mp h.free_nodup
  have hout : i ∉ freeList := fun hmem => hdisj i hmem i (List.mem_singleton_self i) rfl
  refine ⟨hi, hnot, hfree, ?_, List.nodup_cons.mpr ⟨hnot, h.live_nodup⟩, ?_, ?_⟩
  · intro j
    have hmem := h.mem_free j
    rw [List.mem_append, List.mem_singleton] at hmem
    rw [ByteBits.test_set]
    by_cases hji : j = i
    · subst hji
      simp [hout]
    · simpa [hji] using hmem
  · intro elem
    rw [List.mem_cons, h.mem_live]
    constructor
    · rintro (rfl | ⟨j, hj, hjbit, rfl⟩)
      · exact ⟨i, hi, by simp [ByteBits.test_set], rfl⟩
      · exact ⟨j, hj, by simp [ByteBits.test_set, hjbit], rfl⟩
    · rintro ⟨j, hj, hjbit, rfl⟩
      rw [ByteBits.test_set, Bool.or_eq_true, decide_eq_true_eq] at hjbit
      rcases hjbit with rfl | hjbit
      · exact .inl rfl
      · exact .inr ⟨j, hj, hjbit, rfl⟩
  · have hcount := h.count
    rw [List.length_append, List.length_singleton] at hcount
    rw [List.length_cons]
    omega

/-- **Putting back** a live slot. -/
theorem Booked.putBack (h : Booked cfg bits freeList live) (hi : i < cfg.capacity.toNat)
    (hbit : ByteBits.test bits i = true) :
    Booked cfg (ByteBits.clear bits i) (freeList ++ [i]) (live.erase (elemAt cfg i)) := by
  have hmem : elemAt cfg i ∈ live := (h.elemAt_mem hi).mpr hbit
  have hout : i ∉ freeList := by
    rw [h.mem_free, hbit]
    simp
  refine ⟨?_, ?_, h.live_nodup.erase _, ?_, ?_⟩
  · rw [← List.concat_eq_append]
    exact h.free_nodup.concat hout
  · intro j
    rw [List.mem_append, List.mem_singleton, h.mem_free, ByteBits.test_clear]
    by_cases hji : j = i
    · subst hji
      simp [hi]
    · simp [hji]
  · intro elem
    rw [h.live_nodup.mem_erase_iff, h.mem_live]
    constructor
    · rintro ⟨hne, j, hj, hjbit, rfl⟩
      have hji : j ≠ i := by
        rintro rfl
        exact hne rfl
      exact ⟨j, hj, by simp [ByteBits.test_clear, hji, hjbit], rfl⟩
    · rintro ⟨j, hj, hjbit, rfl⟩
      rw [ByteBits.test_clear, Bool.and_eq_true, Bool.not_eq_true', decide_eq_false_iff_not]
        at hjbit
      exact ⟨fun heq => hjbit.1 (elemAt_inj hj hi heq), j, hj, hjbit.2, rfl⟩
  · have hcount := h.count
    have hpos := List.length_pos_of_mem hmem
    rw [List.length_append, List.length_singleton, List.length_erase_of_mem hmem]
    omega

end Booked

/-! ## What the operations do to the two records -/

section Operations

variable {cfg : ObjPoolConfig w V} {p : ObjPool w V} {live : List (BitVec w)} {elem : BitVec w}
  {i n : ℕ}

/-- `contains` finds the live addresses. -/
theorem contains_iff (h : Booked cfg p.usedBits p.freeSlots live) (elem : BitVec w) :
    contains cfg p elem = true ↔ elem ∈ live := by
  rw [h.mem_live]
  rcases hindex : indexOf cfg elem with ⟨st, i⟩
  unfold contains
  rw [hindex]
  constructor
  · intro hcontains
    by_cases hst : st ≠ .ok
    · simp [hst] at hcontains
    · rw [not_not] at hst
      subst hst
      obtain ⟨hi, rfl⟩ := elem_eq_of_indexOf hindex
      exact ⟨i, hi, by simpa using hcontains, rfl⟩
  · rintro ⟨j, hj, hbit, rfl⟩
    rw [indexOf_elemAt hj] at hindex
    cases hindex
    simpa using hbit

/-- Taking a slot off a stack that is not empty. -/
theorem toNat_freeCount_taken (hn : p.freeCount.toNat = n + 1) (i : ℕ) :
    (p.taken i).freeCount.toNat = n := by
  have hne : p.freeCount ≠ 0 := by
    intro h0
    rw [h0] at hn
    exact absurd hn (by simp)
  have hpred := WrapCounter.toNat_pred hne
  show (p.freeCount - 1).toNat = n
  omega

/-- The top of the free stack. -/
theorem freeSlots_eq_concat (hn : p.freeCount.toNat = n + 1) (i : ℕ) :
    p.freeSlots = (p.taken i).freeSlots ++ [(p.freeStack n).toNat] := by
  rw [freeSlots, hn, List.range_succ, List.map_append, List.map_singleton, freeSlots,
    toNat_freeCount_taken hn]
  rfl

/-- Pushing a slot to the free stack. -/
theorem map_range_push (stack : ℕ → BitVec 32) (hi : i < 2 ^ 32) :
    (List.range (n + 1)).map
        (fun k => (Function.update stack n (BitVec.ofNat 32 i) k).toNat) =
      (List.range n).map (fun k => (stack k).toNat) ++ [i] := by
  rw [List.range_succ, List.map_append, List.map_singleton, Function.update_self,
    BitVec.toNat_ofNat, Nat.mod_eq_of_lt hi]
  congr 1
  apply List.map_congr_left
  intro k hk
  rw [Function.update_of_ne (List.mem_range.mp hk).ne]

/-- **`alloc`** takes the slot on top of the stack, unless the stack is empty. -/
theorem alloc_cases (h : Booked cfg p.usedBits p.freeSlots live) :
    (p.freeCount = 0 ∧ alloc cfg p true = ((.full, none), p)) ∨
      ∃ n i, p.freeCount.toNat = n + 1 ∧ (p.freeStack n).toNat = i ∧ i < cfg.capacity.toNat ∧
        alloc cfg p true = ((.ok, some (elemAt cfg i)), p.taken i) := by
  by_cases hempty : p.freeCount = 0
  · exact .inl ⟨hempty, by rw [alloc, if_neg Bool.true_eq_false_eq_False, if_pos hempty]⟩
  · right
    obtain ⟨n, hn⟩ : ∃ n, p.freeCount.toNat = n + 1 := by
      refine Nat.exists_eq_succ_of_ne_zero fun h0 => hempty ?_
      exact BitVec.eq_of_toNat_eq (by simpa using h0)
    have htop : (p.freeCount - 1).toNat = n := toNat_freeCount_taken hn 0
    rw [freeSlots_eq_concat hn 0] at h
    have hi := h.take.1
    refine ⟨n, _, hn, rfl, hi, ?_⟩
    unfold alloc
    rw [if_neg (by simp), if_neg hempty]
    simp only [htop]
    rw [if_neg (by omega)]
    rfl

/-- **`free`** refuses what is not a live address. -/
theorem free_of_not_mem (h : Booked cfg p.usedBits p.freeSlots live) (hmem : elem ∉ live) :
    ∃ st, st ≠ .ok ∧ free cfg p elem = (st, p) := by
  rw [← contains_iff h elem, Bool.not_eq_true] at hmem
  unfold contains at hmem
  unfold free
  by_cases hnull : elem = 0
  · exact ⟨.nullPtr, by decide, if_pos hnull⟩
  rw [if_neg hnull]
  rcases hindex : indexOf cfg elem with ⟨st, i⟩
  rw [hindex] at hmem
  by_cases hst : st ≠ .ok
  · exact ⟨st, hst, if_pos hst⟩
  · simp only [if_neg hst] at hmem ⊢
    exact ⟨.notFound, by decide, if_pos hmem⟩

/-- **`free`** of the address of a used slot puts the slot on the stack. -/
theorem free_elemAt (hi : i < cfg.capacity.toNat) (hbit : ByteBits.test p.usedBits i = true) :
    ∃ elems, free cfg p (elemAt cfg i) = (.ok, { p.returned i with elems := elems }) := by
  have hindex := indexOf_elemAt hi
  have hnull : elemAt cfg i ≠ 0 := by
    intro h0
    rw [h0, indexOf, if_pos rfl] at hindex
    cases hindex
  unfold free
  rw [if_neg hnull, hindex]
  by_cases hdestroy : cfg.needsDestroy = true
  · exact ⟨_, by simp only [hbit, hdestroy]; rfl⟩
  · exact ⟨p.elems, by simp only [hbit, hdestroy]; rfl⟩

/-! ## `reset_free_list` -/

/-- The number of bytes of the bitmap. -/
theorem toNat_usedBitsBytes (cfg : ObjPoolConfig w V) :
    (usedBitsBytes cfg.capacity).toNat = (cfg.capacity.toNat + 7) / 8 := by
  have hstack := cfg.stack_fits
  have hword : 2 ^ 16 ≤ 2 ^ w := Nat.pow_le_pow_right (by norm_num) cfg.word_ge
  have hseven : (7 : BitVec w).toNat = 7 := by
    show 7 % 2 ^ w = 7
    exact Nat.mod_eq_of_lt (by omega)
  have height : (8 : BitVec w).toNat = 8 := by
    show 8 % 2 ^ w = 8
    exact Nat.mod_eq_of_lt (by omega)
  rw [usedBitsBytes, BitVec.toNat_udiv, BitVec.toNat_add, hseven, height,
    Nat.mod_eq_of_lt (by omega)]

/-- The stack after the first rounds of the loop. -/
theorem foldl_pushInitial (stack : ℕ → BitVec 32) (n k : ℕ) :
    (List.range n).foldl (pushInitial cfg) stack k =
      if k < n then (cfg.capacity - 1 - BitVec.ofNat w k).setWidth 32 else stack k := by
  induction n with
  | zero => rw [if_neg (Nat.not_lt_zero k), List.range_zero, List.foldl_nil]
  | succ n ih =>
    rw [List.range_succ, List.foldl_append, List.foldl_cons, List.foldl_nil, pushInitial]
    by_cases hk : k = n
    · rw [hk, Function.update_self, if_pos (Nat.lt_succ_self n)]
    · rw [Function.update_of_ne hk, ih]
      simp only [show k < n + 1 ↔ k < n by omega]

/-- An entry of the fresh stack. -/
theorem toNat_initial (hi : i < cfg.capacity.toNat) :
    ((cfg.capacity - 1 - BitVec.ofNat w i).setWidth 32).toNat = cfg.capacity.toNat - 1 - i := by
  have hlt := cfg.capacity.isLt
  have h32 := cfg.capacity_lt
  have hne : cfg.capacity ≠ 0 := by
    intro h0
    rw [h0] at hi
    exact absurd hi (by simp)
  have hpred := WrapCounter.toNat_pred hne
  have hle : BitVec.ofNat w i ≤ cfg.capacity - 1 := by
    rw [BitVec.le_def, BitVec.toNat_ofNat, Nat.mod_eq_of_lt (by omega)]
    omega
  rw [BitVec.toNat_setWidth, BitVec.toNat_sub_of_le hle, BitVec.toNat_ofNat,
    Nat.mod_eq_of_lt (show i < 2 ^ w by omega), Nat.mod_eq_of_lt (by omega)]
  omega

/-- The fresh stack holds every slot, slot 0 on top. -/
theorem freeSlots_resetFreeList (p : ObjPool w V) :
    (resetFreeList cfg p).freeSlots = (List.range cfg.capacity.toNat).reverse := by
  have hlen : (resetFreeList cfg p).freeSlots.length = cfg.capacity.toNat := by
    rw [freeSlots, List.length_map, List.length_range]
    rfl
  apply List.ext_getElem
  · rw [hlen, List.length_reverse, List.length_range]
  · intro i hi hi'
    rw [hlen] at hi
    rw [List.getElem_reverse, List.getElem_range, List.length_range]
    simp only [freeSlots, List.getElem_map, List.getElem_range]
    show ((List.range cfg.capacity.toNat).foldl (pushInitial cfg) p.freeStack i).toNat = _
    rw [foldl_pushInitial, if_pos hi, toNat_initial hi]

/-- **`reset_free_list`** makes every slot free. -/
theorem booked_resetFreeList (p : ObjPool w V) :
    Booked cfg (resetFreeList cfg p).usedBits (resetFreeList cfg p).freeSlots [] := by
  have hclear : ∀ i < cfg.capacity.toNat,
      ByteBits.test (resetFreeList cfg p).usedBits i = false := by
    intro i hi
    have hbyte : i / 8 < (usedBitsBytes cfg.capacity).toNat := by
      rw [toNat_usedBitsBytes]
      omega
    rw [ByteBits.test_eq]
    show BitVec.getLsbD (if i / 8 < (usedBitsBytes cfg.capacity).toNat then 0
      else p.usedBits (i / 8)) (i % 8) = false
    rw [if_pos hbyte]
    exact BitVec.getLsbD_zero
  rw [freeSlots_resetFreeList]
  refine ⟨List.nodup_reverse.mpr List.nodup_range, ?_, List.nodup_nil, ?_, by simp⟩
  · intro i
    rw [List.mem_reverse, List.mem_range]
    exact ⟨fun hi => ⟨hi, hclear i hi⟩, fun h => h.1⟩
  · intro elem
    constructor
    · exact fun hmem => absurd hmem List.not_mem_nil
    · rintro ⟨i, hi, hbit, -⟩
      rw [hclear i hi] at hbit
      exact absurd hbit Bool.false_ne_true

/-! ## `for_each` -/

/-- The addresses visited. -/
theorem map_fst_visits (bits : ℕ → BitVec 8) (is : List ℕ) (k : ℕ) :
    (visits cfg bits is k).map Prod.fst =
      (is.filter fun i => ByteBits.test bits i).map (elemAt cfg) := by
  induction is generalizing k with
  | nil => rfl
  | cons i is ih =>
    by_cases hbit : ByteBits.test bits i = true
    · rw [visits, if_neg (by simp [hbit]), List.map_cons, ih, List.filter_cons_of_pos hbit,
        List.map_cons]
    · rw [visits, if_pos (Bool.eq_false_of_not_eq_true hbit), ih, List.filter_cons_of_neg hbit]

/-- The visit indices count up. -/
theorem map_snd_visits (bits : ℕ → BitVec 8) (is : List ℕ) (k : ℕ) :
    (visits cfg bits is k).map Prod.snd = List.range' k (visits cfg bits is k).length := by
  induction is generalizing k with
  | nil => rfl
  | cons i is ih =>
    by_cases hbit : ByteBits.test bits i = false
    · rw [visits, if_pos hbit, ih]
    · rw [visits, if_neg hbit, List.map_cons, ih, List.length_cons, List.range'_succ]

/-- **`for_each`** visits the live addresses once each. -/
theorem forEach_perm (h : Booked cfg p.usedBits p.freeSlots live) :
    ((forEach cfg p).map Prod.fst).Perm live := by
  rw [forEach, map_fst_visits]
  refine (List.perm_ext_iff_of_nodup ?_ h.live_nodup).mpr fun elem => ?_
  · refine List.Nodup.map_on ?_ (List.nodup_range.filter _)
    intro i hi j hj heq
    rw [List.mem_filter, List.mem_range] at hi hj
    exact elemAt_inj hi.1 hj.1 heq
  · simp only [h.mem_live, List.mem_map, List.mem_filter, List.mem_range]
    constructor
    · rintro ⟨i, ⟨hi, hbit⟩, rfl⟩
      exact ⟨i, hi, hbit, rfl⟩
    · rintro ⟨i, hi, hbit, rfl⟩
      exact ⟨i, ⟨hi, hbit⟩, rfl⟩

/-- The visit indices are those of the live addresses. -/
theorem forEach_indices (h : Booked cfg p.usedBits p.freeSlots live) :
    (forEach cfg p).map Prod.snd = List.range live.length := by
  have hlen : (forEach cfg p).length = live.length := by
    rw [← (forEach_perm h).length_eq, List.length_map]
  rw [forEach, map_snd_visits, List.range_eq_range' (n := live.length), ← hlen]
  rfl

end Operations

end ObjPool

namespace PoolSession

open ObjPool

variable {cfg : ObjPoolConfig w V} {s : PoolSession w V}

/-- The two records agree with each other, with the counters and with the live addresses. -/
structure Sound (cfg : ObjPoolConfig w V) (s : PoolSession w V) : Prop where
  booked : Booked cfg s.pool.usedBits s.pool.freeSlots s.live
  used : s.pool.usedCount.toNat = s.live.length

/-- The address handed out is new. -/
def HandsOut (s : PoolSession w V) (elem : Option (BitVec w)) (t : PoolSession w V) : Prop :=
  ∃ addr, elem = some addr ∧ addr ∉ s.live ∧ t.live = addr :: s.live

/-- What each call answers. An allocation is refused if all slots are live, and only then; a copy
that fails hands out nothing; what is not a live address is not freed. -/
def Answered (cfg : ObjPoolConfig w V) (s : PoolSession w V) :
    Call w V → Reply w × PoolSession w V → Prop
  | .alloc out, (.alloc st elem, t) =>
    if out = false then st = .nullPtr ∧ elem = none ∧ t = s
    else if s.live.length = cfg.capacity.toNat then st = .full ∧ elem = none ∧ t = s
    else st = .ok ∧ s.HandsOut elem t
  | .allocCopy src, (.alloc st elem, t) =>
    if s.live.length = cfg.capacity.toNat then st = .full ∧ elem = none ∧ t = s
    else ∃ dst, st = (cfg.policy.copyConstruct s.pool.copies dst src).1 ∧
      if st = .ok then s.HandsOut elem t
      else elem = none ∧ t.live = s.live ∧ t.pool.freeSlots = s.pool.freeSlots
  | .free elem, (.free st, t) =>
    if elem ∈ s.live then st = .ok ∧ t.live = s.live.erase elem else st ≠ .ok ∧ t = s
  | .clear, (.cleared, t) => t.live = []
  | .forEach, (.visited visits, t) =>
    (visits.map Prod.fst).Perm s.live ∧ visits.map Prod.snd = List.range s.live.length ∧ t = s
  | _, _ => False

/-- The pool after `init`, with no live addresses. -/
def start (cfg : ObjPoolConfig w V) (freeStack : ℕ → BitVec 32) (usedBits : ℕ → BitVec 8)
    (elems : ℕ → V) : PoolSession w V :=
  ⟨init cfg freeStack usedBits elems, []⟩

theorem sound_start (cfg : ObjPoolConfig w V) (freeStack : ℕ → BitVec 32)
    (usedBits : ℕ → BitVec 8) (elems : ℕ → V) : Sound cfg (start cfg freeStack usedBits elems) where
  booked := booked_resetFreeList _
  used := BitVec.toNat_zero

/-- The free stack is empty if all slots are live. -/
theorem Sound.freeCount_eq_zero (h : Sound cfg s) :
    s.pool.freeCount = 0 ↔ s.live.length = cfg.capacity.toNat := by
  have hcount := h.booked.count
  rw [freeSlots, List.length_map, List.length_range] at hcount
  rw [← BitVec.toNat_inj, show (0 : BitVec w).toNat = 0 from BitVec.toNat_zero]
  omega

/-- The elements and the copies made play no part. -/
theorem Sound.frame {p : ObjPool w V} {live : List (BitVec w)} (h : Sound cfg ⟨p, live⟩)
    (elems : ℕ → V) (copies : ℕ) :
    Sound cfg ⟨{ p with elems := elems, copies := copies }, live⟩ :=
  ⟨h.booked, h.used⟩

/-- Taking the slot on top of the stack. -/
theorem Sound.take (h : Sound cfg s) {n i : ℕ} (hn : s.pool.freeCount.toNat = n + 1)
    (hi : (s.pool.freeStack n).toNat = i) :
    s.live.length ≠ cfg.capacity.toNat ∧ elemAt cfg i ∉ s.live ∧
      Sound cfg ⟨s.pool.taken i, elemAt cfg i :: s.live⟩ := by
  have hbooked := h.booked
  rw [freeSlots_eq_concat hn i, hi] at hbooked
  obtain ⟨-, hnot, htaken⟩ := hbooked.take
  have hroom : s.pool.usedCount.toNat < cfg.capacity.toNat := by
    have hcount := htaken.count
    rw [List.length_cons] at hcount
    rw [h.used]
    omega
  refine ⟨(h.used ▸ hroom).ne, hnot, htaken, ?_⟩
  · show (s.pool.usedCount + 1).toNat = (elemAt cfg i :: s.live).length
    rw [WrapCounter.toNat_succ hroom, h.used, List.length_cons]

/-- Putting a slot on top of the stack. -/
theorem Sound.putBack (h : Sound cfg s) {i : ℕ} (hi : i < cfg.capacity.toNat)
    (hbit : ByteBits.test s.pool.usedBits i = true) :
    (s.pool.returned i).freeSlots = s.pool.freeSlots ++ [i] ∧
      Sound cfg ⟨s.pool.returned i, s.live.erase (elemAt cfg i)⟩ := by
  have h32 := cfg.capacity_lt
  have hmem : elemAt cfg i ∈ s.live := (h.booked.elemAt_mem hi).mpr hbit
  have hpos := List.length_pos_of_mem hmem
  have hroom : s.pool.freeCount.toNat < cfg.capacity.toNat := by
    have hcount := h.booked.count
    rw [freeSlots, List.length_map, List.length_range] at hcount
    omega
  have hslots : (s.pool.returned i).freeSlots = s.pool.freeSlots ++ [i] := by
    show (List.range (s.pool.freeCount + 1).toNat).map _ = _
    rw [WrapCounter.toNat_succ hroom]
    exact map_range_push _ (by omega)
  refine ⟨hslots, ?_, ?_⟩
  · rw [hslots]
    exact h.booked.putBack hi hbit
  · have hused := h.used
    have hne : s.pool.usedCount ≠ 0 := by
      intro h0
      rw [h0, show (0 : BitVec w).toNat = 0 from BitVec.toNat_zero] at hused
      omega
    have hpred := WrapCounter.toNat_pred hne
    show (s.pool.usedCount - 1).toNat = (s.live.erase (elemAt cfg i)).length
    rw [List.length_erase_of_mem hmem]
    omega

/-! ## One call -/

/-- One `alloc`. -/
theorem Sound.alloc (h : Sound cfg s) (out : Bool) :
    Sound cfg (step cfg s (.alloc out)).2 ∧
      Answered cfg s (.alloc out) (step cfg s (.alloc out)) := by
  cases out with
  | false => exact ⟨h, rfl, rfl, rfl⟩
  | true =>
    rcases alloc_cases h.booked with ⟨hempty, halloc⟩ | ⟨n, i, hn, hi, -, halloc⟩
    · have hstep : step cfg s (.alloc true) = (.alloc .full none, s) := by
        simp only [step, halloc]
        rfl
      rw [hstep]
      refine ⟨h, ?_⟩
      rw [Answered, if_neg (by simp), if_pos (h.freeCount_eq_zero.mp hempty)]
      exact ⟨rfl, rfl, rfl⟩
    · obtain ⟨hroom, hnot, hsound⟩ := h.take hn hi
      have hstep : step cfg s (.alloc true) =
          (.alloc .ok (some (elemAt cfg i)), ⟨s.pool.taken i, elemAt cfg i :: s.live⟩) := by
        simp only [step, halloc]
        rfl
      rw [hstep]
      refine ⟨hsound, ?_⟩
      rw [Answered, if_neg (by simp), if_neg hroom]
      exact ⟨rfl, _, rfl, hnot, rfl⟩

/-- One `alloc_copy`. -/
theorem Sound.allocCopy (h : Sound cfg s) (src : V) :
    Sound cfg (step cfg s (.allocCopy src)).2 ∧
      Answered cfg s (.allocCopy src) (step cfg s (.allocCopy src)) := by
  rcases alloc_cases h.booked with ⟨hempty, halloc⟩ | ⟨n, i, hn, hi, hlt, halloc⟩
  · have hstep : step cfg s (.allocCopy src) = (.alloc .full none, s) := by
      simp only [step, ObjPool.allocCopy, halloc]
      rfl
    rw [hstep]
    refine ⟨h, ?_⟩
    rw [Answered, if_pos (h.freeCount_eq_zero.mp hempty)]
    exact ⟨rfl, rfl, rfl⟩
  obtain ⟨hroom, hnot, hsound⟩ := h.take hn hi
  rcases hcopy : cfg.policy.copyConstruct s.pool.copies (s.pool.elems i) src with ⟨st, value⟩
  -- the pool with the slot taken and the copy made
  have hsound' := hsound.frame (Function.update s.pool.elems i value) (s.pool.copies + 1)
  generalize hp : ({ s.pool.taken i with
    elems := Function.update s.pool.elems i value
    copies := s.pool.copies + 1 } : ObjPool w V) = p at hsound'
  have hcopyTo : copyTo cfg (s.pool.taken i) (elemAt cfg i) src = (st, p) := by
    have hcopy' : cfg.policy.copyConstruct (s.pool.taken i).copies ((s.pool.taken i).elems i) src =
      (st, value) := hcopy
    rw [← hp]
    simp only [copyTo, indexOf_elemAt hlt, hcopy']
    rfl
  by_cases hst : st = .ok
  · have hstep : step cfg s (.allocCopy src) =
        (.alloc .ok (some (elemAt cfg i)), ⟨p, elemAt cfg i :: s.live⟩) := by
      simp only [step, ObjPool.allocCopy, halloc, hcopyTo, hst]
      rfl
    rw [hstep]
    refine ⟨hsound', ?_⟩
    rw [Answered, if_neg hroom]
    refine ⟨s.pool.elems i, ?_, ?_⟩
    · rw [hcopy, hst]
    · rw [if_pos rfl]
      exact ⟨_, rfl, hnot, rfl⟩
  · -- the slot goes back on the stack, above the same slots
    have hbit : ByteBits.test p.usedBits i = true := by
      rw [← hp]
      show ByteBits.test (ByteBits.set s.pool.usedBits i) i = true
      simp [ByteBits.test_set]
    obtain ⟨elems, hfree⟩ := free_elemAt hlt hbit
    obtain ⟨hslots, hback⟩ := hsound'.putBack hlt hbit
    rw [List.erase_cons_head] at hback
    have hstep : step cfg s (.allocCopy src) =
        (.alloc st none, ⟨{ p.returned i with elems := elems }, s.live⟩) := by
      simp only [step, ObjPool.allocCopy, halloc, hcopyTo, hst, ne_eq, not_false_eq_true, if_true,
        hfree]
      rfl
    rw [hstep]
    refine ⟨hback.frame elems (p.returned i).copies, ?_⟩
    rw [Answered, if_neg hroom]
    refine ⟨s.pool.elems i, ?_, ?_⟩
    · rw [hcopy]
    · rw [if_neg hst]
      refine ⟨rfl, rfl, ?_⟩
      show (p.returned i).freeSlots = s.pool.freeSlots
      rw [hslots, freeSlots_eq_concat hn i, hi, ← hp]
      rfl

/-- One `free`. -/
theorem Sound.free (h : Sound cfg s) (elem : BitVec w) :
    Sound cfg (step cfg s (.free elem)).2 ∧
      Answered cfg s (.free elem) (step cfg s (.free elem)) := by
  by_cases hmem : elem ∈ s.live
  · obtain ⟨i, hi, hbit, rfl⟩ := (h.booked.mem_live elem).mp hmem
    obtain ⟨elems, hfree⟩ := free_elemAt hi hbit
    have hstep : step cfg s (.free (elemAt cfg i)) =
        (.free .ok, ⟨{ s.pool.returned i with elems := elems },
          s.live.erase (elemAt cfg i)⟩) := by
      simp only [step, hfree, if_true]
    rw [hstep]
    refine ⟨(h.putBack hi hbit).2.frame elems _, ?_⟩
    rw [Answered, if_pos hmem]
    exact ⟨rfl, rfl⟩
  · obtain ⟨st, hst, hfree⟩ := free_of_not_mem h.booked hmem
    have hstep : step cfg s (.free elem) = (.free st, s) := by
      simp only [step, hfree, if_neg hst]
    rw [hstep]
    refine ⟨h, ?_⟩
    rw [Answered, if_neg hmem]
    exact ⟨hst, rfl⟩

/-- One `clear`. -/
theorem Sound.clear (h : Sound cfg s) : Sound cfg ⟨s.pool.clear cfg, []⟩ := by
  unfold ObjPool.clear
  by_cases hempty : s.pool.usedCount = 0
  · have hused := h.used
    rw [hempty, show (0 : BitVec w).toNat = 0 from BitVec.toNat_zero] at hused
    have hnil : s.live = [] := List.length_eq_zero_iff.mp hused.symm
    rw [if_pos hempty, ← hnil]
    exact h
  · rw [if_neg hempty]
    exact ⟨booked_resetFreeList _, BitVec.toNat_zero⟩

/-- **One call** keeps the records in agreement and is answered right. -/
theorem Sound.step (h : Sound cfg s) (call : Call w V) :
    Sound cfg (step cfg s call).2 ∧ Answered cfg s call (step cfg s call) := by
  cases call with
  | alloc out => exact h.alloc out
  | allocCopy src => exact h.allocCopy src
  | free elem => exact h.free elem
  | clear => exact ⟨h.clear, rfl⟩
  | forEach => exact ⟨h, forEach_perm h.booked, forEach_indices h.booked, rfl⟩

/-- **The pool is sound**: after any calls the free stack and the bitmap agree, and the next call is
answered right. -/
theorem pool_sound (cfg : ObjPoolConfig w V) (freeStack : ℕ → BitVec 32) (usedBits : ℕ → BitVec 8)
    (elems : ℕ → V) (calls : List (Call w V)) (call : Call w V) :
    Sound cfg (Mealy.final (PoolSession.step cfg) (start cfg freeStack usedBits elems) calls) ∧
      Answered cfg (Mealy.final (PoolSession.step cfg) (start cfg freeStack usedBits elems) calls)
        call
        (PoolSession.step cfg
          (Mealy.final (PoolSession.step cfg) (start cfg freeStack usedBits elems) calls) call) := by
  have hsound :
      Sound cfg (Mealy.final (PoolSession.step cfg) (start cfg freeStack usedBits elems) calls) :=
    (Mealy.everyCall_true (start cfg freeStack usedBits elems) calls).final_invariant (Sound cfg)
      (fun _ call h _ => (h.step call).1) (sound_start cfg freeStack usedBits elems)
  exact ⟨hsound, (hsound.step call).2⟩

/-- Three slots of six bytes at address 16. -/
def triplePool : ObjPoolConfig 16 ℕ where
  policy := .bytewise ℕ
  needsDestroy := false
  elemSize := 6
  capacity := 3
  storage := 16
  word_ge := le_rfl
  elemSize_pos := by decide
  storage_ne := by decide
  capacity_pos := by decide
  capacity_lt := by decide
  storage_fits := by decide
  stack_fits := by decide

/-- An interior pointer and a second `free` are refused. -/
example :
    Mealy.outputs (PoolSession.step triplePool) (start triplePool (fun _ => 0) (fun _ => 255) id)
        [.alloc true, .allocCopy 7, .alloc true, .alloc true, .free 18, .free 22, .free 22,
          .forEach] =
      [.alloc .ok (some 16), .alloc .ok (some 22), .alloc .ok (some 28), .alloc .full none,
        .free .notFound, .free .ok, .free .notFound, .visited [(16, 0), (28, 1)]] := by
  decide

end PoolSession

end Memkit
