import Memkit.Core.ElementPolicy
import Memkit.Hashing.Chaining
import Mathlib.Data.BitVec
import Mathlib.Data.Fintype.Pigeonhole
import Mathlib.Data.Fintype.BigOperators
import Mathlib.Logic.Relation

/-! # The default hash functors

`detail/hash_policy.hpp`: what the containers hash and compare keys with if the user gives no functor.
A key type without a hash of its own is hashed by the bytes of the object, but compared by its own
equality.

* **`fnv1aBytes`** — the hash of a string of bytes. Each step is injective in the hash so far and in
  the byte, so strings that differ in one place have different hashes.
* **`KeyTraits`** — what the templates ask of a key type, with **`typeHash`** and **`typeEqual`**.
* **`Coherent`** — equal keys have equal hashes. -/

namespace Memkit

variable {w : ℕ} {K : Type*}

/-! ## The hash of a string of bytes -/

/-- One round of the loop of `fnv1a_bytes`. -/
def fnv1aStep (hash : BitVec w) (byte : BitVec 8) : BitVec w :=
  (hash ^^^ byte.setWidth w) * BitVec.ofNat w 16777619

/-- `fnv1a_bytes`. -/
def fnv1aBytes (w : ℕ) (bytes : List (BitVec 8)) : BitVec w :=
  bytes.foldl fnv1aStep (BitVec.ofNat w 2166136261)

/-- Two strings that differ in one place. -/
inductive DifferOnce {β : Type*} : List β → List β → Prop
  | head {a b : β} (hab : a ≠ b) (l : List β) : DifferOnce (a :: l) (b :: l)
  | tail {l l' : List β} (c : β) (h : DifferOnce l l') : DifferOnce (c :: l) (c :: l')

theorem DifferOnce.ne {β : Type*} {l l' : List β} (h : DifferOnce l l') : l ≠ l' := by
  induction h with
  | head hab l => exact fun heq => hab (List.cons.inj heq).1
  | tail c _ ih => exact fun heq => ih (List.cons.inj heq).2

/-- A changed place. -/
theorem differOnce_set {β : Type*} {l : List β} {i : ℕ} {b : β} (hi : i < l.length) (hb : b ≠ l[i]) :
    DifferOnce l (l.set i b) := by
  induction l generalizing i with
  | nil => exact absurd hi (Nat.not_lt_zero i)
  | cons a l ih =>
    cases i with
    | zero => exact .head (Ne.symm hb) l
    | succ i => exact .tail a (ih (Nat.lt_of_succ_lt_succ hi) hb)

/-- The prime is odd, so multiplying by it loses nothing. -/
theorem mul_prime_injective : Function.Injective fun h : BitVec w => h * BitVec.ofNat w 16777619 := by
  intro a b heq
  have hcoprime : Nat.Coprime (2 ^ w) 16777619 := by
    apply Nat.Coprime.pow_left
    decide
  have hmod : a.toNat * 16777619 ≡ b.toNat * 16777619 [MOD 2 ^ w] := by
    have hnat := congrArg BitVec.toNat heq
    simpa [BitVec.toNat_mul, BitVec.toNat_ofNat, Nat.ModEq] using hnat
  have hcancel := Nat.ModEq.cancel_right_of_coprime (by rwa [Nat.Coprime] at hcoprime) hmod
  apply BitVec.eq_of_toNat_eq
  rwa [Nat.ModEq, Nat.mod_eq_of_lt a.isLt, Nat.mod_eq_of_lt b.isLt] at hcancel

theorem fnv1aStep_injective_hash (byte : BitVec 8) :
    Function.Injective fun hash : BitVec w => fnv1aStep hash byte := by
  intro a b heq
  exact (BitVec.xor_left_inj _).mp (mul_prime_injective heq)

theorem fnv1aStep_injective_byte (hw : 8 ≤ w) (hash : BitVec w) :
    Function.Injective (fnv1aStep hash) := by
  intro a b heq
  have hwide := (BitVec.xor_right_inj _).mp (mul_prime_injective heq)
  apply BitVec.eq_of_toNat_eq
  have hnat := congrArg BitVec.toNat hwide
  rwa [BitVec.toNat_setWidth_of_le hw, BitVec.toNat_setWidth_of_le hw] at hnat

/-- Different hashes stay different over the same bytes. -/
theorem foldl_fnv1aStep_injective (bytes : List (BitVec 8)) :
    Function.Injective fun hash : BitVec w => bytes.foldl fnv1aStep hash := by
  induction bytes with
  | nil => exact Function.injective_id
  | cons byte bytes ih => exact ih.comp (fnv1aStep_injective_hash byte)

/-- **Strings that differ in one place have different hashes.** -/
theorem DifferOnce.fnv1aBytes_ne (hw : 8 ≤ w) {l l' : List (BitVec 8)} (h : DifferOnce l l') :
    fnv1aBytes w l ≠ fnv1aBytes w l' := by
  rw [fnv1aBytes, fnv1aBytes]
  generalize BitVec.ofNat w 2166136261 = hash
  induction h generalizing hash with
  | head hab l =>
    exact (foldl_fnv1aStep_injective l).ne ((fnv1aStep_injective_byte hw hash).ne hab)
  | tail c _ ih => exact ih (fnv1aStep hash c)

/-! ## The functors -/

/-- What the templates ask of a key type. -/
structure KeyTraits (w : ℕ) (K : Type*) where
  /-- `stl::hash<K>`, where it can be called. -/
  stlHash : Option (K → BitVec w)
  /-- `stl::equal_to<K>`, where it can be called. -/
  stlEqualTo : Option (K → K → Bool)
  /-- `a == b`, where the type has it. -/
  equality : Option (K → K → Bool)
  /-- `std::is_trivially_copyable_v<K>`. -/
  triviallyCopyable : Bool
  /-- `sizeof(K)`. -/
  size : ℕ
  /-- The object representation of a key, padding bytes included. -/
  bytes : K → List (BitVec 8)
  length_bytes : ∀ a, (bytes a).length = size

/-- `runtime_hash_key_policy`; a null function stands for the bytes. -/
def runtimeHashKeyPolicy (bytes : K → List (BitVec 8)) (hashFn : Option (K → BitVec w))
    (keyEqFn : Option (K → K → Bool)) : HashPolicy w K where
  hash := hashFn.getD fun key => fnv1aBytes w (bytes key)
  equal := keyEqFn.getD fun a b => bytes a == bytes b

namespace KeyTraits

/-- `type_hash`; `none` where it does not compile. -/
def typeHash (t : KeyTraits w K) : Option (K → BitVec w) :=
  match t.stlHash with
  | some hash => some hash
  | none => if t.triviallyCopyable then some fun key => fnv1aBytes w (t.bytes key) else none

/-- `type_equal`; `none` where it does not compile. -/
def typeEqual (t : KeyTraits w K) : Option (K → K → Bool) :=
  match t.stlEqualTo with
  | some equal => some equal
  | none =>
    match t.equality with
    | some equal => some equal
    | none => if t.triviallyCopyable then some fun a b => t.bytes a == t.bytes b else none

/-- What the default `HashMap` and `LruCache` pass to their cores through the trampolines. -/
def defaultPolicy (t : KeyTraits w K) : HashPolicy w K :=
  runtimeHashKeyPolicy t.bytes t.typeHash t.typeEqual

variable {t : KeyTraits w K} {equal : K → K → Bool}

/-- Equal keys have equal hashes. -/
def Coherent (t : KeyTraits w K) : Prop :=
  ∀ a b, t.defaultPolicy.equal a b = true → t.defaultPolicy.hash a = t.defaultPolicy.hash b

/-- The keys are hashed by their bytes and compared by an equality of their own. -/
structure FallsBack (t : KeyTraits w K) (equal : K → K → Bool) : Prop where
  noHash : t.stlHash = none
  copyable : t.triviallyCopyable = true
  own : t.stlEqualTo = some equal ∨ t.stlEqualTo = none ∧ t.equality = some equal

/-- Equal keys have equal bytes. -/
def SameBytes (t : KeyTraits w K) (equal : K → K → Bool) : Prop :=
  ∀ a b, equal a b = true → t.bytes a = t.bytes b

/-- If equal keys have different bytes at all, some differ in one byte. -/
def DiffersLocally (t : KeyTraits w K) (equal : K → K → Bool) : Prop :=
  ∀ a b, equal a b = true → t.bytes a ≠ t.bytes b →
    ∃ c d, equal c d = true ∧ DifferOnce (t.bytes c) (t.bytes d)

/-- Keys are equal if the bytes of their members are, and each padding byte may have any value. -/
structure Memberwise (t : KeyTraits w K) (equal : K → K → Bool) (padding : Set ℕ) : Prop where
  equal_iff : ∀ a b, equal a b = true ↔ ∀ i ∉ padding, (t.bytes a)[i]? = (t.bytes b)[i]?
  free : ∀ a, ∀ i ∈ padding, ∀ byte, ∃ b, t.bytes b = (t.bytes a).set i byte

theorem FallsBack.hash_eq (h : t.FallsBack equal) (a : K) :
    t.defaultPolicy.hash a = fnv1aBytes w (t.bytes a) := by
  simp [defaultPolicy, runtimeHashKeyPolicy, typeHash, h.noHash, h.copyable]

theorem FallsBack.equal_eq (h : t.FallsBack equal) : t.defaultPolicy.equal = equal := by
  rcases h.own with hown | ⟨hnone, hown⟩
  · simp [defaultPolicy, runtimeHashKeyPolicy, typeEqual, hown]
  · simp [defaultPolicy, runtimeHashKeyPolicy, typeEqual, hnone, hown]

/-- Keys of the same bytes have the same hash. -/
theorem FallsBack.coherent_of_sameBytes (h : t.FallsBack equal) (hsame : t.SameBytes equal) :
    t.Coherent := by
  intro a b hab
  rw [h.equal_eq] at hab
  rw [h.hash_eq, h.hash_eq, hsame a b hab]

/-- Coherent functors tell no two keys of which one byte differs equal. -/
theorem FallsBack.not_differOnce (hw : 8 ≤ w) (h : t.FallsBack equal) (hc : t.Coherent) {a b : K}
    (hab : equal a b = true) : ¬ DifferOnce (t.bytes a) (t.bytes b) := by
  intro hdiffer
  have hhash := hc a b (by rwa [h.equal_eq])
  rw [h.hash_eq, h.hash_eq] at hhash
  exact hdiffer.fnv1aBytes_ne hw hhash

/-- A padding byte that is changed gives an equal key. -/
theorem Memberwise.exists_differOnce {padding : Set ℕ} (hm : t.Memberwise equal padding) (a : K)
    {i : ℕ} (hi : i ∈ padding) (hlt : i < t.size) {byte : BitVec 8}
    (hbyte : (t.bytes a)[i]? ≠ some byte) :
    ∃ b, equal a b = true ∧ DifferOnce (t.bytes a) (t.bytes b) := by
  obtain ⟨b, hb⟩ := hm.free a i hi byte
  have hlen : i < (t.bytes a).length := (t.length_bytes a).symm ▸ hlt
  refine ⟨b, (hm.equal_iff a b).mpr fun j hj => ?_, ?_⟩
  · rw [hb, List.getElem?_set_ne (ne_of_mem_of_not_mem hi hj)]
  · rw [hb]
    apply differOnce_set hlen
    intro heq
    exact hbyte (by rw [List.getElem?_eq_getElem hlen, heq])

theorem Memberwise.differsLocally {padding : Set ℕ} (hm : t.Memberwise equal padding) :
    t.DiffersLocally equal := by
  intro a b hab hne
  -- a place where the two differ, which is a padding byte
  obtain ⟨i, hi⟩ : ∃ i, (t.bytes a)[i]? ≠ (t.bytes b)[i]? := by
    by_contra hall
    push Not at hall
    exact hne (List.ext_getElem? hall)
  have hpad : i ∈ padding := by
    by_contra hnot
    exact hi ((hm.equal_iff a b).mp hab i hnot)
  have hlt : i < t.size := by
    by_contra hge
    rw [not_lt] at hge
    rw [List.getElem?_eq_none (t.length_bytes a ▸ hge),
      List.getElem?_eq_none (t.length_bytes b ▸ hge)] at hi
    exact hi rfl
  rw [List.getElem?_eq_getElem (l := t.bytes b) (t.length_bytes b ▸ hlt)] at hi
  obtain ⟨d, hd⟩ := hm.exists_differOnce a hpad hlt hi
  exact ⟨a, d, hd⟩

/-- Without padding, equal keys have equal bytes. -/
theorem Memberwise.sameBytes_iff [Nonempty K] {padding : Set ℕ} (hm : t.Memberwise equal padding) :
    t.SameBytes equal ↔ ∀ i ∈ padding, t.size ≤ i := by
  constructor
  · intro hsame i hi
    by_contra hlt
    rw [not_le] at hlt
    obtain ⟨a⟩ := ‹Nonempty K›
    obtain ⟨byte, hbyte⟩ : ∃ byte, (t.bytes a)[i]? ≠ some byte := by
      by_cases hzero : (t.bytes a)[i]? = some 0
      · exact ⟨1, by rw [hzero]; decide⟩
      · exact ⟨0, hzero⟩
    obtain ⟨b, hab, hdiffer⟩ := hm.exists_differOnce a hi hlt hbyte
    exact hdiffer.ne (hsame a b hab)
  · intro hnone a b hab
    apply List.ext_getElem?
    intro i
    by_cases hi : i ∈ padding
    · have hge := hnone i hi
      rw [List.getElem?_eq_none (t.length_bytes a ▸ hge),
        List.getElem?_eq_none (t.length_bytes b ▸ hge)]
    · exact (hm.equal_iff a b).mp hab i hi

/-- Keys that are neither hashed nor compared by functions of their own. -/
theorem lawful_runtimeHashKeyPolicy (bytes : K → List (BitVec 8)) :
    (runtimeHashKeyPolicy bytes none none : HashPolicy w K).Lawful where
  refl a := beq_self_eq_true (bytes a)
  symm _ _ h := beq_iff_eq.mpr (beq_iff_eq.mp h).symm
  trans _ _ _ hab hbc := beq_iff_eq.mpr ((beq_iff_eq.mp hab).trans (beq_iff_eq.mp hbc))
  hash_eq _ _ h := congrArg (fnv1aBytes w) (beq_iff_eq.mp h)

/-- Coherent functors over an equivalence are what the containers rely on to find a key. -/
theorem Coherent.lawful (h : t.FallsBack equal) (hc : t.Coherent) (hrefl : ∀ a, equal a a = true)
    (hsymm : ∀ a b, equal a b = true → equal b a = true)
    (htrans : ∀ a b c, equal a b = true → equal b c = true → equal a c = true) :
    t.defaultPolicy.Lawful where
  refl := h.equal_eq ▸ hrefl
  symm := h.equal_eq ▸ hsymm
  trans := h.equal_eq ▸ htrans
  hash_eq := hc

/-- **When the default functors are coherent**: where equal keys have equal bytes, and only there if
keys that are equal with different bytes can differ in one byte; for a type that compares its members,
where it has no padding. -/
theorem default_functors_coherent (hw : 8 ≤ w) (t : KeyTraits w K) (equal : K → K → Bool)
    (h : t.FallsBack equal) :
    (t.SameBytes equal → t.Coherent) ∧
      (t.DiffersLocally equal → (t.Coherent ↔ t.SameBytes equal)) ∧
      ∀ padding, t.Memberwise equal padding → Nonempty K →
        (t.Coherent ↔ ∀ i ∈ padding, t.size ≤ i) := by
  have hlocal : t.DiffersLocally equal → (t.Coherent ↔ t.SameBytes equal) := by
    intro hl
    refine ⟨fun hc a b hab => ?_, h.coherent_of_sameBytes⟩
    by_contra hne
    obtain ⟨c, d, hcd, hdiffer⟩ := hl a b hab hne
    exact h.not_differOnce hw hc hcd hdiffer
  refine ⟨h.coherent_of_sameBytes, hlocal, fun padding hm hk => ?_⟩
  exact (hlocal hm.differsLocally).trans hm.sameBytes_iff

/-- A struct of eight bytes whose members are at the given places, compared member by member. -/
def structKey (members : List ℕ) : KeyTraits 64 (Fin 8 → BitVec 8) where
  stlHash := none
  stlEqualTo := some fun a b => decide (∀ i : Fin 8, i.val ∈ members → a i = b i)
  equality := some fun a b => decide (∀ i : Fin 8, i.val ∈ members → a i = b i)
  triviallyCopyable := true
  size := 8
  bytes a := List.ofFn a
  length_bytes _ := List.length_ofFn

theorem fallsBack_structKey (members : List ℕ) :
    (structKey members).FallsBack fun a b => decide (∀ i : Fin 8, i.val ∈ members → a i = b i) :=
  ⟨rfl, rfl, .inl rfl⟩

theorem memberwise_structKey (members : List ℕ) :
    (structKey members).Memberwise
      (fun a b => decide (∀ i : Fin 8, i.val ∈ members → a i = b i)) {i | i ∉ members} where
  equal_iff a b := by
    simp only [decide_eq_true_eq, structKey, List.getElem?_ofFn]
    constructor
    · intro hall i hi
      by_cases hlt : i < 8
      · rw [dif_pos hlt, dif_pos hlt, hall ⟨i, hlt⟩ (not_not.mp hi)]
      · rw [dif_neg hlt, dif_neg hlt]
    · intro hall i hi
      have h := hall i.val (not_not.mpr hi)
      rwa [dif_pos i.isLt, dif_pos i.isLt, Option.some.injEq] at h
  free a i _ byte := by
    by_cases hlt : i < 8
    · refine ⟨Function.update a ⟨i, hlt⟩ byte, ?_⟩
      apply List.ext_getElem
      · simp [structKey]
      · intro j hj _
        simp only [structKey, List.getElem_ofFn, List.getElem_set, Function.update_apply,
          Fin.mk.injEq, eq_comm (a := j)]
    · exact ⟨a, by simp [structKey, List.set_eq_of_length_le, not_lt.mp hlt]⟩

/-- A byte and a word with three padding bytes between them, and two words. -/
theorem default_functors_coherent_structKey :
    ¬ (structKey [0, 4, 5, 6, 7]).Coherent ∧ (structKey (List.range 8)).Coherent := by
  constructor
  · intro hc
    have hpad := ((default_functors_coherent (by norm_num) _ _ (fallsBack_structKey _)).2.2 _
      (memberwise_structKey [0, 4, 5, 6, 7]) ⟨fun _ => 0⟩).mp hc 1 (by decide)
    exact absurd hpad (by decide)
  · apply ((default_functors_coherent (by norm_num) _ _ (fallsBack_structKey _)).2.2 _
      (memberwise_structKey (List.range 8)) ⟨fun _ => 0⟩).mpr
    intro i hi
    exact not_lt.mp fun hlt => hi (List.mem_range.mpr hlt)

/-- The chaining map with the default functors for the struct with padding. -/
def paddedMap : ChainConfig 64 (Fin 8 → BitVec 8) ℕ where
  keyPolicy := .bytewise _
  valuePolicy := .bytewise ℕ
  hashPolicy := (structKey [0, 4, 5, 6, 7]).defaultPolicy
  growable := true
  allocRaw _ bytes := if bytes.toNat < 2 ^ 63 then .ok else .oom
  nodeBytes := 32
  pointerSize := 16
  initialBuckets := 2
  pointerSize_pos := by decide
  initialBuckets_pos := Nat.two_pos
  initialBuckets_real := by decide
  allocRaw_real := by
    intro n bytes hok
    by_contra hlarge
    rw [if_neg hlarge] at hok
    cases hok

/-- **Equal keys with different padding have different hashes**, and a map that stores one does not
find the other. -/
theorem not_coherent_padding :
    (structKey [0, 4, 5, 6, 7]).defaultPolicy.equal (fun _ => 0)
        (Function.update (fun _ => 0) 1 1) = true ∧
      (structKey [0, 4, 5, 6, 7]).defaultPolicy.hash (fun _ => 0) ≠
        (structKey [0, 4, 5, 6, 7]).defaultPolicy.hash (Function.update (fun _ => 0) 1 1) ∧
      Mealy.outputs (ChainMap.call paddedMap)
          (.init paddedMap (fun _ => none) (fun _ _ => 0) fun _ => 0)
          [.put (some fun _ => 0) (some 10), .get (some fun _ => 0) (some 0),
            .get (some (Function.update (fun _ => 0) 1 1)) (some 0)] =
        [some (.status .ok), some (.value .ok (some 10)), some (.value .notFound (some 0))] := by
  refine ⟨by decide +kernel, by decide +kernel, by decide +kernel⟩

/-- Beyond that only the values of the hash decide: two strings with the same hash may be two equal
keys. -/
theorem exists_coherent_not_sameBytes (w : ℕ) :
    ∃ t : KeyTraits w Bool, ∃ equal, t.FallsBack equal ∧ t.Coherent ∧ ¬ t.SameBytes equal := by
  -- there are more strings of this length than hashes
  obtain ⟨x, y, hne, heq⟩ := Fintype.exists_ne_map_eq_of_card_lt
    (fun x : Fin (w + 1) → Fin 256 =>
      (fnv1aBytes w (List.ofFn fun i => BitVec.ofFin (x i))).toFin) (by
        simp only [Fintype.card_fin, Fintype.card_fun]
        calc 2 ^ w < 2 ^ (w + 1) := Nat.pow_lt_pow_succ (by norm_num)
          _ ≤ 256 ^ (w + 1) := Nat.pow_le_pow_left (by norm_num) _)
  have hhash := congrArg BitVec.ofFin heq
  refine ⟨⟨none, some fun _ _ => true, none, true, w + 1,
    fun k => List.ofFn fun i => BitVec.ofFin (cond k x y i), fun k => List.length_ofFn⟩,
    fun _ _ => true, ⟨rfl, rfl, .inl rfl⟩, ?_, fun hsame => ?_⟩
  · intro a b _
    cases a <;> cases b
    · rfl
    · exact hhash.symm
    · exact hhash
    · rfl
  · have hbytes := List.ofFn_injective (hsame true false rfl)
    apply hne
    funext i
    exact BitVec.ofFin.inj (congrFun hbytes i)

end KeyTraits

end Memkit
