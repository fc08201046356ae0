import Memkit.Caching.LruCache
import Memkit.Hashing.Chaining
import Memkit.Hashing.OpenAddressing
import Memkit.Moves.MovedLists
import Memkit.Trees.BTree

/-! # Where the policies of a moved container point

The classes `HashMap`, `LruCache` and `BTree` hand policies to `core_` whose functions find the object
through a user pointer, and use its hash, its comparison and its typed policies. A move copies
`core_`, resets that of the source, and rebuilds the policies that are members of both objects; those
in the core of the destination still hold the pointers they held.

* **`Hosted`** — an object of such a class, for any core.
* **`HostedClass.movesHome_iff`** — when a move leaves no pointer at the source.
* **`VectorObject.movesHome_iff`** — the same for the grow allocator of a vector.
* **`contexts_home_iff`** — both, for the classes of the containers. -/

namespace Memkit

variable {R F S ι ο : Type*}

/-- What the user pointer of a policy leads to. -/
inductive Found (F : Type*)
  | null
  /-- There is no object any more. -/
  | gone
  | members (members : F)

/-- A class whose core has policies for the roles `R`, which use the members `F` of an object. -/
structure HostedClass (R F S ι ο : Type*) where
  /-- A call of `core_`, given what the policies find; `none` if it goes through a pointer to an
  object that is gone, or does not return. -/
  call : (R → Found F) → S → ι → Option ο × S
  /-- `reset_state`. -/
  reset : S → S

/-- An object of the class. -/
structure Hosted (R F S : Type*) where
  /-- `core_`, but for the user pointers of its policies. -/
  core : S
  /-- The user pointers of the policies in `core_`, null if `none`. -/
  contexts : R → Option ℕ
  /-- The user pointers of the policies that are members of the object. -/
  policies : R → Option ℕ
  /-- The hash, the equality, the comparison and the typed policies. -/
  members : F

namespace Hosted

/-- `rebuild_policies` of the object at the address `self`. -/
def rebuildPolicies (self : ℕ) (h : Hosted R F S) : Hosted R F S :=
  { h with policies := fun _ => some self }

/-- `init` and `init_from_arena`, which give `core_` the policies. -/
def init (self : ℕ) (h : Hosted R F S) (core : S) : Hosted R F S :=
  let h := h.rebuildPolicies self
  { h with core := core, contexts := h.policies }

/-- What the policy of a role finds, in the object at the address `self`; `found` is at the address
`other`, and `elsewhere` at the others. -/
def find (self other : ℕ) (elsewhere : ℕ → Option F) (found : Option F) (h : Hosted R F S)
    (role : R) : Found F :=
  match h.contexts role with
  | none => .null
  | some address =>
    match if address = self then some h.members else if address = other then found
      else elsewhere address with
    | none => .gone
    | some members => .members members

/-- A call of the class. -/
inductive Call (S ι : Type*)
  | core (call : ι)
  | init (core : S)

/-- Every user pointer in `core_` is null, or the address of the object. -/
def AtHome (self : ℕ) (h : Hosted R F S) : Prop :=
  ∀ role, h.contexts role = none ∨ h.contexts role = some self

end Hosted

namespace HostedClass

open Hosted

variable (cls : HostedClass R F S ι ο)

/-- Dispatch a call of the object at the address `self`. -/
def dispatch (self other : ℕ) (elsewhere : ℕ → Option F) (found : Option F) (h : Hosted R F S) :
    Hosted.Call S ι → Option ο × Hosted R F S
  | .core c =>
    let (answer, core) := cls.call (h.find self other elsewhere found) h.core c
    (answer, { h with core := core })
  | .init core => (none, h.init self core)

/-- The class, with two objects at the addresses `source` and `dest`. The storage is not shared after
a move: the source keeps its members only, and its core is reset. -/
def objectClass (source dest : ℕ) (elsewhere : ℕ → Option F) :
    ObjectClass (Hosted R F S) Unit (Option F) (Hosted.Call S ι) (Option ο) Empty where
  call side found h _ c :=
    let (answer, h) :=
      cls.dispatch (side.pick source dest) (side.pick dest source) elsewhere found h c
    (answer, h, ())
  shown h := some h.members
  destroy _ _ := ()
  released _ _ := []
  left h := rebuildPolicies source { h with core := cls.reset h.core, contexts := fun _ => none }

/-- The move constructor; the assignment does the same after it has cleared the old core. -/
def move (source dest : ℕ) (elsewhere : ℕ → Option F) (h : Hosted R F S) :
    Twin (Hosted R F S) Unit (Option F) Empty :=
  ⟨.sharing ((cls.objectClass source dest elsewhere).left h), h.rebuildPolicies dest, (), []⟩

/-- After the move every user pointer in the core of the destination is null or leads to the
destination, and this answers the same whatever is done with the source. -/
def MovesHome (source dest : ℕ) (elsewhere : ℕ → Option F) (h : Hosted R F S) : Prop :=
  (cls.move source dest elsewhere h).dest.AtHome dest ∧
    ∀ calls, Twin.Undisturbed (cls.objectClass source dest elsewhere)
      (cls.move source dest elsewhere h) calls

variable {cls} {source dest : ℕ} {elsewhere : ℕ → Option F} {h : Hosted R F S}

/-- An object whose policies do not look at the address `other` finds the same there. -/
theorem find_atHome (hhome : h.AtHome dest) (found found' : Option F) :
    h.find dest source elsewhere found = h.find dest source elsewhere found' := by
  funext role
  unfold find
  rcases hhome role with hnull | hself
  · rw [hnull]
  · rw [hself]
    simp only [if_true]

/-- An object at home stays there. -/
theorem atHome_dispatch (hhome : h.AtHome dest) (found : Option F) (c : Hosted.Call S ι) :
    (cls.dispatch dest source elsewhere found h c).2.AtHome dest := by
  cases c with
  | core c => exact hhome
  | init core => exact fun _ => .inr rfl

/-- What is done with the source does not matter to a destination at home. -/
theorem harmless (cls : HostedClass R F S ι ο) (source dest : ℕ) (elsewhere : ℕ → Option F) :
    Twin.Harmless (cls.objectClass source dest elsewhere) (fun h => ¬ h.AtHome dest)
      (fun _ => True) fun s _ => s.dest.AtHome dest where
  blind d hhome found found' m c := by
    have hfind : d.find dest source elsewhere found = d.find dest source elsewhere found' :=
      find_atHome (not_not.mp hhome) found found'
    cases c with
    | core c => simp only [objectClass, dispatch, Side.pick, hfind]
    | init core => rfl
  stays_blind d hhome found m c := not_not.mpr (atHome_dispatch (not_not.mp hhome) found c)
  call s h c _ _ _ := by
    refine ⟨rfl, trivial, ?_⟩
    cases c <;> rfl
  destroy _ _ _ _ _ _ := ⟨rfl, rfl⟩
  found s found hidle hsees := by
    rcases hidle with hidle | hidle
    · exact absurd hidle hsees
    · exact absurd hidle hsees

/-- **When a move leaves no pointer at the source**: exactly if the user pointers in the core of the
source were null before the move, or the address of the destination already. -/
theorem movesHome_iff (cls : HostedClass R F S ι ο) (source dest : ℕ) (elsewhere : ℕ → Option F)
    (h : Hosted R F S) :
    cls.MovesHome source dest elsewhere h ↔
      ∀ role, h.contexts role = none ∨ h.contexts role = some dest := by
  constructor
  · exact fun hmoves => hmoves.1
  · intro hhome
    have hblind : ¬ ¬ (cls.move source dest elsewhere h).dest.AtHome dest := not_not.mpr hhome
    refine ⟨hhome, fun calls => ?_⟩
    refine Twin.undisturbed_of_harmless (harmless cls source dest elsewhere)
      (fun _ _ => trivial) rfl ?_
    refine (harmless cls source dest elsewhere).everyCall_of_blind hblind (fun _ _ => trivial) ?_
    exact fun c _ s hs => not_not.mp hs

end HostedClass

/-! ## The classes -/

variable {w : ℕ} {K V : Type*}

/-- The policies of `HashMap` and `LruCache`. -/
inductive MapRole
  | key
  | value
  | hash
  deriving DecidableEq, Repr

/-- The members of `HashMap` and `LruCache` that their policies use. -/
structure MapMembers (w : ℕ) (K V : Type*) where
  /-- `key_typed_`. -/
  keyTyped : ElementPolicy K
  /-- `value_typed_`. -/
  valueTyped : ElementPolicy V
  /-- `hash_` and `eq_`. -/
  hashEq : HashPolicy w K

/-- A call of a core whose three policies are null, or find the members of objects. -/
def callThrough {S ι ρ : Type*}
    (withMembers : ElementPolicy K → ElementPolicy V → HashPolicy w K → S → ι → Option ρ × S)
    (withNull : S → ι → Option ρ × S) (found : MapRole → Found (MapMembers w K V)) (s : S) (c : ι) :
    Option ρ × S :=
  match found .key, found .value, found .hash with
  | .members key, .members value, .members hash =>
    withMembers key.keyTyped value.valueTyped hash.hashEq s c
  | .null, .null, .null => withNull s c
  | _, _, _ => (none, s)

/-- The class `HashMap` with open addressing; the core has its flags and allocator with it. Without
functions, its policies are those of the configuration. -/
def openMapClass : HostedClass MapRole (MapMembers w K V) (HashMapConfig w K V × OpenMap w K V)
    (OpenMap.Call K V) (OpenMap.Reply V) where
  call := callThrough
    (fun key value hash s c =>
      let (reply, map) := OpenMap.call
        { s.1 with keyPolicy := key, valuePolicy := value, hashPolicy := hash } s.2 c
      (some reply, s.1, map))
    fun s c =>
      let (reply, map) := OpenMap.call s.1 s.2 c
      (some reply, s.1, map)
  reset s := (s.1, { s.2 with bucketCount := 0, size := 0 })

/-- The class `HashMap` with chaining. -/
def chainMapClass : HostedClass MapRole (MapMembers w K V) (ChainConfig w K V × ChainMap w K V)
    (ChainMap.Call K V) (ChainMap.Reply K V) where
  call := callThrough
    (fun key value hash s c =>
      let (reply, map) := ChainMap.call
        { s.1 with keyPolicy := key, valuePolicy := value, hashPolicy := hash } s.2 c
      (reply, s.1, map))
    fun s c =>
      let (reply, map) := ChainMap.call s.1 s.2 c
      (reply, s.1, map)
  reset s := (s.1, { s.2 with buckets := fun _ => none, bucketCount := 0, size := 0 })

/-- The class `LruCache`. -/
def lruCacheClass : HostedClass MapRole (MapMembers w K V) (LruConfig w K V × LruCache K V)
    (LruCache.Call K V) (LruCache.Reply V) where
  call := callThrough
    (fun key value hash s c =>
      let (reply, cache) := LruCache.call
        { s.1 with keyPolicy := key, valuePolicy := value, hashEqPolicy := hash } s.2 c
      (some reply, s.1, cache))
    fun s c =>
      let (reply, cache) := LruCache.call s.1 s.2 c
      (some reply, s.1, cache)
  reset s :=
    ({ s.1 with capacity := 0, bucketCount := 0 },
      { s.2 with
        recency := { s.2.recency with head := none, tail := none }
        links := { s.2.links with freeList := none }
        size := 0 })

/-- The policies of `BTree`. -/
inductive TreeRole
  | elem
  | compare
  deriving DecidableEq, Repr

/-- The members of `BTree` that its policies use. -/
structure TreeMembers (V : Type*) where
  /-- `elem_typed_`. -/
  elemTyped : ElementPolicy V
  /-- `compare_`. -/
  compare : V → V → ℤ

/-- The class `BTree`. -/
def btreeClass : HostedClass TreeRole (TreeMembers V) (BTreeConfig V × BTree V) (BTree.Call V)
    (BTree.Reply V) where
  call found s c :=
    match found .elem, found .compare with
    | .members elem, .members compare =>
      let (reply, tree) := BTree.call
        { s.1 with policy := elem.elemTyped, compare := compare.compare } s.2 c
      (reply, s.1, tree)
    | .null, .null =>
      let (reply, tree) := BTree.call s.1 s.2 c
      (reply, s.1, tree)
    | _, _ => (none, s)
  reset s :=
    ({ s.1 with source := { s.1.source with fixedPool := false, capacity := 0 } },
      { s.2 with root := none, pool := { s.2.pool with freeList := none }, size := 0 })

/-! ## The grow allocator of a vector -/

namespace VectorObject

variable {cfg : VectorConfig w V} {source dest : ℕ} {others : ℕ → Option ℕ} {v : VectorObject w}
  {m : VectorMemory V}

/-- The context of the grow allocator is null, or the `arena_` of the object itself. -/
def AtHome (self : ℕ) (v : VectorObject w) : Prop :=
  v.core.growAlloc = none ∨ v.core.growAlloc = some self

/-- After the move construction, or the assignment to any object, the context of the grow allocator of
the destination is null or its own `arena_`, and the destination is undisturbed whether the source is
set up anew or destroyed. -/
def MovesHome (cfg : VectorConfig w V) (source dest : ℕ) (others : ℕ → Option ℕ)
    (v : VectorObject w) (m : VectorMemory V) : Prop :=
  let cls := objectClass cfg source dest others
  (Twin.moveConstruct cls v m).dest.AtHome dest ∧
    ∀ calls, (∀ c ∈ calls, ∀ x, c ≠ .source x) →
      Twin.Undisturbed cls (Twin.moveConstruct cls v m) calls ∧
        ∀ old, Twin.Undisturbed cls (Twin.moveAssign cls old v m) calls

/-- The calls that are not of the source itself, and do not change what the destination finds. -/
def Elsewhere (cfg : VectorConfig w V) (source dest : ℕ) (others : ℕ → Option ℕ)
    (s : Twin (VectorObject w) (VectorMemory V) (Option ℕ) (Released (BlockPtr × ℕ) BlockPtr)) :
    TwinCall (Use w V) (Option ℕ) → Prop
  | .source _ => False
  | .dest _ => True
  | .destroy found | .renew found =>
    s.dest.core.growAlloc = some source ∧ source ≠ dest →
      found = s.atSource (objectClass cfg source dest others)

/-- Setting a source up anew is harmless, and so is its destruction if there is no element to
destroy. -/
theorem harmless_elsewhere (cfg : VectorConfig w V) (source dest : ℕ) (others : ℕ → Option ℕ) :
    Twin.Harmless (objectClass cfg source dest others)
      (fun v => v.core.growAlloc = some source ∧ source ≠ dest) (NoDestroy cfg)
      (Elsewhere cfg source dest others) where
  blind := (harmless cfg source dest others).blind
  stays_blind := (harmless cfg source dest others).stays_blind
  call _ _ _ _ _ hidle := hidle.elim
  destroy s v found _ hno _ := by
    refine ⟨(kept_clear hno).memory, ?_⟩
    show v.released cfg = []
    unfold released
    rcases hno with hsize | hno
    · simp [hsize]
    · simp [hno]
  found s found hidle hsees := hidle.elim (fun h => h hsees) fun h => h hsees

theorem undisturbed_elsewhere (hhome : v.AtHome dest) (hno : v.NoDestroy cfg)
    {calls : List (TwinCall (Use w V) (Option ℕ))} (hcalls : ∀ c ∈ calls, ∀ x, c ≠ .source x) :
    Twin.Undisturbed (objectClass cfg source dest others)
      (Twin.moveConstruct (objectClass cfg source dest others) v m) calls := by
  have hblind : ¬ (v.core.growAlloc = some source ∧ source ≠ dest) := by
    rintro ⟨hsees, hne⟩
    rcases hhome with hnull | hself
    · cases hnull.symm.trans hsees
    · exact hne (Option.some.inj (hsees.symm.trans hself))
  have hown : ∀ h, (Twin.moveConstruct (objectClass cfg source dest others) v m).source =
      .sharing h → NoDestroy cfg h := by
    rintro _ ⟨⟩
    exact hno
  refine Twin.undisturbed_of_harmless (harmless_elsewhere cfg source dest others) hown rfl ?_
  refine (harmless_elsewhere cfg source dest others).everyCall_of_blind hblind hown ?_
  intro c hc s hs
  cases c with
  | source x => exact hcalls _ hc x rfl
  | dest x => trivial
  | destroy found => exact fun h => absurd h hs
  | renew found => exact fun h => absurd h hs

/-- A source with an element to destroy releases it, and the destination releases it again. -/
theorem noDestroy_of_undisturbed
    (hundisturbed : Twin.Undisturbed (objectClass cfg source dest others)
      (Twin.moveConstruct (objectClass cfg source dest others) v m) [.destroy none]) :
    v.NoDestroy cfg := by
  by_contra hnot
  obtain ⟨hsize, hneeds⟩ := not_or.mp hnot
  have hdisjoint : (v.released cfg).Disjoint (v.released cfg) := hundisturbed.2
  have hmem : Released.element (v.core.slotAt 0) ∈ v.released cfg := by
    unfold released
    rw [if_pos (Bool.eq_true_of_not_eq_false hneeds)]
    refine List.mem_map.mpr ⟨0, List.mem_range.mpr (Nat.pos_of_ne_zero fun hzero => hsize ?_), rfl⟩
    exact BitVec.eq_of_toNat_eq hzero
  exact hdisjoint hmem hmem

/-- **When a move of a vector leaves no pointer at the source**: exactly if the context of the grow
allocator was null before the move, or the destination already, and the source has no element that
its destructor destroys. -/
theorem movesHome_iff (cfg : VectorConfig w V) (source dest : ℕ) (others : ℕ → Option ℕ)
    (v : VectorObject w) (m : VectorMemory V) :
    v.MovesHome cfg source dest others m ↔
      (v.core.growAlloc = none ∨ v.core.growAlloc = some dest) ∧ v.NoDestroy cfg := by
  constructor
  · intro hmoves
    refine ⟨hmoves.1, ?_⟩
    have hcalls := hmoves.2 [.destroy none] fun c hc x => by simp_all
    exact noDestroy_of_undisturbed hcalls.1
  · rintro ⟨hhome, hno⟩
    exact ⟨hhome, fun calls hcalls =>
      ⟨undisturbed_elsewhere hhome hno hcalls, fun old => undisturbed_elsewhere hhome hno hcalls⟩⟩

end VectorObject

/-- **When the policies of a moved container point home**: for maps, caches and trees exactly if the
user pointers in the core of the source were null, or the address of the destination, before the move;
for a vector, if this holds of the context of its grow allocator and the source has no element that
its destructor destroys. -/
theorem contexts_home_iff (source dest : ℕ) :
    (∀ elsewhere h, (openMapClass (w := w) (K := K) (V := V)).MovesHome source dest elsewhere h ↔
      ∀ role, h.contexts role = none ∨ h.contexts role = some dest) ∧
    (∀ elsewhere h, (chainMapClass (w := w) (K := K) (V := V)).MovesHome source dest elsewhere h ↔
      ∀ role, h.contexts role = none ∨ h.contexts role = some dest) ∧
    (∀ elsewhere h, (lruCacheClass (w := w) (K := K) (V := V)).MovesHome source dest elsewhere h ↔
      ∀ role, h.contexts role = none ∨ h.contexts role = some dest) ∧
    (∀ elsewhere h, (btreeClass (V := V)).MovesHome source dest elsewhere h ↔
      ∀ role, h.contexts role = none ∨ h.contexts role = some dest) ∧
    ∀ (cfg : VectorConfig w V) (others : ℕ → Option ℕ) (v : VectorObject w) (m : VectorMemory V),
      v.MovesHome cfg source dest others m ↔
        (v.core.growAlloc = none ∨ v.core.growAlloc = some dest) ∧
          (v.core.size = 0 ∨ cfg.needsDestroy = false) :=
  ⟨openMapClass.movesHome_iff source dest, chainMapClass.movesHome_iff source dest,
    lruCacheClass.movesHome_iff source dest, btreeClass.movesHome_iff source dest,
    fun cfg => VectorObject.movesHome_iff cfg source dest⟩

/-! ## Runs -/

/-- A table of two slots without an allocator. -/
def pairTable : HashMapConfig 16 ℕ ℕ where
  keyPolicy := .bytewise ℕ
  valuePolicy := .bytewise ℕ
  hashPolicy := .ofDecEq fun _ => 0
  growable := false
  slotStride := 8
  allocRaw _ _ := .oom
  zeroKey := 0
  zeroValue := 0

/-- Members with a hash that adds a seed. -/
def seeded (seed : ℕ) : MapMembers 16 ℕ ℕ :=
  ⟨.bytewise ℕ, .bytewise ℕ, .ofDecEq fun key => BitVec.ofNat 16 (key + seed)⟩

/-- A map at the address 0, initialised over four empty slots, with the key 1. -/
def mapOfOne : Hosted MapRole (MapMembers 16 ℕ ℕ) (HashMapConfig 16 ℕ ℕ × OpenMap 16 ℕ ℕ) :=
  let h := Hosted.init 0 ⟨(pairTable, ⟨fun _ => ⟨.empty, 0, 0⟩, 0, 0, 0, 0⟩), fun _ => none,
    fun _ => none, seeded 0⟩ (pairTable, ⟨fun _ => ⟨.empty, 0, 0⟩, 4, 0, 0, 0⟩)
  (openMapClass.dispatch 0 1 (fun _ => none) none h (.core (.put (some 1) (some 5)))).2

/-- **The core of a moved map points at the source.** After a move to the address 1 the user pointers
are still 0; the map does not find its key if the object there has another hash by now, and cannot
look for it if the object is gone. -/
theorem map_points_at_source :
    let t := openMapClass.move 0 1 (fun _ => none) mapOfOne
    let get : TwinCall (Hosted.Call _ _) _ := .dest (.core (.get (some 1) (some 0)))
    (∀ role, t.dest.contexts role = some 0) ∧
      Mealy.outputs (Twin.step (openMapClass.objectClass 0 1 fun _ => none)) t [get] =
        [some (some (.get .ok (some 5)))] ∧
      Mealy.outputs (Twin.step (openMapClass.objectClass 0 1 fun _ => none)) t
          [.renew (some (seeded 1)), get] = [none, some (some (.get .notFound (some 0)))] ∧
      Mealy.outputs (Twin.step (openMapClass.objectClass 0 1 fun _ => none)) t
          [.destroy none, get] = [none, some none] ∧
      ¬ openMapClass.MovesHome 0 1 (fun _ => none) mapOfOne := by
  refine ⟨fun _ => rfl, by decide +kernel, by decide +kernel, by decide +kernel, fun hmoves => ?_⟩
  rcases hmoves.1 .key with hnull | hdest
  · cases hnull
  · cases hdest

end Memkit
