import Memkit.Core.CopyCalls
import Memkit.Hashing.ChainingShape

/-! # The copies of the chaining hash map

Which copy callbacks the calls of `hashmap_map_core` with chains run, and when their statuses are
truthful: a value that is put over an old one or read out is copied by `copy_assign`, whose status
nobody sees. -/

namespace Memkit

open CopyCall

variable {w : ℕ} {K V : Type*}

namespace ChainMap

/-- The callbacks that `alloc_chain_node` runs. -/
def allocChainNodeCopies (cfg : ChainConfig w K V) (s : ChainMap w K V) (key : K) (value : V) :
    List CopyCall :=
  if cfg.allocRaw s.allocs cfg.nodeBytes ≠ .ok then []
  else
    let keySt := (s.keys.copyConstruct cfg.keyPolicy s.allocs key).1
    if keySt ≠ .ok then [.construct keySt]
    else [.construct keySt, .construct (s.values.copyConstruct cfg.valuePolicy s.allocs value).1]

/-- The callbacks that `chain_put` runs. -/
def chainPutCopies (cfg : ChainConfig w K V) (s : ChainMap w K V) (key : K) (value : V) :
    List CopyCall :=
  match chainFind cfg s (bucketIndex cfg s.bucketCount key) key with
  | none => []
  | some (some existing, _) =>
    [.assign (cfg.valuePolicy.droppedStatus s.values.copies (s.values.contents existing) value)]
  | some (none, _) => allocChainNodeCopies cfg s key value

/-- The callbacks that `chain_get` runs. -/
def chainGetCopies (cfg : ChainConfig w K V) (s : ChainMap w K V) (key : K) (out : V) :
    List CopyCall :=
  match chainFind cfg s (bucketIndex cfg s.bucketCount key) key with
  | some (some node, _) =>
    [.assign (cfg.valuePolicy.droppedStatus s.values.copies out (s.values.contents node))]
  | _ => []

/-- The callbacks that `put` runs: growth moves nodes and copies nothing. -/
def putCopies (cfg : ChainConfig w K V) (s : ChainMap w K V) (key : Option K) (value : Option V) :
    List CopyCall :=
  match key, value with
  | some key, some value =>
    if s.bucketCount = 0 then []
    else if shouldGrow cfg.growable s.bucketCount (BitVec.ofNat w s.size) then
      match maybeGrow cfg s with
      | none => []
      | some (growSt, s) => if growSt ≠ .ok then [] else chainPutCopies cfg s key value
    else chainPutCopies cfg s key value
  | _, _ => []

/-- The callbacks that a call runs. -/
def copyCalls (cfg : ChainConfig w K V) (s : ChainMap w K V) : Call K V → List CopyCall
  | .put key value => putCopies cfg s key value
  | .get (some key) (some out) => chainGetCopies cfg s key out
  | .get _ _ => []
  | .remove _ => []
  | .contains _ => []
  | .clear => []
  | .foreach _ => []

/-- A lookup of `key` finds `value`. -/
def Stores (cfg : ChainConfig w K V) (s : ChainMap w K V) (key : K) (value : V) : Prop :=
  ∃ node prev, chainFind cfg s (bucketIndex cfg s.bucketCount key) key = some (some node, prev) ∧
    s.values.contents node = value

/-- The status in a reply. -/
def Reply.status? : Reply K V → Option Status
  | .status result => some result
  | .value result _ => some result
  | .contains _ => none
  | .done => none
  | .visits result _ => some result

/-- What a call is for is done: a put stored its value, a get delivered the value stored. -/
def Done (cfg : ChainConfig w K V) (s u : ChainMap w K V) : Call K V → Reply K V → Prop
  | .put (some key) (some value), _ => Stores cfg u key value
  | .get (some key) (some _), .value _ (some out) => Stores cfg s key out
  | _, _ => True

/-- The call returns, and its status is truthful. -/
def TruthfulCall (cfg : ChainConfig w K V) (s : ChainMap w K V) (c : Call K V) : Prop :=
  ∃ reply, (call cfg s c).1 = some reply ∧
    Truthful (copyCalls cfg s c) reply.status? (Done cfg s (call cfg s c).2 c reply)

variable {cfg : ChainConfig w K V} {s u : ChainMap w K V} {chains : ℕ → List ℕ} {key : K}
  {value : V} {b : ℕ}

/-! ## What is stored -/

/-- The first node of a chain is found if its key is equal. -/
theorem chainFind_head (h : Inv cfg s chains) (hb : b < s.bucketCount.toNat) {node : ℕ}
    {rest : List ℕ} (hchain : chains b = node :: rest)
    (hequal : cfg.hashPolicy.equal (s.keys.contents node) key = true) :
    chainFind cfg s b key = some (some node, none) := by
  have hwalk := h.chained.walk b hb
  have hlength := h.length_le hb
  rw [hchain] at hwalk hlength
  rw [chainFind, hwalk.1]
  cases hrounds : s.rounds with
  | zero =>
    rw [hrounds] at hlength
    cases hlength
  | succ rounds => rw [findLoop, if_pos hequal]

/-- A node with the key and the value in front of its chain. -/
theorem Adds.stores {b : ℕ} (hadds : Adds cfg s u chains b key value)
    (hb : b = bucketIndex cfg s.bucketCount key) (h : Inv cfg s chains)
    (hhonest : HonestCallbacks cfg.keyPolicy cfg.valuePolicy cfg.hashPolicy) :
    Stores cfg u key value := by
  have hentry := hadds.entry hhonest.key hhonest.value
  have hlt : b < u.bucketCount.toNat := by
    rw [hadds.count, hb]
    exact h.bucketIndex_lt key
  have hequal : cfg.hashPolicy.equal (u.keys.contents s.allocs) key = true := by
    rw [show u.keys.contents s.allocs = key from congrArg Prod.fst hentry]
    exact hhonest.refl key
  refine ⟨s.allocs, none, ?_, congrArg Prod.snd hentry⟩
  rw [hadds.count, ← hb]
  exact chainFind_head hadds.inv hlt (Function.update_self ..) hequal

/-- The values do not matter to a search. -/
theorem findLoop_withValues (cfg : ChainConfig w K V) (s : ChainMap w K V) (values : Cells ℕ V)
    (key : K) (rounds : ℕ) (prev node : Option ℕ) :
    findLoop cfg { s with values := values } key rounds prev node =
      findLoop cfg s key rounds prev node := by
  induction rounds generalizing prev node with
  | zero => cases node <;> rfl
  | succ rounds ih =>
    cases node with
    | none => rfl
    | some node =>
      rw [findLoop, findLoop]
      simp only [ih]

/-! ## One call -/

/-- A new node is added only if every copy succeeds. -/
theorem constructsOk_addNode (hok : (addNode cfg s b key value).1 = .ok) :
    ConstructsOk (allocChainNodeCopies cfg s key value) := by
  intro st hst
  unfold allocChainNodeCopies at hst
  unfold addNode allocChainNode at hok
  dsimp only at hst hok
  split at hst
  · cases hst
  · rename_i halloc
    rw [if_neg halloc] at hok
    split at hst
    · rename_i hkey
      rw [if_pos hkey] at hok
      exact absurd hok hkey
    · rename_i hkey
      rw [if_neg hkey] at hok
      simp only [List.mem_cons, construct.injEq, List.not_mem_nil, or_false] at hst
      rcases hst with rfl | rfl
      · exact not_not.mp hkey
      · by_contra hvalue
        rw [if_pos hvalue] at hok
        exact hvalue hok

/-- Nothing is assigned to a new node. -/
theorem assignsOk_allocChainNode (cfg : ChainConfig w K V) (s : ChainMap w K V) (key : K)
    (value : V) : AssignsOk (allocChainNodeCopies cfg s key value) := by
  intro st hst
  unfold allocChainNodeCopies at hst
  dsimp only at hst
  split at hst
  · cases hst
  · split at hst <;> simp at hst

/-- **`chain_put`** is truthful unless the copy over an old value fails. -/
theorem chainPut_truthful (h : Inv cfg s chains)
    (hhonest : HonestCallbacks cfg.keyPolicy cfg.valuePolicy cfg.hashPolicy) (key : K) (value : V) :
    ∃ st u chains', chainPut cfg s key value = some (st, u) ∧ Inv cfg u chains' ∧
      (Truthful (chainPutCopies cfg s key value) (some st) (Stores cfg u key value) ↔
        NoneDropped (chainPutCopies cfg s key value)) := by
  have hb := h.bucketIndex_lt key
  rcases chainFind_cases h hb key with ⟨as, node, bs, hfound, heq⟩ | ⟨hmissing, prev, heq⟩
  · -- a new value in the node
    have hput : chainPut cfg s key value =
        some (.ok, { s with values := s.values.copyAssign cfg.valuePolicy node value }) := by
      simp only [chainPut, heq, Option.map_some]
    have hcopies : chainPutCopies cfg s key value =
        [.assign (cfg.valuePolicy.droppedStatus s.values.copies (s.values.contents node) value)] := by
      simp only [chainPutCopies, heq]
    refine ⟨_, _, chains, hput, h.withCells _ _, ?_⟩
    rw [hcopies]
    refine Accounts.truthful_iff_noneDropped ⟨fun _ => constructsOk_assign, fun _ _ => rfl,
      fun _ hassigns => iff_of_true ?_ trivial, fun hnot => absurd trivial hnot⟩
    refine ⟨node, _, (findLoop_withValues cfg s _ key _ _ _).trans heq, ?_⟩
    show Function.update s.values.contents node _ node = value
    rw [Function.update_self]
    exact hhonest.value _ _ _ (assignsOk_assign.mp hassigns)
  · -- a new node
    obtain ⟨st, u, hadd, hcases⟩ := addNode_cases h hb key value
    have hput : chainPut cfg s key value = some (st, u) := by
      simp only [chainPut, heq, Option.map_some, hadd]
    have hcopies : chainPutCopies cfg s key value = allocChainNodeCopies cfg s key value := by
      simp only [chainPutCopies, heq]
    have hpassed : st = .ok → ConstructsOk (allocChainNodeCopies cfg s key value) := by
      intro hok
      refine constructsOk_addNode (b := bucketIndex cfg s.bucketCount key) ?_
      rw [hadd]
      exact hok
    have hassigns := assignsOk_allocChainNode cfg s key value
    rw [hcopies]
    -- the node is constructed, never assigned: a put that ends well has passed all its copies
    have hiff : (st = .ok → Stores cfg u key value) →
        (Truthful (allocChainNodeCopies cfg s key value) (some st) (Stores cfg u key value) ↔
          NoneDropped (allocChainNodeCopies cfg s key value)) := by
      intro hstores
      exact Accounts.truthful_iff_noneDropped ⟨fun hok => hpassed (Option.some.inj hok),
        fun _ hnot => absurd hassigns hnot,
        fun hok _ => iff_of_true (hstores (Option.some.inj hok)) trivial,
        fun hnot => absurd trivial hnot⟩
    rcases hcases with ⟨rfl, hadds⟩ | ⟨hst, hkeeps, -⟩
    · exact ⟨_, u, _, hput, hadds.inv, hiff fun _ => hadds.stores rfl h hhonest⟩
    · exact ⟨_, u, _, hput, hkeeps.inv, hiff fun hok => absurd hok hst⟩

/-- **`put`** is truthful unless the copy over an old value fails. -/
theorem put_truthful (h : Inv cfg s chains)
    (hhonest : HonestCallbacks cfg.keyPolicy cfg.valuePolicy cfg.hashPolicy) (key : K) (value : V) :
    ∃ st u chains', put cfg s (some key) (some value) = some (st, u) ∧ Inv cfg u chains' ∧
      (Truthful (putCopies cfg s (some key) (some value)) (some st) (Stores cfg u key value) ↔
        NoneDropped (putCopies cfg s (some key) (some value))) := by
  have hne : s.bucketCount ≠ 0 := by
    intro hzero
    have hpos := h.pos
    rw [hzero] at hpos
    simp at hpos
  unfold put putCopies
  simp only [if_neg hne]
  by_cases hgrow : shouldGrow cfg.growable s.bucketCount (BitVec.ofNat w s.size) = true
  · rw [if_pos hgrow, if_pos hgrow]
    rcases maybeGrow_cases h with ⟨t, chains₁, heq, hrelinks⟩ | ⟨st, hst, -, heq⟩
    · rw [heq]
      exact chainPut_truthful hrelinks.inv hhonest key value
    · rw [heq]
      simp only [if_pos hst]
      refine ⟨st, _, chains, rfl, h.requested, iff_of_true ?_ fun _ => assignsOk_nil⟩
      exact truthful_nil fun hok => absurd (Option.some.inj hok) hst
  · rw [if_neg hgrow, if_neg hgrow]
    exact chainPut_truthful h hhonest key value

/-- **`get`** is truthful unless the copy of the value fails. -/
theorem get_truthful (h : Inv cfg s chains) (hvalue : cfg.valuePolicy.Faithful) (key : K) (out : V) :
    ∃ st out' u, get cfg s (some key) (some out) = some ((st, some out'), u) ∧ Inv cfg u chains ∧
      (Truthful (chainGetCopies cfg s key out) (some st) (Stores cfg s key out') ↔
        NoneDropped (chainGetCopies cfg s key out)) := by
  rcases chainFind_cases h (h.bucketIndex_lt key) key with
    ⟨as, node, bs, hfound, heq⟩ | ⟨hmissing, prev, heq⟩
  · have hcopies : chainGetCopies cfg s key out =
        [.assign (cfg.valuePolicy.droppedStatus s.values.copies out (s.values.contents node))] := by
      simp only [chainGetCopies, heq]
    rw [hcopies]
    refine ⟨.ok, cfg.valuePolicy.copyAssign s.values.copies out (s.values.contents node), _,
      by simp only [get, chainGet, heq, Option.map_some]; rfl, h.withCells _ _, ?_⟩
    refine Accounts.truthful_iff_noneDropped ⟨fun _ => constructsOk_assign, fun _ _ => rfl,
      fun _ hassigns => iff_of_true ?_ trivial, fun hnot => absurd trivial hnot⟩
    exact ⟨node, _, heq, (hvalue _ _ _ (assignsOk_assign.mp hassigns)).symm⟩
  · have hcopies : chainGetCopies cfg s key out = [] := by
      simp only [chainGetCopies, heq]
    rw [hcopies]
    refine ⟨.notFound, out, s, by simp only [get, chainGet, heq, Option.map_some], h,
      iff_of_true (truthful_nil fun hok => ?_) fun _ => assignsOk_nil⟩
    cases hok

/-- Every call keeps the chains in order, whatever the copies return. -/
theorem inv_call (h : Inv cfg s chains)
    (hhonest : HonestCallbacks cfg.keyPolicy cfg.valuePolicy cfg.hashPolicy) (c : Call K V) :
    ∃ chains', Inv cfg (call cfg s c).2 chains' := by
  cases c with
  | put key value =>
    cases key with
    | none => exact ⟨chains, h⟩
    | some key =>
      cases value with
      | none => exact ⟨chains, h⟩
      | some value =>
        obtain ⟨st, u, chains', heq, hinv, -⟩ := put_truthful h hhonest key value
        simp only [call, heq, replyStatus]
        exact ⟨chains', hinv⟩
  | get key out =>
    cases key with
    | none => exact ⟨chains, h⟩
    | some key =>
      cases out with
      | none => exact ⟨chains, h⟩
      | some out =>
        obtain ⟨st, out', u, heq, hinv, -⟩ := get_truthful h hhonest.value key out
        simp only [call, heq]
        exact ⟨chains, hinv⟩
  | remove key =>
    cases key with
    | none => exact ⟨chains, h⟩
    | some key =>
      rcases chainRemove_cases h key with ⟨as, node, bs, u, -, heq, hdrops⟩ | ⟨-, heq⟩
      · simp only [call, remove, heq, replyStatus]
        exact ⟨_, hdrops.inv⟩
      · simp only [call, remove, heq, replyStatus]
        exact ⟨chains, h⟩
  | contains key => exact ⟨chains, h⟩
  | clear =>
    obtain ⟨u, heq, hinv, -, -⟩ := clear_cases h
    simp only [call, heq]
    exact ⟨_, hinv⟩
  | foreach visit => exact ⟨chains, h⟩

/-- **A call** is truthful exactly if no failure of a copy is dropped. -/
theorem truthfulCall_iff (h : Inv cfg s chains)
    (hhonest : HonestCallbacks cfg.keyPolicy cfg.valuePolicy cfg.hashPolicy) (c : Call K V) :
    TruthfulCall cfg s c ↔ NoneDropped (copyCalls cfg s c) := by
  -- the calls that copy nothing
  have hnothing : ∀ reply : Reply K V, (call cfg s c).1 = some reply → copyCalls cfg s c = [] →
      (reply.status? = some .ok → Done cfg s (call cfg s c).2 c reply) →
      (TruthfulCall cfg s c ↔ NoneDropped (copyCalls cfg s c)) := by
    intro reply hreply hcopies hdone
    refine iff_of_true ⟨reply, hreply, ?_⟩ ?_
    · rw [hcopies]
      exact truthful_nil hdone
    · rw [hcopies]
      exact fun _ => assignsOk_nil
  cases c with
  | put key value =>
    cases key with
    | none => exact hnothing _ rfl rfl nofun
    | some key =>
      cases value with
      | none => exact hnothing _ rfl rfl nofun
      | some value =>
        obtain ⟨st, u, chains', heq, -, hiff⟩ := put_truthful h hhonest key value
        have hcall : call cfg s (.put (some key) (some value)) = (some (.status st), u) := by
          simp only [call, heq, replyStatus]
        rw [← show putCopies cfg s (some key) (some value) =
          copyCalls cfg s (.put (some key) (some value)) from rfl, ← hiff, TruthfulCall, hcall]
        simp only [Option.some.injEq, exists_eq_left']
        rfl
  | get key out =>
    cases key with
    | none => exact hnothing _ rfl rfl nofun
    | some key =>
      cases out with
      | none => exact hnothing _ rfl rfl nofun
      | some out =>
        obtain ⟨st, out', u, heq, -, hiff⟩ := get_truthful h hhonest.value key out
        have hcall : call cfg s (.get (some key) (some out)) = (some (.value st (some out')), u) := by
          simp only [call, heq]
        rw [← show chainGetCopies cfg s key out = copyCalls cfg s (.get (some key) (some out))
          from rfl, ← hiff, TruthfulCall, hcall]
        simp only [Option.some.injEq, exists_eq_left']
        rfl
  | remove key =>
    cases key with
    | none => exact hnothing _ rfl rfl nofun
    | some key =>
      rcases chainRemove_cases h key with ⟨as, node, bs, u, -, heq, -⟩ | ⟨-, heq⟩
      · exact hnothing (.status .ok) (by simp only [call, remove, heq, replyStatus]) rfl
          fun _ => trivial
      · exact hnothing (.status .notFound) (by simp only [call, remove, heq, replyStatus])
          rfl fun _ => trivial
  | contains key =>
    cases key with
    | none => exact hnothing (.contains false) rfl rfl nofun
    | some key =>
      rcases chainFind_cases h (h.bucketIndex_lt key) key with
        ⟨as, node, bs, -, heq⟩ | ⟨-, prev, heq⟩
      · exact hnothing (.contains true)
          (by simp only [call, contains, chainContains, heq, Option.map_some, Option.isSome_some])
          rfl nofun
      · exact hnothing (.contains false)
          (by simp only [call, contains, chainContains, heq, Option.map_some, Option.isSome_none])
          rfl nofun
  | clear =>
    obtain ⟨u, heq, -⟩ := clear_cases h
    exact hnothing .done (by simp only [call, heq]) rfl nofun
  | foreach visit =>
    exact hnothing _ (by simp only [call, foreach_eq h visit, Option.map_some]; rfl) rfl
      fun _ => trivial

/-- **After any calls**, whatever the callbacks return, a call is truthful exactly if no failure of a
copy is dropped. -/
theorem truthfulCall_reachable_iff (cfg : ChainConfig w K V)
    (hhonest : HonestCallbacks cfg.keyPolicy cfg.valuePolicy cfg.hashPolicy)
    (links : ℕ → Option ℕ) (keyMemory : ℕ → K) (valueMemory : ℕ → V) (calls : List (Call K V))
    (c : Call K V) :
    TruthfulCall cfg (Mealy.final (call cfg) (init cfg links keyMemory valueMemory) calls) c ↔
      NoneDropped
        (copyCalls cfg (Mealy.final (call cfg) (init cfg links keyMemory valueMemory) calls) c) := by
  obtain ⟨chains, h⟩ := (Mealy.everyCall_true _ calls).final_invariant
    (fun s => ∃ chains, Inv cfg s chains) (fun s c ⟨chains, h⟩ _ => inv_call h hhonest c)
    ⟨_, (inv_init cfg links keyMemory valueMemory).1⟩
  exact truthfulCall_iff h hhonest c

end ChainMap

end Memkit
