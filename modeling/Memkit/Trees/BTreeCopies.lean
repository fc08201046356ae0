import Memkit.Core.CopyCalls
import Memkit.Trees.BTreeRefinement

/-! # The copies of the tree

Which copy callbacks the calls of `btree_map_core` run, and when their statuses are truthful: an
element that is put over an equivalent one is copied by `copy_assign`, whose status nobody sees.
Nothing is assumed of the order of the elements: a copy that fails may leave any element behind. -/

namespace Memkit

open LinkedTree NodeView CopyCall

namespace BTree

variable {V : Type*} {cfg : BTreeConfig V} {s u : BTree V} {t sub : BinaryTree ℕ} {free as bs : List ℕ}
  {slot : ℕ} {k : Link ℕ} {elem key : V} {n m : ℕ}

/-- The callbacks that `make_node` runs. -/
def makeNodeCopies (cfg : BTreeConfig V) (s : BTree V) (elem : V) : List CopyCall :=
  match acquireNode cfg s with
  | (.error _, _) => []
  | (.ok slot, s) => [.construct (s.cells.copyConstruct cfg.policy slot elem).1]

/-- The callbacks that `insert` runs. -/
def insertCopies (cfg : BTreeConfig V) (s : BTree V) (elem : V) : List CopyCall :=
  match s.readLink (endLink cfg s elem (rounds cfg s) .root) with
  | none => makeNodeCopies cfg s elem
  | some node =>
    [.assign (cfg.policy.droppedStatus s.cells.copies (s.cells.contents node) elem)]

/-- The callbacks that `remove_node` runs once the target is found. -/
def removeTargetCopies (cfg : BTreeConfig V) (s : BTree V) (target : ℕ) : List CopyCall :=
  if s.left target ≠ none ∧ s.right target ≠ none then
    match succLinkLoop s (rounds cfg s) (.right target) with
    | none => []
    | some succLink =>
      match s.readLink succLink with
      | none => []
      | some successor =>
        [.construct (s.cells.copyConstruct cfg.policy target (s.cells.contents successor)).1]
  else []

/-- The callbacks that `remove` runs. -/
def removeCopies (cfg : BTreeConfig V) (s : BTree V) (key : V) : List CopyCall :=
  match s.readLink (endLink cfg s key (rounds cfg s) .root) with
  | none => []
  | some target => removeTargetCopies cfg s target

/-- The callbacks that a call runs. -/
def copyCalls (cfg : BTreeConfig V) (s : BTree V) : Call V → List CopyCall
  | .insert (some elem) => insertCopies cfg s elem
  | .insert none => []
  | .remove (some key) => removeCopies cfg s key
  | .remove none => []
  | .get _ _ => []
  | .contains _ => []
  | .clear => []
  | .peekMin _ => []
  | .peekMax _ => []
  | .foreach _ => []

/-- A search for `elem` ends at a node that holds it. -/
def Stores (cfg : BTreeConfig V) (s : BTree V) (elem : V) : Prop :=
  ∃ node, findNode cfg s elem = some (some node) ∧ s.cells.contents node = elem

/-- The status in a reply. -/
def Reply.status? : Reply V → Option Status
  | .status result => some result
  | .value result _ => some result
  | .contains _ => none
  | .visits result _ => some result
  | .done => none

/-- What a call is for is done: an insertion stored its element. -/
def Done (cfg : BTreeConfig V) (u : BTree V) : Call V → Prop
  | .insert (some elem) => Stores cfg u elem
  | _ => True

/-- The call returns, and its status is truthful. -/
def TruthfulCall (cfg : BTreeConfig V) (s : BTree V) (c : Call V) : Prop :=
  ∃ reply, (call cfg s c).1 = some reply ∧
    Truthful (copyCalls cfg s c) reply.status? (Done cfg (call cfg s c).2 c)

/-- What the callbacks of a tree promise: a copy that reports ok has copied, and an element compares
as equal to itself. -/
structure Honest (cfg : BTreeConfig V) : Prop where
  policy : cfg.policy.Faithful
  refl : ∀ a, cfg.compare a a = 0

/-! ## Where searches end -/

/-- A search goes on below the end of a search that was made before nodes were changed there. -/
theorem findLoop_of_locate (h : Spells s.readLink k t)
    (hlinks : ∀ l, s.readLink l ≠ none → u.readLink l = s.readLink l)
    (hdir : ∀ a ∈ inorder t, direction cfg u key a = direction cfg s key a) {r : Option ℕ}
    (hend : ∀ n, (locate (direction cfg s key) k t).2.height + m ≤ n →
      findLoop cfg u key n (u.readLink (locate (direction cfg s key) k t).1) = some r)
    (hn : t.height + m ≤ n) : findLoop cfg u key n (u.readLink k) = some r := by
  induction t generalizing k n with
  | nil => exact hend n hn
  | node a tl tr ihl ihr =>
    obtain ⟨hroot, hl, hr⟩ := h
    have hread : u.readLink k = some a := (hlinks k (by rw [hroot]; simp)).trans hroot
    have hsame : cfg.compare key (u.cells.contents a) = direction cfg s key a := hdir a (by simp)
    have hheight : (BinaryTree.node a tl tr).height = max tl.height tr.height + 1 := rfl
    cases n with
    | zero => omega
    | succ n =>
      rw [locate] at hend
      by_cases hzero : direction cfg s key a = 0
      · rw [if_pos hzero] at hend
        exact hend _ hn
      rw [if_neg hzero] at hend
      rw [hread, findLoop, hsame]
      simp only [if_neg hzero]
      by_cases hneg : direction cfg s key a < 0
      · rw [if_pos hneg] at hend
        rw [if_pos hneg]
        exact ihl hl (fun b hb => hdir b (by simp [hb])) hend (by omega)
      · rw [if_neg hneg] at hend
        rw [if_neg hneg]
        exact ihr hr (fun b hb => hdir b (by simp [hb])) hend (by omega)

/-- A node with an equal element is found at once. -/
theorem findLoop_self (hread : u.readLink k = some slot)
    (hzero : cfg.compare key (u.cells.contents slot) = 0) :
    ∀ n, 1 ≤ n → findLoop cfg u key n (u.readLink k) = some (some slot) := by
  intro n hn
  cases n with
  | zero => cases hn
  | succ n => rw [hread, findLoop, if_pos hzero]

/-! ## Inserting -/

/-- A leaf is added only if its copy succeeds. -/
theorem constructsOk_makeNode (hok : makeNode cfg s elem = (.ok slot, u)) :
    ConstructsOk (makeNodeCopies cfg s elem) := by
  unfold makeNode at hok
  unfold makeNodeCopies
  generalize acquireNode cfg s = r at hok ⊢
  obtain ⟨result, v⟩ := r
  cases result with
  | error st => exact constructsOk_nil
  | ok slot =>
    intro st hst
    simp only [List.mem_singleton, construct.injEq] at hst
    subst hst
    by_contra hne
    simp only [ne_eq, hne, not_false_eq_true, if_true] at hok
    cases congrArg Prod.fst hok

/-- **A new leaf** is found, and its copy succeeded. -/
theorem insertHere_stores (h : Inv cfg s t free) (hhonest : Honest cfg)
    (hfocus : Focus .root t k .nil as bs)
    (hlocate : locate (direction cfg s elem) .root t = (k, .nil))
    (hok : (insertHere cfg s k elem).1.1 = .ok) :
    ConstructsOk (makeNodeCopies cfg s elem) ∧
      Stores cfg (countInserted (insertHere cfg s k elem)) elem := by
  have hinserts := insertHere_cases h hfocus elem
  have hinorder : inorder t = as ++ bs := by simpa using hfocus.inorder_eq
  -- the new tree bounds the depth of a search
  obtain ⟨t', free', hinv', hinorder'⟩ : ∃ t' free',
      Inv cfg (countInserted (insertHere cfg s k elem)) t' free' ∧
        (inorder t').length = (inorder t).length + 1 := by
    rcases hinserts with ⟨hst, -⟩ | ⟨slot, -, hadded, -⟩
    · exact absurd hok hst
    · obtain ⟨t', free', hinv', heq⟩ := hadded.shape
      refine ⟨t', free', hinv', ?_⟩
      rw [heq, hinorder]
      simp only [List.length_append, List.length_cons]
      omega
  have hrounds : t.height + 1 ≤ rounds cfg (countInserted (insertHere cfg s k elem)) := by
    have hle := hinv'.shape.apart.length_le
    rw [List.append_nil, hinorder'] at hle
    exact (Nat.succ_le_succ (LinkedTree.height_le t)).trans hle
  clear hinserts hinv' hinorder'
  unfold insertHere at hok hrounds ⊢
  rcases makeNode_cases h elem with
    ⟨st, v, -, heq, hst, -⟩ | ⟨slot, v, free'', heq, hshape, hleft, hright, -, hcontents, hvalue, -⟩
  · rw [heq] at hok
    exact absurd hok hst
  refine ⟨constructsOk_makeNode heq, ?_⟩
  rw [heq] at hrounds ⊢
  have hcount : countInserted ((.ok, true), v.writeLink k (some slot)) =
      { v.writeLink k (some slot) with size := (v.writeLink k (some slot)).size + 1 } :=
    if_pos ⟨rfl, rfl⟩
  have hlinks : (countInserted ((.ok, true), v.writeLink k (some slot))).readLink =
      Function.update v.readLink k (some slot) := by
    rw [hcount, ← readLink_writeLink]
    funext l
    cases l <;> rfl
  have hcells : (countInserted ((.ok, true), v.writeLink k (some slot))).cells = v.cells := by
    rw [hcount]
    exact cells_writeLink v k (some slot)
  -- the search goes down the same links as before, and finds the leaf
  have hdir : ∀ a ∈ inorder t, direction cfg v elem a = direction cfg s elem a := fun a ha =>
    congrArg (cfg.compare elem) (hcontents a ha)
  have hlocate' : locate (direction cfg v elem) .root t = (k, .nil) :=
    (locate_congr hdir .root).trans hlocate
  have hnull : v.readLink k = none := hfocus.spells hshape.spells
  dsimp only at hrounds ⊢
  generalize countInserted ((.ok, true), v.writeLink k (some slot)) = w at hrounds hlinks hcells ⊢
  refine ⟨slot, ?_, ?_⟩
  · refine findLoop_of_locate hshape.spells (fun l hl => ?_) (fun a _ => ?_) ?_ hrounds
    · rw [hlinks]
      refine Function.update_of_ne ?_ _ _
      rintro rfl
      exact hl hnull
    · rw [direction, direction, hcells]
    · rw [hlocate']
      refine fun n hn => findLoop_self ?_ ?_ n (le_trans (Nat.le_add_left 1 _) hn)
      · rw [hlinks, Function.update_self]
      · rw [hcells, hvalue hhonest.policy]
        exact hhonest.refl elem
  · rw [hcells]
    exact hvalue hhonest.policy

/-- **An element put over another** is found if its copy succeeded. -/
theorem copyAssign_stores (h : Inv cfg s t free) (hhonest : Honest cfg)
    {tl tr : BinaryTree ℕ} (hlocate : locate (direction cfg s elem) .root t = (k, .node slot tl tr))
    (hread : s.readLink k = some slot) (hzero : direction cfg s elem slot = 0)
    (hok : cfg.policy.droppedStatus s.cells.copies (s.cells.contents slot) elem = .ok) :
    Stores cfg { s with cells := s.cells.copyAssign cfg.policy slot elem } elem := by
  have hself : (s.cells.copyAssign cfg.policy slot elem).contents slot = elem := by
    show Function.update s.cells.contents slot _ slot = elem
    rw [Function.update_self]
    exact hhonest.policy _ _ _ hok
  have hlinks := readLink_withCells s (s.cells.copyAssign cfg.policy slot elem)
  refine ⟨slot, ?_, hself⟩
  refine findLoop_of_locate (m := 0) h.shape.spells (fun l _ => congrFun hlinks l) (fun a _ => ?_) ?_
    h.height_le
  · by_cases ha : a = slot
    · rw [ha, hzero, direction]
      exact (congrArg (cfg.compare elem) hself).trans (hhonest.refl elem)
    · exact congrArg (cfg.compare elem) (Function.update_of_ne ha _ _)
  · rw [hlocate]
    have hone : 1 ≤ (BinaryTree.node slot tl tr).height := Nat.le_add_left 1 _
    refine fun n hn => findLoop_self ((congrFun hlinks k).trans hread) ?_ n (hone.trans hn)
    exact (congrArg (cfg.compare elem) hself).trans (hhonest.refl elem)

/-- **`insert`** is truthful unless the copy over an old element fails. -/
theorem insert_truthful (h : Inv cfg s t free) (hhonest : Honest cfg) (elem : V) :
    ∃ st u, BTree.insert cfg s (some elem) = some (st, u) ∧ (∃ t' free', Inv cfg u t' free') ∧
      (Truthful (insertCopies cfg s elem) (some st) (Stores cfg u elem) ↔
        NoneDropped (insertCopies cfg s elem)) := by
  obtain ⟨as, bs, hfocus, hend⟩ := locate_ends (direction cfg s elem) t .root
  obtain ⟨hleaf, hover⟩ := insert_at h hfocus rfl
  have hlink := endLink_eq cfg elem h.shape.spells h.height_le
  have hspells := hfocus.spells h.shape.spells
  have hlocate : locate (direction cfg s elem) .root t =
    ((locate (direction cfg s elem) .root t).1, (locate (direction cfg s elem) .root t).2) := rfl
  unfold insertCopies
  rw [hlink]
  generalize (locate (direction cfg s elem) .root t).1 = k at hfocus hleaf hspells hlocate ⊢
  generalize (locate (direction cfg s elem) .root t).2 = sub at hfocus hend hleaf hover hspells hlocate
  rcases hend with rfl | ⟨slot, tl, tr, rfl, hzero⟩
  · -- a leaf
    have hnull : s.readLink k = none := hspells
    have hassigns : AssignsOk (makeNodeCopies cfg s elem) := by
      intro st hst
      unfold makeNodeCopies at hst
      split at hst
      · cases hst
      · simp at hst
    rw [hnull]
    refine ⟨_, _, hleaf rfl, ?_, Accounts.truthful_iff_noneDropped ⟨fun hok => ?_,
      fun _ hnot => absurd hassigns hnot, fun hok _ => iff_of_true ?_ trivial,
      fun hnot => absurd trivial hnot⟩⟩
    · rcases insertHere_cases h hfocus elem with ⟨-, hkept, -⟩ | ⟨slot, -, hadded, -⟩
      · obtain ⟨t', free', hinv, -⟩ := hkept.shape
        exact ⟨t', free', hinv⟩
      · obtain ⟨t', free', hinv, -⟩ := hadded.shape
        exact ⟨t', free', hinv⟩
    · exact (insertHere_stores h hhonest hfocus hlocate (Option.some.inj hok)).1
    · exact (insertHere_stores h hhonest hfocus hlocate (Option.some.inj hok)).2
  · -- over the element of a node
    rw [hspells.1]
    refine ⟨_, _, hover slot tl tr rfl hzero, ⟨t, free, h.shape.withCells _, h.size_eq⟩,
      Accounts.truthful_iff_noneDropped ⟨fun _ => constructsOk_assign, fun _ _ => rfl,
        fun _ hassigns => iff_of_true ?_ trivial, fun hnot => absurd trivial hnot⟩⟩
    exact copyAssign_stores h hhonest hlocate hspells.1 hzero (assignsOk_assign.mp hassigns)

/-! ## Removing -/

/-- Nothing is assigned by a removal. -/
theorem assignsOk_removeTarget (cfg : BTreeConfig V) (s : BTree V) (target : ℕ) :
    AssignsOk (removeTargetCopies cfg s target) := by
  intro st hst
  unfold removeTargetCopies at hst
  split at hst
  · split at hst
    · cases hst
    · split at hst
      · cases hst
      · simp at hst
  · cases hst

/-- A target with two children is replaced only if the copy of its successor succeeds. -/
theorem constructsOk_removeTarget
    (hok : (removeTarget cfg s k slot).map (fun r => r.1.1) = some .ok) :
    ConstructsOk (removeTargetCopies cfg s slot) := by
  unfold removeTarget at hok
  unfold removeTargetCopies
  by_cases htwo : s.left slot ≠ none ∧ s.right slot ≠ none
  swap
  · rw [if_neg htwo]
    exact constructsOk_nil
  rw [if_pos htwo] at hok ⊢
  cases hloop : succLinkLoop s (rounds cfg s) (.right slot) with
  | none => exact constructsOk_nil
  | some succLink =>
    simp only [hloop] at hok ⊢
    cases hread : s.readLink succLink with
    | none => exact constructsOk_nil
    | some successor =>
      simp only [hread, Option.map_some, Option.some.injEq] at hok
      intro st hst
      simp only [List.mem_singleton, construct.injEq] at hst
      subst hst
      by_contra hne
      have hfailed : ((s.writeLink succLink (s.right successor)).cells.copyConstruct cfg.policy slot
          ((s.writeLink succLink (s.right successor)).cells.contents successor)).1 ≠ .ok := by
        rw [cells_writeLink]
        exact hne
      dsimp only [replaceBySuccessor] at hok
      rw [if_pos hfailed] at hok
      exact hfailed hok

/-- **`remove`** is always truthful: its copy is a `copy_construct`. -/
theorem remove_truthful (h : Inv cfg s t free) (key : V) :
    ∃ st u, remove cfg s (some key) = some (st, u) ∧ (∃ t' free', Inv cfg u t' free') ∧
      Truthful (removeCopies cfg s key) (some st) True ∧ NoneDropped (removeCopies cfg s key) := by
  obtain ⟨as, bs, hfocus, hend⟩ := locate_ends (direction cfg s key) t .root
  obtain ⟨hmissing, hfound⟩ := remove_at h hfocus rfl
  have hlink := endLink_eq cfg key h.shape.spells h.height_le
  have hspells := hfocus.spells h.shape.spells
  unfold removeCopies
  rw [hlink]
  generalize (locate (direction cfg s key) .root t).1 = k at hfocus hfound hspells ⊢
  generalize (locate (direction cfg s key) .root t).2 = sub at hfocus hend hmissing hfound hspells
  rcases hend with rfl | ⟨slot, tl, tr, rfl, hzero⟩
  · have hnull : s.readLink k = none := hspells
    rw [hnull]
    exact ⟨_, _, hmissing rfl, ⟨t, free, h⟩, truthful_nil nofun, fun _ => assignsOk_nil⟩
  · obtain ⟨st, u, hremove, hstatus, hremoves⟩ := hfound slot tl tr rfl hzero
    have hassigns := assignsOk_removeTarget cfg s slot
    have hconstructs : st = .ok → ConstructsOk (removeTargetCopies cfg s slot) := by
      rintro rfl
      exact constructsOk_removeTarget hstatus
    rw [hspells.1]
    refine ⟨st, u, hremove, ?_, ⟨fun hfailed hok => ?_, fun _ => trivial⟩, fun _ => hassigns⟩
    · rcases hremoves with ⟨-, -, hremoved⟩ | ⟨-, -, -, hrestored⟩ | ⟨succ, cs, -, -, -, -, htook⟩
      · obtain ⟨t', free', hinv, -⟩ := hremoved.shape
        exact ⟨t', free', hinv⟩
      · obtain ⟨t', free', hinv, -⟩ := hrestored.shape
        exact ⟨t', free', hinv⟩
      · obtain ⟨t', free', hinv, -⟩ := htook.shape
        exact ⟨t', free', hinv⟩
    · exact status_ok (hconstructs (Option.some.inj hok)) hassigns hfailed

/-! ## One call -/

/-- **A call** is truthful exactly if no failure of a copy is dropped, and the tree stays in
shape. -/
theorem call_truthful (h : Inv cfg s t free) (hhonest : Honest cfg) (c : Call V) :
    (∃ t' free', Inv cfg (call cfg s c).2 t' free') ∧
      (TruthfulCall cfg s c ↔ NoneDropped (copyCalls cfg s c)) := by
  -- the calls that read, or have nothing to do
  have hreads : ∀ reply : Reply V, call cfg s c = (some reply, s) → copyCalls cfg s c = [] →
      (reply.status? = some .ok → Done cfg s c) →
      (∃ t' free', Inv cfg (call cfg s c).2 t' free') ∧
        (TruthfulCall cfg s c ↔ NoneDropped (copyCalls cfg s c)) := by
    intro reply hcall hcopies hdone
    unfold TruthfulCall
    rw [hcall, hcopies]
    exact ⟨⟨t, free, h⟩, iff_of_true ⟨reply, rfl, truthful_nil hdone⟩ fun _ => assignsOk_nil⟩
  have hfind : ∀ key, ∃ node, findNode cfg s key = some node := fun key =>
    ⟨_, findLoop_eq cfg key h.shape.spells h.height_le⟩
  cases c with
  | insert elem =>
    cases elem with
    | none => exact hreads _ rfl rfl (by rintro ⟨⟩)
    | some elem =>
      obtain ⟨st, u, heq, hinv, hiff⟩ := insert_truthful h hhonest elem
      have hcall : call cfg s (.insert (some elem)) = (some (.status st), u) := by
        simp only [call, heq, replyStatus]
      rw [← show insertCopies cfg s elem = copyCalls cfg s (.insert (some elem)) from rfl, ← hiff,
        TruthfulCall, hcall]
      refine ⟨hinv, ?_⟩
      simp only [Option.some.injEq, exists_eq_left']
      rfl
  | get key out =>
    cases key with
    | none => exact hreads _ rfl rfl (by rintro ⟨⟩)
    | some key =>
      cases out with
      | none => exact hreads _ rfl rfl (by rintro ⟨⟩)
      | some out =>
        obtain ⟨node, heq⟩ := hfind key
        exact hreads _ (by simp only [call, get, heq, Option.map_some]; rfl) rfl fun _ => trivial
  | contains key =>
    cases key with
    | none => exact hreads _ rfl rfl (by rintro ⟨⟩)
    | some key =>
      obtain ⟨node, heq⟩ := hfind key
      exact hreads _ (by simp only [call, contains, heq, Option.map_some]; rfl) rfl fun _ => trivial
  | remove key =>
    cases key with
    | none => exact hreads _ rfl rfl (by rintro ⟨⟩)
    | some key =>
      obtain ⟨st, u, heq, hinv, htruthful, hnone⟩ := remove_truthful h key
      have hcall : call cfg s (.remove (some key)) = (some (.status st), u) := by
        simp only [call, heq, replyStatus]
      unfold TruthfulCall
      rw [hcall]
      exact ⟨hinv, iff_of_true ⟨_, rfl, htruthful⟩ hnone⟩
  | clear =>
    obtain ⟨u, free', heq, hinv, -⟩ := clear_cases h
    have hcall : call cfg s .clear = (some .done, u) := by
      simp only [call, heq]
    unfold TruthfulCall
    rw [hcall]
    exact ⟨⟨_, _, hinv⟩, iff_of_true ⟨_, rfl, truthful_nil (by rintro ⟨⟩)⟩ fun _ => assignsOk_nil⟩
  | peekMin out =>
    exact hreads _ (by simp only [call, h.peekMin, Option.map_some]; rfl) rfl fun _ => trivial
  | peekMax out =>
    exact hreads _ (by simp only [call, h.peekMax, Option.map_some]; rfl) rfl fun _ => trivial
  | foreach visit =>
    have heq : foreach cfg s .inorder visit = _ :=
      traverseNode_eq .inorder visit h.shape.spells h.height_le
    exact hreads _ (by simp only [call, heq, Option.map_some]; rfl) rfl fun _ => trivial

/-- **After any calls**, whatever the callbacks return, a call is truthful exactly if no failure of a
copy is dropped. -/
theorem truthfulCall_reachable_iff (cfg : BTreeConfig V) (hhonest : Honest cfg)
    (links : ℕ → Option ℕ) (memory : ℕ → V) (calls : List (Call V)) (c : Call V) :
    TruthfulCall cfg (Mealy.final (call cfg) (init cfg links memory) calls) c ↔
      NoneDropped (copyCalls cfg (Mealy.final (call cfg) (init cfg links memory) calls) c) := by
  have hcalls : Mealy.EveryCall (call cfg) (fun _ _ => True) (init cfg links memory) calls :=
    Mealy.everyCall_true _ calls
  obtain ⟨t, free, h⟩ := hcalls.final_invariant (fun s => ∃ t free, Inv cfg s t free)
    (fun s c ⟨t, free, h⟩ _ => (call_truthful h hhonest c).1) ⟨_, inv_init cfg links memory⟩
  exact (call_truthful h hhonest c).2

end BTree

end Memkit
