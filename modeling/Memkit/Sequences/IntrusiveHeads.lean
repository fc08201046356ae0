import Memkit.Foundations.Transition
import Memkit.Timing.IntrusiveList

/-! # Intrusive list heads

The two list heads of `detail/intrusive_hook.hpp`, with any number of heads over any set of nodes.

* **`CircularHub`** — the hooks of all sentinels and nodes of circular lists, beside the nodes that
  were pushed to each head and not removed since. `CircularHub.WellFormed` compares the two.
  `clear` resets the sentinel only, so a well-formed hub stays well formed exactly as long as no
  `clear` meets a list with nodes.
* **`ForwardHub`** — the same for forward lists, whose `is_linked` asks for a successor. The last
  node of a list has none, so a forward hub is well formed exactly until the first `push_front`. -/

namespace Memkit

variable {H N : Type*} [DecidableEq H] [DecidableEq N]

open LinkedChain

/-! ## Circular lists -/

/-- Hooks of sentinels and nodes, and the nodes that each list should hold. -/
structure CircularHub (H N : Type*) where
  hooks : Hooks (H ⊕ N)
  lists : H → List N

namespace CircularHub

/-- An operation on the list with the given head. `erase` does not look at its list. -/
inductive Call (H N : Type*)
  | pushFront (head : H) (node : N)
  | pushBack (head : H) (node : N)
  | erase (node : N)
  | clear (head : H)
  deriving DecidableEq

/-- Default-constructed hooks and heads. -/
def start : CircularHub H N := ⟨⟨id, id⟩, fun _ => []⟩

/-- One operation. -/
def call (s : CircularHub H N) : Call H N → Unit × CircularHub H N
  | .pushFront head node =>
    ((), ⟨s.hooks.pushFront (.inl head) (.inr node),
      Function.update s.lists head (node :: s.lists head)⟩)
  | .pushBack head node =>
    ((), ⟨s.hooks.pushBack (.inl head) (.inr node),
      Function.update s.lists head (s.lists head ++ [node])⟩)
  | .erase node => ((), ⟨s.hooks.erase (.inr node), fun head => (s.lists head).erase node⟩)
  | .clear head => ((), ⟨s.hooks.init (.inl head), Function.update s.lists head []⟩)

/-- What is asked of the hooks between operations. -/
structure WellFormed (s : CircularHub H N) : Prop where
  /-- Each head reaches the nodes pushed to it and not removed since, in order. -/
  reaches : ∀ head, s.hooks.Ring (.inl head) ((s.lists head).map .inr)
  /-- The two links of a hook undo each other. -/
  inverse : ∀ hook, s.hooks.prev (s.hooks.next hook) = hook ∧ s.hooks.next (s.hooks.prev hook) = hook
  nodup : ∀ head, (s.lists head).Nodup
  /-- No node is on two lists. -/
  apart : ∀ head head', head ≠ head' → (s.lists head).Disjoint (s.lists head')
  /-- A node is linked exactly when some head reaches it. -/
  linked_iff : ∀ node, s.hooks.isLinked (.inr node) = true ↔ ∃ head, node ∈ s.lists head

/-- A node is pushed only when its `is_linked` test is false. -/
def PushesUnlinked (s : CircularHub H N) : Call H N → Prop
  | .pushFront _ node => s.hooks.isLinked (.inr node) = false
  | .pushBack _ node => s.hooks.isLinked (.inr node) = false
  | _ => True

instance (s : CircularHub H N) (c : Call H N) : Decidable (PushesUnlinked s c) :=
  match c with
  | .pushFront _ _ => inferInstanceAs (Decidable (_ = _))
  | .pushBack _ _ => inferInstanceAs (Decidable (_ = _))
  | .erase _ => isTrue trivial
  | .clear _ => isTrue trivial

/-- The list that `clear` meets is empty. -/
def ClearsEmpty (s : CircularHub H N) : Call H N → Prop
  | .clear head => s.hooks.empty (.inl head) = true
  | _ => True

instance (s : CircularHub H N) (c : Call H N) : Decidable (ClearsEmpty s c) :=
  match c with
  | .pushFront _ _ => isTrue trivial
  | .pushBack _ _ => isTrue trivial
  | .erase _ => isTrue trivial
  | .clear _ => inferInstanceAs (Decidable (_ = _))

variable {s : CircularHub H N} {head : H} {node : N}

namespace WellFormed

/-- The hooks of a list with its sentinel are distinct. -/
theorem nodup_ring (hwf : WellFormed s) (head : H) :
    ((Sum.inl head : H ⊕ N) :: (s.lists head).map .inr).Nodup := by
  apply List.nodup_cons.mpr
  exact ⟨by simp, (hwf.nodup head).map Sum.inr_injective⟩

/-- A node on no list is linked to itself, both ways. -/
theorem idle (hwf : WellFormed s) (hnode : ∀ head, node ∉ s.lists head) :
    s.hooks.next (.inr node) = .inr node ∧ s.hooks.prev (.inr node) = .inr node := by
  have hunlinked : ¬ s.hooks.isLinked (.inr node) = true := by
    rw [hwf.linked_iff]
    rintro ⟨head, hmem⟩
    exact hnode head hmem
  have hnext : s.hooks.next (.inr node) = .inr node := by
    simpa [Hooks.isLinked] using hunlinked
  have hback := (hwf.inverse (.inr node)).1
  rw [hnext] at hback
  exact ⟨hnext, hback⟩

/-- The hooks of another list are other hooks. -/
theorem not_mem_other (hwf : WellFormed s) {head' : H} {hook : H ⊕ N} (hne : head' ≠ head)
    (hhook : hook ∈ (Sum.inl head' : H ⊕ N) :: (s.lists head').map .inr) :
    hook ∉ (Sum.inl head : H ⊕ N) :: (s.lists head).map .inr := by
  cases hook with
  | inl h =>
    obtain rfl : h = head' := by simpa using hhook
    simpa using hne
  | inr x =>
    have hx : x ∈ s.lists head' := by simpa using hhook
    intro hmem
    have hx' : x ∈ s.lists head := by simpa using hmem
    exact hwf.apart _ _ hne hx hx'

/-- A node that `is_linked` denies is on no list. -/
theorem not_mem (hwf : WellFormed s) (hunlinked : s.hooks.isLinked (.inr node) = false) (head : H) :
    node ∉ s.lists head := by
  intro hmem
  have hlinked := (hwf.linked_iff node).mpr ⟨head, hmem⟩
  rw [hunlinked] at hlinked
  cases hlinked

end WellFormed

/-- Lists that are spelt out by their hooks, share no node and leave the other nodes linked to
themselves are well formed. -/
theorem wellFormed_of_rings (reaches : ∀ head, s.hooks.Ring (.inl head) ((s.lists head).map .inr))
    (nodup : ∀ head, (s.lists head).Nodup)
    (apart : ∀ head head', head ≠ head' → (s.lists head).Disjoint (s.lists head'))
    (idle : ∀ node, (∀ head, node ∉ s.lists head) →
      s.hooks.next (.inr node) = .inr node ∧ s.hooks.prev (.inr node) = .inr node) :
    WellFormed s where
  reaches := reaches
  nodup := nodup
  apart := apart
  inverse := by
    -- each hook is in the ring of some head, or linked to itself
    have key : ∀ hook : H ⊕ N, (∃ head, hook ∈ (Sum.inl head : H ⊕ N) :: (s.lists head).map .inr) ∨
        s.hooks.next hook = hook ∧ s.hooks.prev hook = hook := by
      rintro (head | node)
      · exact .inl ⟨head, List.mem_cons_self⟩
      · by_cases hnode : ∃ head, node ∈ s.lists head
        · obtain ⟨head, hmem⟩ := hnode
          exact .inl ⟨head, List.mem_cons_of_mem _ (List.mem_map_of_mem hmem)⟩
        · exact .inr (idle node (not_exists.mp hnode))
    intro hook
    rcases key hook with ⟨head, hmem⟩ | ⟨hnext, hprev⟩
    · refine ⟨(reaches head).prev_next hmem, ?_⟩
      exact (reaches head).mirror.prev_next (by simpa using hmem)
    · exact ⟨by rw [hnext, hprev], by rw [hprev, hnext]⟩
  linked_iff := by
    intro node
    constructor
    · intro hlinked
      by_contra hnode
      have hnext := (idle node (not_exists.mp hnode)).1
      simp [Hooks.isLinked, hnext] at hlinked
    · rintro ⟨head, hmem⟩
      apply (reaches head).isLinked _ (List.mem_map_of_mem hmem)
      exact List.nodup_cons.mpr ⟨by simp, (nodup head).map Sum.inr_injective⟩

/-! ### One operation -/

/-- Putting a node on a list, at whichever end, keeps the hub well formed. -/
theorem WellFormed.insert (hwf : WellFormed s) (hnode : ∀ head, node ∉ s.lists head)
    {hooks : Hooks (H ⊕ N)} {xs : List N} (hperm : xs.Perm (node :: s.lists head))
    (hring : hooks.Ring (.inl head) (xs.map .inr))
    (hframe : ∀ hook, hook ≠ .inr node →
      hook ∉ (Sum.inl head : H ⊕ N) :: (s.lists head).map .inr →
      hooks.next hook = s.hooks.next hook ∧ hooks.prev hook = s.hooks.prev hook) :
    WellFormed ⟨hooks, Function.update s.lists head xs⟩ := by
  apply wellFormed_of_rings
  · intro head'
    by_cases hne : head' = head
    · subst hne
      simpa only [Function.update_self] using hring
    · simp only [Function.update_of_ne hne]
      -- the other rings have none of the hooks that were written
      have hother : ∀ hook ∈ (Sum.inl head' : H ⊕ N) :: (s.lists head').map .inr,
          hooks.next hook = s.hooks.next hook ∧ hooks.prev hook = s.hooks.prev hook := by
        intro hook hmem
        refine hframe hook ?_ (hwf.not_mem_other hne hmem)
        rintro rfl
        exact hnode head' (by simpa using hmem)
      exact (hwf.reaches head').congr (fun y hy => (hother y hy).1) fun y hy => (hother y hy).2
  · intro head'
    by_cases hne : head' = head
    · subst hne
      simp only [Function.update_self]
      exact hperm.nodup_iff.mpr (List.nodup_cons.mpr ⟨hnode head', hwf.nodup head'⟩)
    · simpa only [Function.update_of_ne hne] using hwf.nodup head'
  · -- the node joins one list and was on none
    have hjoin : ∀ head', head' ≠ head → xs.Disjoint (s.lists head') := by
      intro head' hne x hx hx'
      rcases List.mem_cons.mp (hperm.mem_iff.mp hx) with rfl | hx
      · exact hnode head' hx'
      · exact hwf.apart _ _ hne hx' hx
    intro h₁ h₂ hne
    by_cases h1 : h₁ = head
    · subst h1
      simpa only [Function.update_self, Function.update_of_ne (Ne.symm hne)] using
        hjoin h₂ (Ne.symm hne)
    · by_cases h2 : h₂ = head
      · subst h2
        simpa only [Function.update_self, Function.update_of_ne h1] using (hjoin h₁ h1).symm
      · simpa only [Function.update_of_ne h1, Function.update_of_ne h2] using hwf.apart h₁ h₂ hne
  · -- a node on no list is none of those whose hooks were written
    intro other hother
    have hout : other ∉ xs := by simpa only [Function.update_self] using hother head
    have hidle : ∀ head, other ∉ s.lists head := by
      intro head'
      by_cases hne : head' = head
      · subst hne
        exact fun hmem => hout (hperm.mem_iff.mpr (List.mem_cons_of_mem _ hmem))
      · simpa only [Function.update_of_ne hne] using hother head'
    have hne : other ≠ node := by
      rintro rfl
      exact hout (hperm.mem_iff.mpr List.mem_cons_self)
    obtain ⟨hnext, hprev⟩ := hframe (.inr other) (by simpa using hne) (by simpa using hidle head)
    obtain ⟨hnext', hprev'⟩ := hwf.idle hidle
    exact ⟨hnext.trans hnext', hprev.trans hprev'⟩

/-- `push_front` of an unlinked node keeps the hub well formed. -/
theorem WellFormed.keep_pushFront (hwf : WellFormed s)
    (hunlinked : s.hooks.isLinked (.inr node) = false) :
    WellFormed (s.call (.pushFront head node)).2 := by
  have hnode := hwf.not_mem hunlinked
  have hout : (Sum.inr node : H ⊕ N) ∉ .inl head :: (s.lists head).map .inr := by
    simpa using hnode head
  refine hwf.insert hnode (List.Perm.refl _) ?_ ?_
  · rw [List.map_cons]
    exact (hwf.reaches head).pushFront (hwf.nodup_ring head) hout
  · intro hook hne hhook
    exact (hwf.reaches head).pushFront_frame hout hne hhook

/-- `push_back` of an unlinked node keeps the hub well formed. -/
theorem WellFormed.keep_pushBack (hwf : WellFormed s)
    (hunlinked : s.hooks.isLinked (.inr node) = false) :
    WellFormed (s.call (.pushBack head node)).2 := by
  have hnode := hwf.not_mem hunlinked
  have hout : (Sum.inr node : H ⊕ N) ∉ .inl head :: (s.lists head).map .inr := by
    simpa using hnode head
  refine hwf.insert hnode (List.perm_append_singleton node _) ?_ ?_
  · rw [List.map_append, List.map_singleton]
    exact (hwf.reaches head).pushBack (hwf.nodup_ring head) hout
  · intro hook hne hhook
    exact (hwf.reaches head).pushBack_frame hout hne hhook

/-- `erase` keeps the hub well formed, wherever the node is. -/
theorem WellFormed.keep_erase (hwf : WellFormed s) : WellFormed (s.call (.erase node)).2 := by
  by_cases hmem : ∃ head, node ∈ s.lists head
  · obtain ⟨head, hmem⟩ := hmem
    obtain ⟨as, bs, hsplit⟩ := List.append_of_mem hmem
    -- the node is on one list only, so that the others do not change
    have hothers : ∀ head' ≠ head, (s.lists head').erase node = s.lists head' := by
      intro head' hne
      exact List.erase_of_not_mem fun hmem' => hwf.apart _ _ hne hmem' hmem
    have hnodup := hwf.nodup head
    have hring := hwf.reaches head
    have hnodupRing := hwf.nodup_ring head
    rw [hsplit] at hnodup
    rw [hsplit, List.map_append, List.map_cons] at hring hnodupRing
    have hleft : node ∉ as := by
      have hnot := (List.nodup_cons.mp (List.nodup_middle.mp hnodup)).1
      exact fun hin => hnot (List.mem_append_left _ hin)
    have herase : (s.lists head).erase node = as ++ bs := by
      rw [hsplit, List.erase_append_right _ hleft, List.erase_cons_head]
    have hframe : ∀ hook, hook ∉ (Sum.inl head : H ⊕ N) :: (s.lists head).map .inr →
        (s.hooks.erase (.inr node)).next hook = s.hooks.next hook ∧
          (s.hooks.erase (.inr node)).prev hook = s.hooks.prev hook := by
      intro hook hhook
      rw [hsplit, List.map_append, List.map_cons] at hhook
      exact hring.erase_frame hnodupRing hhook
    apply wellFormed_of_rings
    · intro head'
      show (s.hooks.erase (.inr node)).Ring _ (((s.lists head').erase node).map .inr)
      by_cases hne : head' = head
      · subst hne
        rw [herase, List.map_append]
        exact hring.erase hnodupRing
      · rw [hothers head' hne]
        exact (hwf.reaches head').congr
          (fun y hy => (hframe y (hwf.not_mem_other hne hy)).1)
          fun y hy => (hframe y (hwf.not_mem_other hne hy)).2
    · exact fun head' => (hwf.nodup head').erase node
    · intro h₁ h₂ hne x hx hx'
      exact hwf.apart h₁ h₂ hne (List.mem_of_mem_erase hx) (List.mem_of_mem_erase hx')
    · -- the node itself is left unlinked; every other idle node was idle before
      intro other hother
      by_cases hsame : other = node
      · subst hsame
        exact hring.erase_self hnodupRing
      · have hidle : ∀ head', other ∉ s.lists head' := by
          intro head' hmem'
          exact hother head' ((List.mem_erase_of_ne hsame).mpr hmem')
        obtain ⟨hnext, hprev⟩ := hframe (.inr other) (by simpa using hidle head)
        obtain ⟨hnext', hprev'⟩ := hwf.idle hidle
        exact ⟨hnext.trans hnext', hprev.trans hprev'⟩
  · -- a node on no list is unlinked, and nothing happens
    have hnode := not_exists.mp hmem
    have hunlinked : s.hooks.isLinked (.inr node) = false := by
      simpa [Hooks.isLinked] using (hwf.idle hnode).1
    have hlists : (fun head => (s.lists head).erase node) = s.lists := by
      funext head
      exact List.erase_of_not_mem (hnode head)
    simpa only [call, Hooks.erase_of_not_linked hunlinked, hlists] using hwf

/-- **`clear` keeps the hub well formed exactly when there is nothing to clear**: it does not touch
the hooks of the nodes, which stay linked. -/
theorem WellFormed.keep_clear_iff (hwf : WellFormed s) :
    WellFormed (s.call (.clear head)).2 ↔ s.hooks.empty (.inl head) = true := by
  have hempty := (hwf.reaches head).empty_iff (by simp)
  rw [hempty, List.map_eq_nil_iff]
  constructor
  · intro hafter
    rw [List.eq_nil_iff_forall_not_mem]
    intro x hx
    have hlinked : (s.call (.clear head)).2.hooks.isLinked (.inr x) = true := by
      have hbefore := (hwf.linked_iff x).mpr ⟨head, hx⟩
      simpa [call, Hooks.isLinked, Hooks.init] using hbefore
    obtain ⟨head', hmem⟩ := (hafter.linked_iff x).mp hlinked
    simp only [call] at hmem
    by_cases hne : head' = head
    · subst hne
      simp at hmem
    · rw [Function.update_of_ne hne] at hmem
      exact hwf.apart _ _ hne hmem hx
  · intro hnil
    obtain ⟨hnext, hprev⟩ : s.hooks.next (.inl head) = .inl head ∧
        s.hooks.prev (.inl head) = .inl head := by
      have hring := hwf.reaches head
      rw [hnil] at hring
      exact ⟨by simpa using hring.next_head, by simpa using hring.prev_head⟩
    have hinit : s.hooks.init (.inl head) = s.hooks := by
      unfold Hooks.init
      congr 1
      · rw [Function.update_eq_self_iff, hnext]
      · rw [Function.update_eq_self_iff, hprev]
    have hlists : Function.update s.lists head [] = s.lists := by
      rw [Function.update_eq_self_iff, hnil]
    simpa only [call, hinit, hlists] using hwf

/-- An operation that pushes only unlinked nodes keeps the hub well formed exactly when it does not
clear a list with nodes. -/
theorem WellFormed.keep_call_iff (hwf : WellFormed s) {c : Call H N} (hpush : PushesUnlinked s c) :
    WellFormed (s.call c).2 ↔ ClearsEmpty s c := by
  cases c with
  | pushFront head node => exact iff_of_true (hwf.keep_pushFront hpush) trivial
  | pushBack head node => exact iff_of_true (hwf.keep_pushBack hpush) trivial
  | erase node => exact iff_of_true hwf.keep_erase trivial
  | clear head => exact hwf.keep_clear_iff

/-- Fresh heads and nodes are well formed. -/
theorem wellFormed_start : WellFormed (start : CircularHub H N) := by
  apply wellFormed_of_rings
  · exact fun head => ⟨rfl, rfl⟩
  · exact fun _ => List.nodup_nil
  · exact fun _ _ _ => List.disjoint_nil_left _
  · exact fun _ _ => ⟨rfl, rfl⟩

end CircularHub

/-! ## Forward lists -/

/-- Hooks of nodes and the heads of the lists, and the nodes that each list should hold. -/
structure ForwardHub (H N : Type*) where
  next : N → Option N
  head : H → Option N
  lists : H → List N

namespace ForwardHub

/-- An operation on the list with the given head. The caller of `erase` passes in the node before. -/
inductive Call (H N : Type*)
  | pushFront (head : H) (node : N)
  | popFront (head : H)
  | erase (head : H) (node : N) (prev : Option N)
  | clear (head : H)
  deriving DecidableEq

/-- `is_linked`. -/
def isLinked (s : ForwardHub H N) (node : N) : Bool := s.next node ≠ none

/-- Default-constructed hooks and heads. -/
def start : ForwardHub H N := ⟨fun _ => none, fun _ => none, fun _ => []⟩

/-- `push_front`. -/
def pushFront (s : ForwardHub H N) (head : H) (node : N) : ForwardHub H N where
  next := Function.update s.next node (s.head head)
  head := Function.update s.head head (some node)
  lists := Function.update s.lists head (node :: s.lists head)

/-- `pop_front`. -/
def popFront (s : ForwardHub H N) (head : H) : ForwardHub H N where
  next := s.next
  head :=
    match s.head head with
    | some node => Function.update s.head head (s.next node)
    | none => s.head
  lists := Function.update s.lists head (s.lists head).tail

/-- `erase`. -/
def erase (s : ForwardHub H N) (head : H) (node : N) (prev : Option N) : ForwardHub H N :=
  let lists := fun head => (s.lists head).erase node
  match prev with
  | some prev =>
    let next := Function.update s.next prev (s.next node)
    { s with next := Function.update next node none, lists }
  | none =>
    let heads := if s.head head = some node then Function.update s.head head (s.next node) else s.head
    { next := Function.update s.next node none, head := heads, lists }

/-- `clear`. -/
def clear (s : ForwardHub H N) (head : H) : ForwardHub H N where
  next := s.next
  head := Function.update s.head head none
  lists := Function.update s.lists head []

/-- One operation. -/
def call (s : ForwardHub H N) : Call H N → Unit × ForwardHub H N
  | .pushFront head node => ((), s.pushFront head node)
  | .popFront head => ((), s.popFront head)
  | .erase head node prev => ((), s.erase head node prev)
  | .clear head => ((), s.clear head)

/-- What is asked of the hooks between operations. -/
structure WellFormed (s : ForwardHub H N) : Prop where
  /-- Each head reaches the nodes pushed to it and not removed since, in order. -/
  reaches : ∀ head, Seg s.next (s.head head) (s.lists head) none
  nodup : ∀ head, (s.lists head).Nodup
  /-- No node is on two lists. -/
  apart : ∀ head head', head ≠ head' → (s.lists head).Disjoint (s.lists head')
  /-- A node is linked exactly when some head reaches it. -/
  linked_iff : ∀ node, s.isLinked node = true ↔ ∃ head, node ∈ s.lists head

/-- A node is pushed only when its `is_linked` test is false. -/
def PushesUnlinked (s : ForwardHub H N) : Call H N → Prop
  | .pushFront _ node => s.isLinked node = false
  | _ => True

instance (s : ForwardHub H N) (c : Call H N) : Decidable (PushesUnlinked s c) :=
  match c with
  | .pushFront _ _ => inferInstanceAs (Decidable (_ = _))
  | .popFront _ => isTrue trivial
  | .erase _ _ _ => isTrue trivial
  | .clear _ => isTrue trivial

/-- The operation pushes no node. -/
def PushesNothing (_ : ForwardHub H N) : Call H N → Prop
  | .pushFront _ _ => False
  | _ => True

omit [DecidableEq H] [DecidableEq N] in
/-- Fresh heads and nodes are well formed. -/
theorem wellFormed_start : WellFormed (start : ForwardHub H N) where
  reaches := fun _ => rfl
  nodup := fun _ => List.nodup_nil
  apart := fun _ _ _ => List.disjoint_nil_left _
  linked_iff := by simp [start, isLinked]

/-- Without a push, fresh heads and nodes stay as they are. -/
theorem call_start {c : Call H N} (hc : PushesNothing start c) : (start.call c).2 = start := by
  have hlists : ∀ head : H, Function.update (fun _ => ([] : List N)) head [] = fun _ => [] :=
    fun head => Function.update_eq_self head _
  have hhead : ∀ head : H, Function.update (fun _ => (none : Option N)) head none = fun _ => none :=
    fun head => Function.update_eq_self head _
  cases c with
  | pushFront head node => exact hc.elim
  | popFront head => simp only [call, popFront, start, List.tail_nil, hlists]
  | erase head node prev =>
    cases prev with
    | none => simp [call, erase, start]
    | some prev => simp [call, erase, start]
  | clear head => simp only [call, clear, start, hhead, hlists]

/-- The first node pushed is the last of its list, and `is_linked` denies it. -/
theorem not_wellFormed_push (head : H) (node : N) :
    ¬ WellFormed ((start : ForwardHub H N).call (.pushFront head node)).2 := by
  intro hwf
  have hmem : node ∈ ((start : ForwardHub H N).call (.pushFront head node)).2.lists head := by
    simp [call, pushFront]
  have hlinked := (hwf.linked_iff node).mpr ⟨head, hmem⟩
  simp [call, pushFront, isLinked, start] at hlinked

/-- An operation on fresh heads and nodes keeps them well formed exactly when it pushes nothing. -/
theorem wellFormed_call_start_iff (c : Call H N) :
    WellFormed (start.call c).2 ↔ PushesNothing start c := by
  constructor
  · intro hwf
    cases c with
    | pushFront head node => exact not_wellFormed_push head node hwf
    | popFront head => trivial
    | erase head node prev => trivial
    | clear head => trivial
  · intro hc
    rw [call_start hc]
    exact wellFormed_start

end ForwardHub

/-! ## Whole runs -/

/-- **When intrusive lists stay well formed.** In every run that pushes a node only when its
`is_linked` test is false: a circular hub is well formed after every operation exactly when no
`clear` meets a list with nodes; and a forward hub is well formed after every operation exactly
when nothing is ever pushed. -/
theorem intrusive_lists_wellFormed_iff (calls : List (CircularHub.Call H N))
    (calls' : List (ForwardHub.Call H N))
    (hpush : Mealy.EveryCall CircularHub.call CircularHub.PushesUnlinked .start calls)
    (hpush' : Mealy.EveryCall ForwardHub.call ForwardHub.PushesUnlinked .start calls') :
    (Mealy.EveryCall CircularHub.call (fun s c => (s.call c).2.WellFormed) .start calls ↔
      Mealy.EveryCall CircularHub.call CircularHub.ClearsEmpty .start calls) ∧
    (Mealy.EveryCall ForwardHub.call (fun s c => (s.call c).2.WellFormed) .start calls' ↔
      Mealy.EveryCall ForwardHub.call ForwardHub.PushesNothing .start calls') := by
  constructor
  · exact Mealy.everyCall_congr CircularHub.WellFormed (fun _ _ hwf hc => hwf.keep_call_iff hc)
      (fun _ _ _ _ hafter => hafter) CircularHub.wellFormed_start hpush
  · refine Mealy.everyCall_congr (· = ForwardHub.start) ?_ ?_ rfl hpush'
    · rintro _ c rfl _
      exact ForwardHub.wellFormed_call_start_iff c
    · rintro _ c rfl _ hafter
      exact ForwardHub.call_start ((ForwardHub.wellFormed_call_start_iff c).mp hafter)

/-- Two nodes go on a circular list and come off again before it is cleared; a node goes on a
forward list. -/
theorem intrusive_lists_wellFormed_iff_pair :
    Mealy.EveryCall CircularHub.call (fun s c => (s.call c).2.WellFormed)
      (.start : CircularHub Unit Bool)
      [.pushBack () true, .pushFront () false, .erase true, .erase false, .clear ()] ∧
    ¬ Mealy.EveryCall ForwardHub.call (fun s c => (s.call c).2.WellFormed)
      (.start : ForwardHub Unit Bool) [.pushFront () true] := by
  obtain ⟨hcircular, hforward⟩ := intrusive_lists_wellFormed_iff (H := Unit) (N := Bool)
    [.pushBack () true, .pushFront () false, .erase true, .erase false, .clear ()]
    [.pushFront () true] (by decide) (by decide)
  exact ⟨hcircular.mpr (by decide), fun hwf => (hforward.mp hwf).1⟩

/-- A node left on a circular list by `clear` still counts as linked, and its `erase` takes the node
pushed after it off the list; the only node of a forward list counts as unlinked. -/
theorem not_intrusive_lists_wellFormed :
    (Mealy.EveryCall CircularHub.call CircularHub.PushesUnlinked
        (.start : CircularHub Unit Bool)
        [.pushBack () true, .clear (), .pushBack () false, .erase true] ∧
      ¬ (Mealy.final CircularHub.call (.start : CircularHub Unit Bool)
        [.pushBack () true, .clear ()]).WellFormed ∧
      ¬ (Mealy.final CircularHub.call (.start : CircularHub Unit Bool)
        [.pushBack () true, .clear (), .pushBack () false, .erase true]).WellFormed) ∧
    (Mealy.EveryCall ForwardHub.call ForwardHub.PushesUnlinked (.start : ForwardHub Unit Bool)
        [.pushFront () true] ∧
      ¬ (Mealy.final ForwardHub.call (.start : ForwardHub Unit Bool)
        [.pushFront () true]).WellFormed) := by
  refine ⟨⟨by decide, ?_, ?_⟩, by decide, ?_⟩
  · intro hwf
    obtain ⟨head, hmem⟩ := (hwf.linked_iff true).mp (by decide)
    exact absurd hmem (by cases head; decide)
  · -- the sentinel is linked to itself although the second node is on the list
    intro hwf
    exact absurd (hwf.reaches ()).next_head (by decide)
  · intro hwf
    exact absurd ((hwf.linked_iff true).mpr ⟨(), by decide⟩) (by decide)

end Memkit
