import Memkit.Foundations.LinkedChain

/-! # Chains in buckets

An array of buckets, each the start of a null-terminated chain of nodes. `chains i` lists the nodes
of the chain of bucket `i`, and no node is met twice.

* **`nodes`** — the nodes of the first `n` chains.
* **`Chained`** — the links spell the chains.
* **`Chained.replace`** — the rule for surgery on one chain; `push`, `unlink` and `empty` are what
  it says of the usual ones.
* **`distribute`** — nodes moved one by one to the front of other chains. -/

namespace BucketChains

open LinkedChain

variable {α : Type*} {next next' : α → Option α} {buckets : ℕ → Option α} {n b : ℕ}
  {chains : ℕ → List α} {p : Option α} {x : α} {xs ys as bs : List α} {index : α → ℕ}

/-- The nodes of the first `n` chains, in order. -/
def nodes (n : ℕ) (chains : ℕ → List α) : List α := (List.range n).flatMap chains

theorem mem_nodes : x ∈ nodes n chains ↔ ∃ i < n, x ∈ chains i := by
  simp [nodes]

/-- The chain of one bucket among all nodes. -/
theorem exists_split (hb : b < n) (chains : ℕ → List α) :
    ∃ as bs, ∀ ys, nodes n (Function.update chains b ys) = as ++ ys ++ bs := by
  obtain ⟨is, js, hrange⟩ := List.append_of_mem (List.mem_range.mpr hb)
  have hnodup : (is ++ b :: js).Nodup := hrange ▸ List.nodup_range
  have hout := (List.nodup_cons.mp (List.nodup_middle.mp hnodup)).1
  rw [List.mem_append, not_or] at hout
  -- other chains do not change
  have hframe : ∀ (is : List ℕ) (ys : List α), b ∉ is →
      is.flatMap (Function.update chains b ys) = is.flatMap chains := by
    intro is ys hmem
    apply List.flatMap_congr
    intro i hi
    apply Function.update_of_ne
    rintro rfl
    exact hmem hi
  refine ⟨is.flatMap chains, js.flatMap chains, fun ys => ?_⟩
  rw [nodes, hrange, List.flatMap_append, List.flatMap_cons, hframe is ys hout.1,
    hframe js ys hout.2, Function.update_self, List.append_assoc]

/-- The nodes with one more in front of a chain. -/
theorem nodes_push_perm (hb : b < n) (chains : ℕ → List α) (x : α) :
    (nodes n (Function.update chains b (x :: chains b))).Perm (x :: nodes n chains) := by
  obtain ⟨as, bs, hsplit⟩ := exists_split hb chains
  have hnodes : nodes n chains = as ++ chains b ++ bs := by
    rw [← hsplit, Function.update_eq_self]
  rw [hsplit, hnodes, List.append_assoc, List.append_assoc]
  exact List.perm_middle

/-- The nodes without one of a chain. -/
theorem nodes_unlink_perm (hb : b < n) (hchain : chains b = as ++ x :: bs) :
    (nodes n chains).Perm (x :: nodes n (Function.update chains b (as ++ bs))) := by
  obtain ⟨cs, ds, hsplit⟩ := exists_split hb chains
  have hnodes : nodes n chains = cs ++ chains b ++ ds := by
    rw [← hsplit, Function.update_eq_self]
  rw [hsplit, hnodes, hchain]
  calc cs ++ (as ++ x :: bs) ++ ds
    _ = (cs ++ as) ++ x :: (bs ++ ds) := by simp
    _ |>.Perm (x :: ((cs ++ as) ++ (bs ++ ds))) := List.perm_middle
    _ = x :: (cs ++ (as ++ bs) ++ ds) := by simp

/-- Following the links from bucket `i < n` meets exactly the nodes of `chains i`, and no node is
in two chains. -/
structure Chained (next : α → Option α) (buckets : ℕ → Option α) (n : ℕ)
    (chains : ℕ → List α) : Prop where
  walk : ∀ i < n, Seg next (buckets i) (chains i) none
  nodup : (nodes n chains).Nodup

/-- Empty buckets. -/
theorem chained_empty (next : α → Option α) (n : ℕ) :
    Chained next (fun _ => none) n fun _ => [] where
  walk _ _ := rfl
  nodup := by
    rw [show nodes n (fun _ => ([] : List α)) = [] by simp [nodes]]
    exact List.nodup_nil

namespace Chained

theorem nodup_chain (h : Chained next buckets n chains) (hb : b < n) : (chains b).Nodup := by
  obtain ⟨as, bs, hsplit⟩ := exists_split hb chains
  have hnodup := h.nodup
  rw [← Function.update_eq_self b chains, hsplit] at hnodup
  exact (List.nodup_append.mp (List.nodup_append.mp hnodup).1).2.1

/-- A node is in one chain only. -/
theorem eq_of_mem (h : Chained next buckets n chains) {i j : ℕ} (hi : i < n) (hj : j < n)
    (hxi : x ∈ chains i) (hxj : x ∈ chains j) : i = j := by
  by_contra hne
  have hpair := (List.nodup_flatMap.mp h.nodup).2
  have hsymm : Std.Symm (Function.onFun List.Disjoint chains) := ⟨fun _ _ h => h.symm⟩
  exact hpair.forall (List.mem_range.mpr hi) (List.mem_range.mpr hj) hne hxi hxj

/-- Links of nodes in no chain do not matter. -/
theorem congr (h : Chained next buckets n chains) (hframe : ∀ x ∈ nodes n chains, next' x = next x) :
    Chained next' buckets n chains where
  walk i hi := by
    refine (seg_congr fun x hx => ?_).mp (h.walk i hi)
    exact (hframe x (mem_nodes.mpr ⟨i, hi, hx⟩)).symm
  nodup := h.nodup

/-- **Surgery on one chain**: where the links of the other chains stay as they are, only the new
chain has to be looked at. -/
theorem replace (h : Chained next buckets n chains) (hb : b < n) (hwalk : Seg next' p ys none)
    (hframe : ∀ i < n, i ≠ b → ∀ x ∈ chains i, next' x = next x)
    (hnodup : (nodes n (Function.update chains b ys)).Nodup) :
    Chained next' (Function.update buckets b p) n (Function.update chains b ys) where
  walk i hi := by
    by_cases hib : i = b
    · subst hib
      rw [Function.update_self, Function.update_self]
      exact hwalk
    · rw [Function.update_of_ne hib, Function.update_of_ne hib]
      exact (seg_congr fun x hx => (hframe i hi hib x hx).symm).mp (h.walk i hi)
  nodup := hnodup

/-- Emptying a bucket. -/
theorem empty (h : Chained next buckets n chains) (hb : b < n) :
    Chained next (Function.update buckets b none) n (Function.update chains b []) := by
  refine h.replace hb rfl (fun _ _ _ _ _ => rfl) ?_
  obtain ⟨as, bs, hsplit⟩ := exists_split hb chains
  have hall := h.nodup
  rw [← Function.update_eq_self b chains, hsplit] at hall
  rw [hsplit, List.append_nil]
  exact hall.sublist ((List.sublist_append_left as (chains b)).append_right bs)

variable [DecidableEq α]

/-- **Pushing** a new node in front of a chain. -/
theorem push (h : Chained next buckets n chains) (hb : b < n) (hx : x ∉ nodes n chains) :
    Chained (Function.update next x (buckets b)) (Function.update buckets b (some x)) n
      (Function.update chains b (x :: chains b)) := by
  have hout : ∀ i < n, x ∉ chains i := fun i hi hmem => hx (mem_nodes.mpr ⟨i, hi, hmem⟩)
  refine h.replace hb ((h.walk b hb).push (hout b hb)) (fun i hi _ y hy => ?_) ?_
  · apply Function.update_of_ne
    rintro rfl
    exact hout i hi hy
  · exact (nodes_push_perm hb chains x).nodup_iff.mpr (List.nodup_cons.mpr ⟨hx, h.nodup⟩)

/-- **Unlinking** a node of a chain, through the node before it. -/
theorem unlink (h : Chained next buckets n chains) (hb : b < n) (hchain : chains b = as ++ x :: bs) :
    Chained (setNext next as.getLast? (next x))
      (Function.update buckets b (setStart (buckets b) as.getLast? (next x))) n
      (Function.update chains b (as ++ bs)) := by
  have hwalk := h.walk b hb
  have hnodup := h.nodup_chain hb
  rw [hchain] at hwalk hnodup
  refine h.replace hb (hwalk.unlink hnodup) (fun i hi hib y hy => ?_) ?_
  · apply setNext_of_ne
    intro hlast
    have hmem : y ∈ chains b := by
      rw [hchain]
      exact List.mem_append_left _ (List.mem_of_getLast? hlast)
    exact hib (h.eq_of_mem hi hb hy hmem)
  · exact (List.nodup_cons.mp ((nodes_unlink_perm hb hchain).nodup_iff.mp h.nodup)).2

end Chained

/-! ## Moving nodes to other chains -/

/-- Put nodes one by one in front of the chains that `index` says. -/
def distribute (index : α → ℕ) (xs : List α) (chains : ℕ → List α) : ℕ → List α :=
  xs.foldl (fun chains x => Function.update chains (index x) (x :: chains (index x))) chains

@[simp] theorem distribute_nil (index : α → ℕ) (chains : ℕ → List α) :
    distribute index [] chains = chains := rfl

@[simp] theorem distribute_cons (index : α → ℕ) (x : α) (xs : List α) (chains : ℕ → List α) :
    distribute index (x :: xs) chains =
      distribute index xs (Function.update chains (index x) (x :: chains (index x))) := rfl

theorem distribute_append (index : α → ℕ) (xs ys : List α) (chains : ℕ → List α) :
    distribute index (xs ++ ys) chains = distribute index ys (distribute index xs chains) :=
  List.foldl_append

/-- Where the nodes are afterwards. -/
theorem mem_distribute {i : ℕ} :
    x ∈ distribute index xs chains i ↔ x ∈ chains i ∨ x ∈ xs ∧ index x = i := by
  induction xs generalizing chains with
  | nil => simp
  | cons y xs ih =>
    rw [distribute_cons, ih]
    by_cases hi : i = index y
    · subst hi
      rw [Function.update_self, List.mem_cons, List.mem_cons]
      constructor
      · rintro ((rfl | hx) | ⟨hx, heq⟩)
        · exact .inr ⟨.inl rfl, rfl⟩
        · exact .inl hx
        · exact .inr ⟨.inr hx, heq⟩
      · rintro (hx | ⟨rfl | hx, heq⟩)
        · exact .inl (.inr hx)
        · exact .inl (.inl rfl)
        · exact .inr ⟨hx, heq⟩
    · rw [Function.update_of_ne hi, List.mem_cons]
      constructor
      · rintro (hx | ⟨hx, heq⟩)
        · exact .inl hx
        · exact .inr ⟨.inr hx, heq⟩
      · rintro (hx | ⟨rfl | hx, heq⟩)
        · exact .inl hx
        · exact absurd heq.symm hi
        · exact .inr ⟨hx, heq⟩

/-- No node is lost and none is added. -/
theorem nodes_distribute (hindex : ∀ x ∈ xs, index x < n) (chains : ℕ → List α) :
    (nodes n (distribute index xs chains)).Perm (xs ++ nodes n chains) := by
  induction xs generalizing chains with
  | nil => exact List.Perm.refl _
  | cons x xs ih =>
    have hrest := ih (fun y hy => hindex y (List.mem_cons_of_mem x hy))
      (Function.update chains (index x) (x :: chains (index x)))
    have hpush := nodes_push_perm (hindex x List.mem_cons_self) chains x
    exact hrest.trans ((hpush.append_left xs).trans List.perm_middle)

end BucketChains
