import Memkit.Foundations.LinkedChain
import Memkit.Caching.LruCache

/-! # The three linked structures of the LRU cache

`RecencyList.Walks` and `HashLinks.Walks` say which lists of entries the links spell out, and one
lemma for each piece of pointer surgery says how it changes them. -/

namespace Memkit

open LinkedChain

/-! ## The recency list -/

namespace RecencyList

/-- The links spell out `xs`, most recent first, in both directions. -/
def Walks (l : RecencyList) (xs : List ℕ) : Prop :=
  Seg l.next l.head xs none ∧ Seg l.prev l.tail xs.reverse none

variable {l : RecencyList} {xs as bs : List ℕ} {i : ℕ}

/-- The head is the first entry. -/
theorem Walks.head_eq (h : l.Walks xs) : l.head = xs.head? := by
  simpa using h.1.start_eq

/-- The tail is the last entry. -/
theorem Walks.tail_eq (h : l.Walks xs) : l.tail = xs.getLast? := by
  simpa using h.2.start_eq

/-- What `lru_unlink` writes, in terms of the entries before and after. -/
theorem lruUnlink_eq (hne : l.prev i ≠ some i) :
    l.lruUnlink i =
      { head := setStart l.head (l.prev i) (l.next i)
        tail := setStart l.tail (l.next i) (l.prev i)
        next := Function.update (setNext l.next (l.prev i) (l.next i)) i none
        prev := Function.update (setNext l.prev (l.next i) (l.prev i)) i none } := by
  unfold RecencyList.lruUnlink
  cases hprev : l.prev i with
  | none =>
    cases hnext : l.next i with
    | none => simp [setStart, setNext, hprev, hnext]
    | some n => simp [setStart, setNext, hprev, hnext]
  | some p =>
    have hkeep : Function.update l.next p (l.next i) i = l.next i := by
      apply Function.update_of_ne
      rintro rfl
      exact hne hprev
    cases hnext : l.next i with
    | none =>
      rw [hnext] at hkeep
      simp [setStart, setNext, hprev, hkeep]
    | some n =>
      rw [hnext] at hkeep
      simp [setStart, setNext, hprev, hkeep]

/-- `lru_unlink` takes an entry out of the list. -/
theorem Walks.lruUnlink (h : l.Walks (as ++ i :: bs)) (hnodup : (as ++ i :: bs).Nodup) :
    (l.lruUnlink i).Walks (as ++ bs) := by
  obtain ⟨hfwd, hbwd⟩ := h
  have hmem : i ∉ as ++ bs := (List.nodup_cons.mp (List.nodup_middle.mp hnodup)).1
  have hias : i ∉ as := fun hi => hmem (List.mem_append_left bs hi)
  have hrev : (as ++ i :: bs).reverse = bs.reverse ++ i :: as.reverse := by simp
  rw [hrev] at hbwd
  have hnext : l.next i = bs.head? := by simpa using hfwd.next_eq
  have hprev : l.prev i = as.getLast? := by simpa using hbwd.next_eq
  rw [lruUnlink_eq (hprev ▸ getLast?_ne hias)]
  constructor
  · show Seg (Function.update _ i none) _ _ _
    rw [seg_update hmem, hprev]
    exact hfwd.unlink hnodup
  · show Seg (Function.update _ i none) _ _ _
    have hunlinked := hbwd.unlink (hrev ▸ List.nodup_reverse.mpr hnodup)
    rw [List.getLast?_reverse, ← hnext, ← List.reverse_append] at hunlinked
    rw [seg_update (by rwa [List.mem_reverse])]
    exact hunlinked

/-- `lru_push_front` puts a new entry in front. -/
theorem Walks.lruPushFront (h : l.Walks xs) (hnodup : xs.Nodup) (hi : i ∉ xs) :
    (l.lruPushFront i).Walks (i :: xs) := by
  obtain ⟨hfwd, hbwd⟩ := h
  have hhead : l.head = xs.reverse.getLast? := by
    rw [List.getLast?_reverse]
    simpa using hfwd.start_eq
  have hrev : i ∉ xs.reverse := by simpa using hi
  -- the backward links gain `i` at their end
  have happend : Seg (setNext (Function.update l.prev i none) l.head (some i))
      (setStart l.tail l.head (some i)) (xs.reverse ++ [i]) none := by
    rw [hhead]
    exact ((seg_update hrev none).mpr hbwd).append_node (List.nodup_reverse.mpr hnodup) hrev
      (Function.update_self ..)
  have heq : l.lruPushFront i =
      { head := some i
        tail := setStart l.tail l.head (some i)
        next := Function.update l.next i l.head
        prev := setNext (Function.update l.prev i none) l.head (some i) } := by
    unfold RecencyList.lruPushFront
    cases l.head <;> simp [setStart, setNext]
  rw [heq]
  constructor
  · exact hfwd.push hi
  · show Seg _ _ (i :: xs).reverse none
    rw [List.reverse_cons]
    exact happend

/-- `promote` moves an entry to the front. -/
theorem Walks.promote (h : l.Walks xs) (hnodup : xs.Nodup) (hi : i ∈ xs) :
    (l.promote i).Walks (i :: xs.erase i) := by
  unfold RecencyList.promote
  by_cases hfirst : l.head = some i
  · rw [if_pos hfirst]
    rw [h.head_eq] at hfirst
    obtain ⟨ys, rfl⟩ := List.head?_eq_some_iff.mp hfirst
    rwa [List.erase_cons_head]
  · rw [if_neg hfirst]
    obtain ⟨as, bs, hias, rfl, herase⟩ := List.exists_erase_eq hi
    rw [herase]
    have hmem : i ∉ as ++ bs := (List.nodup_cons.mp (List.nodup_middle.mp hnodup)).1
    have hrest : (as ++ bs).Nodup := (List.nodup_cons.mp (List.nodup_middle.mp hnodup)).2
    exact (h.lruUnlink hnodup).lruPushFront hrest hmem

/-- Nulling the links of an entry outside the list leaves the list alone. -/
theorem Walks.forget (h : l.Walks xs) (hi : i ∉ xs) : (l.forget i).Walks xs :=
  ⟨(seg_update hi _).mpr h.1, (seg_update (by simpa using hi) _).mpr h.2⟩

end RecencyList

/-! ## The hash chains and the free list -/

namespace HashLinks

/-- The links spell out the free list and the chain of each of the `n` buckets, and no entry is on
two of these lists. -/
structure Walks (h : HashLinks) (n : ℕ) (free : List ℕ) (chain : ℕ → List ℕ) : Prop where
  free_walk : Seg h.hashNext h.freeList free none
  chains : ∀ b < n, Seg h.hashNext (h.buckets b) (chain b) none
  free_nodup : free.Nodup
  chain_nodup : ∀ b < n, (chain b).Nodup
  free_apart : ∀ b < n, ∀ i ∈ chain b, i ∉ free
  apart : ∀ b < n, ∀ c < n, b ≠ c → ∀ i ∈ chain b, i ∉ chain c

variable {h : HashLinks} {n b i : ℕ} {free as bs : List ℕ} {chain : ℕ → List ℕ}

/-- `acquire_entry` takes the first free entry. -/
theorem Walks.acquire (hw : h.Walks n (i :: free) chain) :
    h.acquire.1 = some i ∧ h.acquire.2.Walks n free chain := by
  have hlist : h.freeList = some i := hw.free_walk.1
  obtain ⟨hi, hnodup⟩ := List.nodup_cons.mp hw.free_nodup
  have hout : ∀ b < n, i ∉ chain b := fun b hb hmem => hw.free_apart b hb i hmem List.mem_cons_self
  unfold HashLinks.acquire
  rw [hlist]
  refine ⟨rfl, (seg_update hi _).mpr hw.free_walk.2, ?_, hnodup, hw.chain_nodup, ?_, hw.apart⟩
  · intro b hb
    exact (seg_update (hout b hb) _).mpr (hw.chains b hb)
  · intro b hb j hj hmem
    exact hw.free_apart b hb j hj (List.mem_cons_of_mem i hmem)

/-- Without free entries `acquire_entry` gives none. -/
theorem Walks.acquire_nil (hw : h.Walks n [] chain) : h.acquire = (none, h) := by
  have hlist : h.freeList = none := hw.free_walk
  unfold HashLinks.acquire
  rw [hlist]

/-- `release_entry` puts an entry that is on no list in front of the free list. -/
theorem Walks.release (hw : h.Walks n free chain) (hi : i ∉ free) (hout : ∀ b < n, i ∉ chain b) :
    (h.release i).Walks n (i :: free) chain := by
  refine ⟨hw.free_walk.push hi, ?_, List.nodup_cons.mpr ⟨hi, hw.free_nodup⟩, hw.chain_nodup, ?_,
    hw.apart⟩
  · intro b hb
    exact (seg_update (hout b hb) _).mpr (hw.chains b hb)
  · intro b hb j hj hmem
    rcases List.mem_cons.mp hmem with rfl | hmem
    · exact hout b hb hj
    · exact hw.free_apart b hb j hj hmem

/-- Linking a new entry puts it in front of its chain. -/
theorem Walks.hashLink (hw : h.Walks n free chain) (hb : b < n) (hi : i ∉ free)
    (hout : ∀ b < n, i ∉ chain b) :
    (h.hashLink b i).Walks n free (Function.update chain b (i :: chain b)) := by
  -- the entry was on no list, so that writing its link leaves every other walk
  refine ⟨(seg_update hi _).mpr hw.free_walk, ?_, hw.free_nodup, ?_, ?_, ?_⟩
  · intro c hc
    by_cases hbc : c = b
    · subst hbc
      show Seg _ (Function.update h.buckets c (some i) c) _ _
      rw [Function.update_self, Function.update_self]
      exact (hw.chains c hc).push (hout c hc)
    · show Seg _ (Function.update h.buckets b (some i) c) _ _
      rw [Function.update_of_ne hbc, Function.update_of_ne hbc]
      exact (seg_update (hout c hc) _).mpr (hw.chains c hc)
  · intro c hc
    by_cases hbc : c = b
    · subst hbc
      rw [Function.update_self]
      exact List.nodup_cons.mpr ⟨hout c hc, hw.chain_nodup c hc⟩
    · rw [Function.update_of_ne hbc]
      exact hw.chain_nodup c hc
  · intro c hc j hj
    by_cases hbc : c = b
    · subst hbc
      rw [Function.update_self] at hj
      rcases List.mem_cons.mp hj with rfl | hj
      · exact hi
      · exact hw.free_apart c hc j hj
    · rw [Function.update_of_ne hbc] at hj
      exact hw.free_apart c hc j hj
  · intro c hc d hd hcd j hj
    by_cases hcb : c = b
    · subst hcb
      rw [Function.update_self] at hj
      rw [Function.update_of_ne hcd.symm]
      rcases List.mem_cons.mp hj with rfl | hj
      · exact hout d hd
      · exact hw.apart c hc d hd hcd j hj
    · rw [Function.update_of_ne hcb] at hj
      by_cases hdb : d = b
      · subst hdb
        rw [Function.update_self]
        intro hmem
        rcases List.mem_cons.mp hmem with rfl | hmem
        · exact hout c hc hj
        · exact hw.apart c hc d hd hcd j hj hmem
      · rw [Function.update_of_ne hdb]
        exact hw.apart c hc d hd hcd j hj

/-- Replacing one chain by a part of it keeps the lists apart. -/
theorem Walks.shrink (hw : h.Walks n free chain) {h' : HashLinks} {xs : List ℕ}
    (hfree : Seg h'.hashNext h'.freeList free none)
    (hchain : Seg h'.hashNext (h'.buckets b) xs none)
    (hothers : ∀ c < n, c ≠ b → Seg h'.hashNext (h'.buckets c) (chain c) none)
    (hsub : b < n → xs.Sublist (chain b)) :
    h'.Walks n free (Function.update chain b xs) := by
  refine ⟨hfree, ?_, hw.free_nodup, ?_, ?_, ?_⟩
  · intro c hc
    by_cases hcb : c = b
    · subst hcb
      rw [Function.update_self]
      exact hchain
    · rw [Function.update_of_ne hcb]
      exact hothers c hc hcb
  · intro c hc
    by_cases hcb : c = b
    · subst hcb
      rw [Function.update_self]
      exact (hw.chain_nodup c hc).sublist (hsub hc)
    · rw [Function.update_of_ne hcb]
      exact hw.chain_nodup c hc
  · intro c hc j hj
    by_cases hcb : c = b
    · subst hcb
      rw [Function.update_self] at hj
      exact hw.free_apart c hc j ((hsub hc).subset hj)
    · rw [Function.update_of_ne hcb] at hj
      exact hw.free_apart c hc j hj
  · intro c hc d hd hcd j hj
    have hjc : j ∈ chain c := by
      by_cases hcb : c = b
      · subst hcb
        rw [Function.update_self] at hj
        exact (hsub hc).subset hj
      · rwa [Function.update_of_ne hcb] at hj
    by_cases hdb : d = b
    · subst hdb
      rw [Function.update_self]
      exact fun hmem => hw.apart c hc d hd hcd j hjc ((hsub hd).subset hmem)
    · rw [Function.update_of_ne hdb]
      exact hw.apart c hc d hd hcd j hjc

/-- What `hash_unlink` writes. -/
theorem hashUnlink_eq (prev : Option ℕ) :
    h.hashUnlink b i prev =
      { h with
        buckets := Function.update h.buckets b (setStart (h.buckets b) prev (h.hashNext i))
        hashNext := Function.update (setNext h.hashNext prev (h.hashNext i)) i none } := by
  unfold HashLinks.hashUnlink
  cases prev <;> simp [setStart, setNext]

/-- `hash_unlink` takes an entry out of its chain. -/
theorem Walks.hashUnlink (hw : h.Walks n free chain) (hb : b < n)
    (hchain : chain b = as ++ i :: bs) :
    (h.hashUnlink b i as.getLast?).Walks n free (Function.update chain b (as ++ bs)) := by
  have hnodup := hw.chain_nodup b hb
  have hseg := hw.chains b hb
  rw [hchain] at hnodup hseg
  have hmem : i ∉ as ++ bs := (List.nodup_cons.mp (List.nodup_middle.mp hnodup)).1
  have hib : i ∈ chain b := by simp [hchain]
  -- the two writes hit entries of this chain only
  have hframe : ∀ (p : Option ℕ) (xs : List ℕ), (∀ j ∈ chain b, j ∉ xs) →
      Seg h.hashNext p xs none →
      Seg (Function.update (setNext h.hashNext as.getLast? (h.hashNext i)) i none) p xs none := by
    intro p xs hapart hxs
    have hsame : ∀ j ∈ xs, setNext h.hashNext as.getLast? (h.hashNext i) j = h.hashNext j := by
      intro j hj
      apply setNext_of_ne
      intro hlast
      have hjb : j ∈ chain b := by
        rw [hchain]
        exact List.mem_append_left _ (List.mem_of_getLast? hlast)
      exact hapart j hjb hj
    rw [seg_update (hapart i hib)]
    exact (seg_congr hsame).mpr hxs
  rw [hashUnlink_eq]
  apply hw.shrink
  · exact hframe _ _ (hw.free_apart b hb) hw.free_walk
  · show Seg _ (Function.update h.buckets b _ b) _ _
    rw [Function.update_self, seg_update hmem]
    exact hseg.unlink hnodup
  · intro c hc hcb
    show Seg _ (Function.update h.buckets b _ c) _ _
    rw [Function.update_of_ne hcb]
    exact hframe _ _ (hw.apart b hb c hc (Ne.symm hcb)) (hw.chains c hc)
  · intro _
    rw [hchain]
    exact List.Sublist.append_left (List.sublist_cons_self i bs) as

end HashLinks

end Memkit
