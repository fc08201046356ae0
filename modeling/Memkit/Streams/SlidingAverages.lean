import Memkit.Streams.RunningStats

/-! # Sliding averages

The two classes of `containers/running_stats.hpp` against the samples since the last `clear`.

* **`StoredWindow`** — index, count and cells after some samples; a push keeps it.
* **`MovingAverage.Follows`** — the running sum is the exact sum of the window: a push takes away the
  sample that leaves it and adds the one that enters.
* **`WindowStats.recompute_eq`** — the stored samples add up to the same, in another order.
* **`WindowStats.extreme_eq`** — `min` and `max` are the least and the greatest sample of the window. -/

namespace Memkit

open Mealy

variable {T : IntegralType} {c N index count : ℕ} {samples : ℕ → T.Value} {h : List T.Value}

/-- Index, count and cells after the samples `h`. -/
structure StoredWindow (N : ℕ) (samples : ℕ → T.Value) (index count : ℕ) (h : List T.Value) :
    Prop where
  /-- The next cell. -/
  index_eq : index = h.length % N
  /-- The samples stored. -/
  count_eq : count = min N h.length
  /-- The last samples are in the cells. -/
  rolling : Rolling N samples h

namespace StoredWindow

theorem empty (N : ℕ) (samples : ℕ → T.Value) : StoredWindow N samples 0 0 [] :=
  ⟨(Nat.zero_mod N).symm, (Nat.min_zero N).symm, Rolling.empty N samples⟩

theorem index_lt (hs : StoredWindow (c + 1) samples index count h) : index < c + 1 :=
  hs.index_eq ▸ Nat.mod_lt _ (Nat.succ_pos c)

/-- A full window keeps its count. -/
theorem count_full (hs : StoredWindow (c + 1) samples index count h) (hfull : ¬ count < c + 1) :
    min (c + 1) (count + 1) = count := by
  have hcount := hs.count_eq
  omega

theorem length_window (hs : StoredWindow N samples index count h) :
    (h.rtake N).length = count := by
  rw [Rolling.length_rtake, hs.count_eq]

/-- A push keeps the window. -/
theorem push (hs : StoredWindow (c + 1) samples index count h) (v : T.Value) :
    StoredWindow (c + 1) (Function.update samples index v) ((index + 1) % (c + 1))
      (min (c + 1) (count + 1)) (h ++ [v]) := by
  obtain ⟨hindex, hcount, hrolling⟩ := hs
  refine ⟨?_, ?_, ?_⟩
  · rw [hindex, Nat.mod_add_mod, List.length_append, List.length_singleton]
  · rw [hcount, List.length_append, List.length_singleton]
    omega
  · rw [hindex]
    exact hrolling.write v

/-- The window before a push that fills a free cell. -/
theorem rtake_of_free (hs : StoredWindow (c + 1) samples index count h) (hfree : count < c + 1) :
    h.rtake (c + 1) = h.rtake c := by
  have hlen : h.length < c + 1 := by
    have hcount := hs.count_eq
    omega
  rw [List.rtake, List.rtake, Nat.sub_eq_zero_of_le hlen.le,
    Nat.sub_eq_zero_of_le (Nat.le_of_lt_succ hlen)]

/-- The window before a push that overwrites its oldest sample. -/
theorem rtake_of_full (hs : StoredWindow (c + 1) samples index count h) (hfull : ¬ count < c + 1) :
    h.rtake (c + 1) = samples index :: h.rtake c := by
  have hlen : c + 1 ≤ h.length := by
    have hcount := hs.count_eq
    omega
  rw [hs.index_eq, hs.rolling.head hlen]

/-- The samples stored are those of the window. -/
theorem perm (hs : StoredWindow (c + 1) samples index count h) :
    ((List.range count).map samples).Perm (h.rtake (c + 1)) :=
  hs.count_eq ▸ hs.rolling.perm

end StoredWindow

/-- The window is short enough for its sum. -/
theorem length_rtake_lt (hN : N < 2 ^ 32) {k : ℕ} (hk : k ≤ N) (h : List T.Value) :
    (h.rtake k).length < 2 ^ 32 := by
  rw [Rolling.length_rtake]
  exact (Nat.min_le_left k h.length).trans_lt (hk.trans_lt hN)

/-! ## The running sum -/

/-- What `MovingAverage` keeps. -/
structure MovingAverage.Follows (N : ℕ) (m : MovingAverage T) (h : List T.Value) : Prop where
  /-- The last samples are stored. -/
  stored : StoredWindow N m.samples m.index m.count h
  /-- The sum is exact. -/
  sum_eq : m.sum.val = total (h.rtake N)

namespace MovingAverage

variable {m : MovingAverage T}

theorem follows_init (N : ℕ) : Follows N (init : MovingAverage T) [] :=
  ⟨StoredWindow.empty N _, by rw [List.rtake_nil]; rfl⟩

theorem follows_clear (N : ℕ) (m : MovingAverage T) : Follows N m.clear [] :=
  ⟨StoredWindow.empty N _, by rw [List.rtake_nil]; rfl⟩

/-- **A push keeps the sum exact**, whether it fills a free cell or overwrites the oldest sample. -/
theorem Follows.push (hT : T.bits ≤ 32) (hN : c + 1 < 2 ^ 32) (hm : Follows (c + 1) m h)
    (v : T.Value) : ∃ m', m.push (c + 1) v = .ok (.ok, m') ∧ Follows (c + 1) m' (h ++ [v]) := by
  have hstored := hm.stored.push v
  have hlt := hm.stored.index_lt
  have hnext : total ((h ++ [v]).rtake (c + 1)) = total (h.rtake c) + v.val := by
    rw [List.rtake_concat_succ, total_append, total_cons, total_nil, add_zero]
  have hholds : (numericAccumulator T).Holds (total (h.rtake c) + v.val) := by
    rw [← hnext]
    exact holds_total hT (length_rtake_lt hN le_rfl _)
  rw [MovingAverage.push, if_neg (Nat.succ_ne_zero c)]
  by_cases hfree : m.count < c + 1
  · have hsum : m.sum.val + v.val = total (h.rtake c) + v.val := by
      rw [hm.sum_eq, hm.stored.rtake_of_free hfree]
    rw [if_pos hfree, storeSample_of_lt hlt, addSample_of_holds hT hsum hholds]
    rw [min_eq_right (Nat.succ_le_of_lt hfree)] at hstored
    exact ⟨_, rfl, hstored, hnext.symm⟩
  · -- the sample that leaves the window is the one in the next cell
    have hsum : m.sum.val - (m.samples m.index).val = total (h.rtake c) := by
      rw [hm.sum_eq, hm.stored.rtake_of_full hfree, total_cons, add_sub_cancel_left]
    have hrest : (numericAccumulator T).Holds (total (h.rtake c)) :=
      holds_total hT (length_rtake_lt hN (Nat.le_succ c) _)
    rw [if_neg hfree, loadSample_of_lt hlt]
    rw [hm.stored.count_full hfree] at hstored
    change ∃ m', ((subSample m.sum (m.samples m.index)).bind _) = _ ∧ _
    rw [subSample_of_holds hT hsum hrest]
    change ∃ m', ((storeSample (c + 1) m.samples m.index v).bind _) = _ ∧ _
    rw [storeSample_of_lt hlt]
    change ∃ m', ((addSample ⟨_, hrest⟩ v).bind _) = _ ∧ _
    rw [addSample_of_holds hT rfl hholds]
    exact ⟨_, rfl, hstored, hnext.symm⟩

/-- The average is the mean of the window. -/
theorem Follows.average (hN : N < 2 ^ 32) (hm : Follows N m h) :
    m.average = .ok (mean (h.rtake N)) := by
  have hlen := hm.stored.length_window
  rw [MovingAverage.average]
  by_cases hzero : m.count = 0
  · rw [if_pos hzero, List.length_eq_zero_iff.mp (hlen.trans hzero), mean_nil]
  · rw [if_neg hzero, ← hlen]
    exact divideSum_total hm.sum_eq (by omega) (length_rtake_lt hN le_rfl h)

/-- A call answers as the window of samples does. -/
theorem Follows.call (hT : T.bits ≤ 32) (hN : c + 1 < 2 ^ 32) (hm : Follows (c + 1) m h)
    (i : StatsCall T) :
    ∃ m', m.call (c + 1) i = .ok ((SampleWindow.call (c + 1) h i).1, m') ∧
      Follows (c + 1) m' (SampleWindow.call (c + 1) h i).2 := by
  cases i with
  | push v =>
    obtain ⟨m', hpush, hm'⟩ := hm.push hT hN v
    refine ⟨m', ?_, hm'⟩
    rw [MovingAverage.call, hpush]
    change (m'.average.bind _) = _
    rw [hm'.average hN]
    simp only [SampleWindow.call, hm'.stored.length_window]
    rfl
  | clear => exact ⟨m.clear, rfl, follows_clear (c + 1) m⟩

end MovingAverage

/-! ## The recomputed sum -/

/-- What `WindowStats` keeps. -/
def WindowStats.Follows (N : ℕ) (s : WindowStats T) (h : List T.Value) : Prop :=
  StoredWindow N s.samples s.index s.count h

namespace WindowStats

variable {s : WindowStats T}

theorem follows_init (N : ℕ) : Follows N (init : WindowStats T) [] := StoredWindow.empty N _

theorem follows_clear (N : ℕ) (s : WindowStats T) : Follows N s.clear [] := StoredWindow.empty N _

theorem Follows.push (hs : Follows (c + 1) s h) (v : T.Value) :
    ∃ s', s.push (c + 1) v = .ok (.ok, s') ∧ Follows (c + 1) s' (h ++ [v]) := by
  have hstored := StoredWindow.push hs v
  rw [WindowStats.push, if_neg (Nat.succ_ne_zero c), storeSample_of_lt hs.index_lt]
  by_cases hfree : s.count < c + 1
  · rw [min_eq_right (Nat.succ_le_of_lt hfree)] at hstored
    rw [if_pos hfree]
    exact ⟨_, rfl, hstored⟩
  · rw [StoredWindow.count_full hs hfree] at hstored
    rw [if_neg hfree]
    exact ⟨_, rfl, hstored⟩

/-- Adding up stored samples to a sum that is exact so far. -/
theorem foldlM_addSample (N : ℕ) (samples : ℕ → T.Value) (hT : T.bits ≤ 32) (cells : List ℕ)
    (hcells : ∀ i ∈ cells, i < N)
    (done : List T.Value) (hlen : done.length + cells.length < 2 ^ 32)
    (hsum : (numericAccumulator T).Holds (total done)) :
    ∃ sum, cells.foldlM (fun sum i => do
        let sample ← loadSample N samples i
        addSample sum sample) (⟨total done, hsum⟩ : (numericAccumulator T).Value) = .ok sum ∧
      sum.val = total (done ++ cells.map samples) := by
  induction cells generalizing done with
  | nil => exact ⟨_, rfl, by rw [List.map_nil, List.append_nil]⟩
  | cons i cells ih =>
    have hnext : (numericAccumulator T).Holds (total (done ++ [samples i])) := by
      apply holds_total hT
      simp only [List.length_append, List.length_cons, List.length_nil] at hlen ⊢
      omega
    have heq : total done + (samples i).val = total (done ++ [samples i]) := by simp
    obtain ⟨sum, hfold, hval⟩ := ih (fun j hj => hcells j (List.mem_cons_of_mem i hj))
      (done ++ [samples i]) (by simp at hlen ⊢; omega) hnext
    refine ⟨sum, ?_, by rw [hval, List.append_assoc, List.map_cons, List.singleton_append]⟩
    rw [List.foldlM_cons, loadSample_of_lt (hcells i List.mem_cons_self)]
    change (addSample ⟨total done, hsum⟩ (samples i)).bind _ = _
    rw [addSample_of_holds hT heq hnext]
    exact hfold

/-- **The stored samples add up to the sum of the window.** -/
theorem Follows.recompute_eq (hT : T.bits ≤ 32) (hN : c + 1 < 2 ^ 32) (hs : Follows (c + 1) s h) :
    ∃ sum, s.recompute (c + 1) = .ok sum ∧ sum.val = total (h.rtake (c + 1)) := by
  have hcount : s.count ≤ c + 1 := hs.count_eq ▸ Nat.min_le_left _ _
  have hzero : (numericAccumulator T).Holds (total ([] : List T.Value)) :=
    IntegralType.holds_zero _
  obtain ⟨sum, hfold, hval⟩ := foldlM_addSample (c + 1) s.samples hT
    (List.range s.count) (fun i hi => (List.mem_range.mp hi).trans_le hcount) [] (by
      rw [List.length_nil, List.length_range]
      omega) hzero
  exact ⟨sum, hfold, hval.trans (total_perm (StoredWindow.perm hs))⟩

/-- The average is the mean of the window. -/
theorem Follows.average (hT : T.bits ≤ 32) (hN : c + 1 < 2 ^ 32) (hs : Follows (c + 1) s h) :
    s.average (c + 1) = .ok (mean (h.rtake (c + 1))) := by
  have hlen := StoredWindow.length_window hs
  rw [WindowStats.average]
  by_cases hzero : s.count = 0
  · rw [if_pos hzero, List.length_eq_zero_iff.mp (hlen.trans hzero), mean_nil]
  · obtain ⟨sum, hsum, hval⟩ := hs.recompute_eq hT hN
    rw [if_neg hzero, hsum, ← hlen]
    exact divideSum_total hval (by omega) (length_rtake_lt hN le_rfl h)

/-- A call answers as the window of samples does. -/
theorem Follows.call (hT : T.bits ≤ 32) (hN : c + 1 < 2 ^ 32) (hs : Follows (c + 1) s h)
    (i : StatsCall T) :
    ∃ s', s.call (c + 1) i = .ok ((SampleWindow.call (c + 1) h i).1, s') ∧
      Follows (c + 1) s' (SampleWindow.call (c + 1) h i).2 := by
  cases i with
  | push v =>
    obtain ⟨s', hpush, hs'⟩ := hs.push v
    refine ⟨s', ?_, hs'⟩
    rw [WindowStats.call, hpush]
    change ((s'.average (c + 1)).bind _) = _
    rw [hs'.average hT hN]
    simp only [SampleWindow.call, StoredWindow.length_window hs']
    rfl
  | clear => exact ⟨s.clear, rfl, follows_clear (c + 1) s⟩

/-- The loop of `min` and `max` ends with a value that no other one passes. -/
theorem foldlM_extreme (N : ℕ) (samples : ℕ → T.Value) (passes : T.Value → T.Value → Prop)
    [DecidableRel passes]
    (hirrefl : ∀ u, ¬ passes u u) (hasymm : ∀ u v, passes u v → ¬ passes v u)
    (htrans : ∀ u v w, ¬ passes u v → ¬ passes v w → ¬ passes u w) (cells : List ℕ)
    (hcells : ∀ i ∈ cells, i < N) (value : T.Value) :
    ∃ best, cells.foldlM (fun value i => do
        let sample ← loadSample N samples i
        .ok (if passes sample value then sample else value)) value =
          (.ok best : Except StatsFault T.Value) ∧
      best ∈ value :: cells.map samples ∧ ∀ u ∈ value :: cells.map samples, ¬ passes u best := by
  induction cells generalizing value with
  | nil =>
    refine ⟨value, rfl, List.mem_cons_self, fun u hu => ?_⟩
    rw [List.mem_singleton.mp hu]
    exact hirrefl value
  | cons i cells ih =>
    obtain ⟨best, hfold, hmem, hbest⟩ := ih (fun j hj => hcells j (List.mem_cons_of_mem i hj))
      (if passes (samples i) value then samples i else value)
    refine ⟨best, ?_, ?_, ?_⟩
    · rw [List.foldlM_cons, loadSample_of_lt (hcells i List.mem_cons_self)]
      exact hfold
    · rw [List.map_cons]
      split at hmem
      · exact List.mem_cons_of_mem _ hmem
      · rcases List.mem_cons.mp hmem with rfl | hrest
        · exact List.mem_cons_self
        · exact List.mem_cons_of_mem _ (List.mem_cons_of_mem _ hrest)
    · -- the one of the two that was dropped does not pass the one that was kept
      have hkept := hbest _ List.mem_cons_self
      have hpair : ¬ passes value best ∧ ¬ passes (samples i) best := by
        split at hkept
        · next hpass => exact ⟨htrans _ _ _ (hasymm _ _ hpass) hkept, hkept⟩
        · next hpass => exact ⟨hkept, htrans _ _ _ hpass hkept⟩
      intro u hu
      rw [List.map_cons, List.mem_cons, List.mem_cons] at hu
      rcases hu with rfl | rfl | hrest
      · exact hpair.1
      · exact hpair.2
      · exact hbest u (List.mem_cons_of_mem _ hrest)

/-- `min` and `max` give a sample of the window that no other one passes. -/
theorem Follows.extreme_eq (hs : Follows (c + 1) s h) (passes : T.Value → T.Value → Prop)
    [DecidableRel passes] (hirrefl : ∀ u, ¬ passes u u)
    (hasymm : ∀ u v, passes u v → ¬ passes v u)
    (htrans : ∀ u v w, ¬ passes u v → ¬ passes v w → ¬ passes u w) (hne : h ≠ []) :
    ∃ best, s.extreme passes (c + 1) = .ok best ∧ best ∈ h.rtake (c + 1) ∧
      ∀ u ∈ h.rtake (c + 1), ¬ passes u best := by
  have hcount : s.count ≤ c + 1 := hs.count_eq ▸ Nat.min_le_left _ _
  have hpos : 0 < s.count := by
    have heq := hs.count_eq
    have hlen := List.length_pos_of_ne_nil hne
    omega
  obtain ⟨best, hfold, hmem, hbest⟩ := foldlM_extreme (c + 1) s.samples passes
    hirrefl hasymm htrans (List.range' 1 (s.count - 1)) (by
      intro i hi
      have hbounds := List.mem_range'_1.mp hi
      omega) (s.samples 0)
  have hcells : s.samples 0 :: (List.range' 1 (s.count - 1)).map s.samples =
      (List.range s.count).map s.samples := by
    obtain ⟨n, hn⟩ := Nat.exists_eq_succ_of_ne_zero hpos.ne'
    rw [hn, List.range_eq_range', List.range'_succ]
    rfl
  have hperm := StoredWindow.perm hs
  rw [hcells] at hmem hbest
  refine ⟨best, ?_, hperm.mem_iff.mp hmem, fun u hu => hbest u (hperm.mem_iff.mpr hu)⟩
  rw [WindowStats.extreme, if_neg hpos.ne', loadSample_of_lt (Nat.succ_pos c)]
  exact hfold

/-- `min` is the least sample of the window. -/
theorem Follows.min_eq (hs : Follows (c + 1) s h) (hne : h ≠ []) :
    ∃ least, s.min (c + 1) = .ok least ∧ least ∈ h.rtake (c + 1) ∧
      ∀ u ∈ h.rtake (c + 1), least.val ≤ u.val := by
  obtain ⟨least, hmin, hmem, hleast⟩ := hs.extreme_eq (fun sample value => sample.val < value.val)
    (fun u => lt_irrefl _) (fun u v => lt_asymm)
    (fun u v w huv hvw => not_lt.mpr ((not_lt.mp hvw).trans (not_lt.mp huv))) hne
  exact ⟨least, hmin, hmem, fun u hu => not_lt.mp (hleast u hu)⟩

/-- `max` is the greatest sample of the window. -/
theorem Follows.max_eq (hs : Follows (c + 1) s h) (hne : h ≠ []) :
    ∃ greatest, s.max (c + 1) = .ok greatest ∧ greatest ∈ h.rtake (c + 1) ∧
      ∀ u ∈ h.rtake (c + 1), u.val ≤ greatest.val := by
  obtain ⟨greatest, hmax, hmem, hgreatest⟩ :=
    hs.extreme_eq (fun sample value => sample.val > value.val)
      (fun u => lt_irrefl _) (fun u v => lt_asymm)
      (fun u v w huv hvw => not_lt.mpr ((not_lt.mp huv).trans (not_lt.mp hvw))) hne
  exact ⟨greatest, hmax, hmem, fun u hu => not_lt.mp (hgreatest u hu)⟩

end WindowStats

/-- **Sliding averages agree**: fed the same calls, both classes answer as the window of the last `N`
samples does after every call, no call fails, and the running sum is the exact sum of the window. -/
theorem sliding_averages_agree (T : IntegralType) (hT : T.bits ≤ 32) (N : ℕ) (hpos : 1 ≤ N)
    (hN : N < 2 ^ 32) (calls : List (StatsCall T)) :
    outputs (checked fun m i => (MovingAverage.call N m i).toOption) (some .init) calls =
        outputs (checked fun s i => (WindowStats.call N s i).toOption) (some .init) calls ∧
      outputs (checked fun m i => (MovingAverage.call N m i).toOption) (some .init) calls =
        (outputs (SampleWindow.call N) [] calls).map some ∧
      ∃ m, final (checked fun m i => (MovingAverage.call N m i).toOption) (some .init) calls =
          some m ∧
        m.sum.val = total ((final (SampleWindow.call N) [] calls).rtake N) := by
  obtain ⟨c, rfl⟩ : ∃ c, N = c + 1 := ⟨N - 1, (Nat.sub_add_cancel hpos).symm⟩
  have hmovingStep : ∀ (m : MovingAverage T) h i, MovingAverage.Follows (c + 1) m h →
      ∃ m', (MovingAverage.call (c + 1) m i).toOption =
          some ((SampleWindow.call (c + 1) h i).1, m') ∧
        MovingAverage.Follows (c + 1) m' (SampleWindow.call (c + 1) h i).2 := by
    intro m h i hm
    obtain ⟨m', hcall, hm'⟩ := hm.call hT hN i
    exact ⟨m', by rw [hcall]; rfl, hm'⟩
  have hstatsStep : ∀ (s : WindowStats T) h i, WindowStats.Follows (c + 1) s h →
      ∃ s', (WindowStats.call (c + 1) s i).toOption =
          some ((SampleWindow.call (c + 1) h i).1, s') ∧
        WindowStats.Follows (c + 1) s' (SampleWindow.call (c + 1) h i).2 := by
    intro s h i hs
    obtain ⟨s', hcall, hs'⟩ := hs.call hT hN i
    exact ⟨s', by rw [hcall]; rfl, hs'⟩
  obtain ⟨hmoving, m, hfinal, hm⟩ :=
    checked_simulation (MovingAverage.Follows (c + 1)) hmovingStep
      (MovingAverage.follows_init (c + 1)) calls
  obtain ⟨hstats, -⟩ :=
    checked_simulation (WindowStats.Follows (c + 1)) hstatsStep (WindowStats.follows_init (c + 1))
      calls
  exact ⟨hmoving.trans hstats.symm, hmoving, m, hfinal, hm.sum_eq⟩

/-- A push of a 32-bit sample. -/
def reading (v : ℤ) : StatsCall (.int true .w32) := .push (IntegralType.convert _ v)

/-- Samples of which the first is cleared away. -/
def readings : List (StatsCall (.int true .w32)) :=
  [reading 7, .clear, reading 10, reading 20, reading 30, reading 40, reading 50]

theorem sliding_averages_agree_readings :
    (outputs (checked fun m i => (MovingAverage.call 4 m i).toOption) (some .init) readings).map
        (Option.map fun report => (report.size, report.average.val)) =
      [some (1, 7), some (0, 0), some (1, 10), some (2, 15), some (3, 20), some (4, 25),
        some (4, 35)] ∧
      outputs (checked fun m i => (MovingAverage.call 4 m i).toOption) (some .init) readings =
        outputs (checked fun s i => (WindowStats.call 4 s i).toOption) (some .init) readings ∧
      ∃ m, final (checked fun m i => (MovingAverage.call 4 m i).toOption) (some .init) readings =
          some m ∧ m.sum.val = 140 := by
  obtain ⟨hagree, hmoving, m, hfinal, hsum⟩ :=
    sliding_averages_agree (.int true .w32) (by decide) 4 (by norm_num) (by norm_num) readings
  exact ⟨by rw [hmoving]; decide, hagree, m, hfinal, by rw [hsum]; decide⟩

end Memkit
