import Mathlib.Tactic
import Memkit.Core.Status

/-! # What a timer wheel is for

* **`TimerEvent`** — what happens at the interface of a timer wheel: calls, the begin and the end of
  a tick, and callbacks.
* **`OnTime`** — what is asked of a history: a node scheduled with delay `d` and not cancelled has
  its callback invoked exactly once, during the `d`-th tick from there, and no other callback is
  invoked.
* **`Agenda`** — the exact count of ticks and the exact due time of every armed node. `Accepts` says
  that a history follows the agenda, and `Accepts.onTime` that such a history is on time. -/

namespace Memkit

variable {ι : Type*}

/-- An event at the interface of a timer wheel. -/
inductive TimerEvent (ι : Type*)
  | schedule (node : ι) (delay : BitVec 32) (result : Status)
  | cancel (node : ι)
  /-- A tick begins. -/
  | tick
  /-- The callback of a node is invoked. -/
  | fire (node : ι)
  | tickEnd
  deriving DecidableEq, Repr

/-- The ticks begun in a history. -/
def ticks : List (TimerEvent ι) → ℕ
  | [] => 0
  | .tick :: es => ticks es + 1
  | _ :: es => ticks es

/-- An event that ends or replaces a scheduling of a node. -/
def TimerEvent.Touches (n : ι) : TimerEvent ι → Prop
  | .schedule m _ .ok => m = n
  | .cancel m => m = n
  | .fire m => m = n
  | _ => False

/-- **On time.** -/
structure OnTime (trace : List (TimerEvent ι)) : Prop where
  /-- A node scheduled with delay `d` and not cancelled is invoked exactly once until the end of the
  `d`-th tick, and then during that tick. -/
  once : ∀ before n d during,
    before ++ .schedule n d .ok :: (during ++ [.tickEnd]) <+: trace →
    .cancel n ∉ during → ticks during = d.toNat →
    ∃ xs ys, during = xs ++ .fire n :: ys ∧ ticks xs = d.toNat ∧ .fire n ∉ xs ∧ .fire n ∉ ys
  /-- A callback is invoked only for a scheduling with delay `d` that lies `d` ticks back and is
  neither cancelled nor served. -/
  only : ∀ before n, before ++ [.fire n] <+: trace →
    ∃ xs d ys, before = xs ++ .schedule n d .ok :: ys ∧ (∀ e ∈ ys, ¬ e.Touches n) ∧
      ticks ys = d.toNat

/-- The exact count of ticks, and the due time of every armed node. -/
structure Agenda (ι : Type*) where
  now : ℕ
  due : ι → Option ℕ

namespace Agenda

variable [DecidableEq ι] {callable : ι → Bool} {a : Agenda ι} {e : TimerEvent ι}
  {es es' : List (TimerEvent ι)} {n : ι} {u : ℕ}

/-- The agenda after an event. -/
def after (a : Agenda ι) : TimerEvent ι → Agenda ι
  | .schedule n d .ok => { a with due := Function.update a.due n (some (a.now + d.toNat)) }
  | .cancel n => { a with due := Function.update a.due n none }
  | .tick => { a with now := a.now + 1 }
  | .fire n => { a with due := Function.update a.due n none }
  | _ => a

/-- The agenda after a history. -/
def afterAll : Agenda ι → List (TimerEvent ι) → Agenda ι
  | a, [] => a
  | a, e :: es => afterAll (a.after e) es

/-- What may happen next: a callback at the due time of its node, the end of a tick when nothing is
due, and a scheduling that succeeds exactly for a positive delay and an unarmed node with a
callback. -/
def Allows (callable : ι → Bool) (a : Agenda ι) : TimerEvent ι → Prop
  | .schedule n d result => result = .ok ↔ d ≠ 0 ∧ callable n = true ∧ a.due n = none
  | .fire n => a.due n = some a.now
  | .tickEnd => ∀ n u, a.due n = some u → a.now < u
  | _ => True

/-- The history follows the agenda. -/
def Accepts (callable : ι → Bool) : Agenda ι → List (TimerEvent ι) → Prop
  | _, [] => True
  | a, e :: es => Allows callable a e ∧ Accepts callable (a.after e) es

/-! ## Histories in parts -/

theorem afterAll_append : a.afterAll (es ++ es') = (a.afterAll es).afterAll es' := by
  induction es generalizing a with
  | nil => rfl
  | cons e es ih => exact ih

@[simp] theorem afterAll_concat : a.afterAll (es ++ [e]) = (a.afterAll es).after e := afterAll_append

theorem accepts_append :
    Accepts callable a (es ++ es') ↔ Accepts callable a es ∧ Accepts callable (a.afterAll es) es' := by
  induction es generalizing a with
  | nil => simp [Accepts, afterAll]
  | cons e es ih =>
    simp only [List.cons_append, Accepts, afterAll, ih, and_assoc]

theorem accepts_concat :
    Accepts callable a (es ++ [e]) ↔
      Accepts callable a es ∧ Allows callable (a.afterAll es) e := by
  rw [accepts_append]
  exact and_congr_right' (and_iff_left trivial)

/-- A part of a history from its beginning follows the agenda too. -/
theorem Accepts.of_prefix (h : Accepts callable a es') (hpre : es <+: es') :
    Accepts callable a es := by
  obtain ⟨rest, rfl⟩ := hpre
  exact (accepts_append.mp h).1

/-- The agenda counts the ticks. -/
theorem now_afterAll (a : Agenda ι) (es : List (TimerEvent ι)) :
    (a.afterAll es).now = a.now + ticks es := by
  induction es generalizing a with
  | nil => rfl
  | cons e es ih =>
    rw [afterAll, ih]
    cases e with
    | tick =>
      simp only [after, ticks]
      omega
    | schedule n d result => cases result <;> rfl
    | _ => rfl

/-- An event that does not touch a node leaves its due time alone. -/
theorem due_after (he : ¬ e.Touches n) : (a.after e).due n = a.due n := by
  cases e with
  | schedule m d result =>
    cases result with
    | ok => exact Function.update_of_ne (fun heq => he heq.symm) _ _
    | _ => rfl
  | cancel m => exact Function.update_of_ne (fun heq => he heq.symm) _ _
  | fire m => exact Function.update_of_ne (fun heq => he heq.symm) _ _
  | tick => rfl
  | tickEnd => rfl

/-- A history that does not touch a node leaves its due time alone. -/
theorem due_afterAll (hes : ∀ e ∈ es, ¬ e.Touches n) : (a.afterAll es).due n = a.due n := by
  induction es generalizing a with
  | nil => rfl
  | cons e es ih =>
    rw [afterAll, ih fun e' he' => hes e' (List.mem_cons_of_mem e he'),
      due_after (hes e List.mem_cons_self)]

/-- An armed node was scheduled, and not touched since. -/
theorem exists_schedule (hunarmed : a.due n = none) (hdue : (a.afterAll es).due n = some u) :
    ∃ xs d ys, es = xs ++ .schedule n d .ok :: ys ∧ (∀ e ∈ ys, ¬ e.Touches n) ∧
      u = (a.afterAll xs).now + d.toNat := by
  induction es using List.reverseRecOn generalizing u with
  | nil =>
    rw [afterAll, hunarmed] at hdue
    cases hdue
  | append_singleton es e ih =>
    rw [afterAll_concat] at hdue
    by_cases he : e.Touches n
    · -- of the events that touch the node only a scheduling arms it
      match e, he with
      | .schedule m d .ok, he =>
        obtain rfl : m = n := he
        simp only [after, Function.update_self, Option.some.injEq] at hdue
        exact ⟨es, d, [], rfl, fun _ h => absurd h List.not_mem_nil, hdue.symm⟩
      | .cancel m, he =>
        obtain rfl : m = n := he
        simp [after] at hdue
      | .fire m, he =>
        obtain rfl : m = n := he
        simp [after] at hdue
    · rw [due_after he] at hdue
      obtain ⟨xs, d, ys, rfl, hys, hu⟩ := ih hdue
      refine ⟨xs, d, ys ++ [e], by simp, ?_, hu⟩
      intro e' he'
      rcases List.mem_append.mp he' with he' | he'
      · exact hys e' he'
      · obtain rfl := List.mem_singleton.mp he'
        exact he

/-! ## Histories that follow the agenda are on time -/

/-- Until the end of the current tick a node that is due later or not at all is not invoked. -/
theorem Accepts.not_fires (h : Accepts callable a es) (hticks : ticks es = 0)
    (hlater : ∀ v, a.due n = some v → a.now < v) : .fire n ∉ es := by
  induction es generalizing a with
  | nil => exact List.not_mem_nil
  | cons e es ih =>
    obtain ⟨hallows, hrest⟩ := h
    have hne : e ≠ .fire n := by
      rintro rfl
      exact absurd (hlater a.now hallows) (lt_irrefl _)
    have hnow : (a.after e).now = a.now ∧ ticks es = 0 := by
      cases e with
      | tick => simp [ticks] at hticks
      | schedule m d result => cases result <;> exact ⟨rfl, hticks⟩
      | cancel m => exact ⟨rfl, hticks⟩
      | fire m => exact ⟨rfl, hticks⟩
      | tickEnd => exact ⟨rfl, hticks⟩
    have hlater' : ∀ v, (a.after e).due n = some v → (a.after e).now < v := by
      intro v hv
      rw [hnow.1]
      by_cases he : e.Touches n
      · match e, he with
        | .schedule m d .ok, he =>
          obtain rfl : m = n := he
          have hpos : d ≠ 0 := (hallows.mp rfl).1
          have hd : 0 < d.toNat := by
            rw [Nat.pos_iff_ne_zero]
            exact fun h0 => hpos (BitVec.eq_of_toNat_eq (by simpa using h0))
          simp only [after, Function.update_self, Option.some.injEq] at hv
          omega
        | .cancel m, he =>
          obtain rfl : m = n := he
          simp [after] at hv
        | .fire m, he =>
          obtain rfl : m = n := he
          simp [after] at hv
      · rw [due_after he] at hv
        exact hlater v hv
    intro hmem
    rcases List.mem_cons.mp hmem with heq | hmem
    · exact hne heq.symm
    · exact ih hrest hnow.2 hlater' hmem

/-- An armed node is invoked exactly once until the end of its tick. -/
theorem Accepts.fires_once (h : Accepts callable a (es ++ [.tickEnd])) (hdue : a.due n = some u)
    (hend : a.now + ticks es = u) (hcancel : .cancel n ∉ es) :
    ∃ xs ys, es = xs ++ .fire n :: ys ∧ a.now + ticks xs = u ∧ .fire n ∉ xs ∧ .fire n ∉ ys := by
  induction es generalizing a with
  | nil =>
    -- the tick ends with nothing due, so that the time cannot have come yet
    have hlt := h.1 n u hdue
    simp only [ticks] at hend
    omega
  | cons e es ih =>
    obtain ⟨hallows, hrest⟩ := h
    by_cases hfire : e = .fire n
    · subst hfire
      -- it fires at its own time, and is not armed again before the end
      have hnow : a.now = u := by
        have heq : a.due n = some a.now := hallows
        rw [hdue] at heq
        exact (Option.some.inj heq).symm
      have hrest' : Accepts callable (a.after (.fire n)) es := (accepts_append.mp hrest).1
      refine ⟨[], es, rfl, hnow, List.not_mem_nil, hrest'.not_fires ?_ ?_⟩
      · simp only [ticks] at hend
        omega
      · intro v hv
        simp [after] at hv
    · -- the node stays armed: a second scheduling is refused
      have htouch : ¬ e.Touches n := by
        intro he
        match e, he with
        | .schedule m d .ok, he =>
          obtain rfl : m = n := he
          have hnone := (hallows.mp rfl).2.2
          rw [hdue] at hnone
          cases hnone
        | .cancel m, he =>
          obtain rfl : m = n := he
          exact hcancel List.mem_cons_self
        | .fire m, he =>
          obtain rfl : m = n := he
          exact hfire rfl
      have hnow : (a.after e).now + ticks es = a.now + ticks (e :: es) := by
        have h₁ := now_afterAll a (e :: es)
        have h₂ := now_afterAll (a.after e) es
        exact h₂.symm.trans h₁
      obtain ⟨xs, ys, rfl, hxs, hfirst, hlast⟩ := ih hrest ((due_after htouch).trans hdue)
        (hnow.trans hend) fun hmem => hcancel (List.mem_cons_of_mem e hmem)
      refine ⟨e :: xs, ys, rfl, ?_, ?_, hlast⟩
      · have h₁ := now_afterAll a (e :: xs)
        have h₂ := now_afterAll (a.after e) xs
        exact (h₁.symm.trans h₂).trans hxs
      · intro hmem
        rcases List.mem_cons.mp hmem with heq | hmem
        · exact hfire heq.symm
        · exact hfirst hmem

/-- **A history that follows the agenda is on time.** -/
theorem Accepts.onTime (h : Accepts callable a es) (hunarmed : ∀ n, a.due n = none) :
    OnTime es where
  once := by
    intro before n d during hpre hcancel hticks
    have hacc := (accepts_append.mp (h.of_prefix hpre)).2
    obtain ⟨xs, ys, hduring, hxs, hfirst, hlast⟩ := hacc.2.fires_once
      (u := (a.afterAll before).now + d.toNat) (Function.update_self ..)
      (congrArg ((a.afterAll before).now + ·) hticks) hcancel
    exact ⟨xs, ys, hduring, Nat.add_left_cancel hxs, hfirst, hlast⟩
  only := by
    intro before n hpre
    have hallows : (a.afterAll before).due n = some (a.afterAll before).now :=
      (accepts_concat.mp (h.of_prefix hpre)).2
    obtain ⟨xs, d, ys, rfl, hys, hnow⟩ := exists_schedule (hunarmed n) hallows
    refine ⟨xs, d, ys, rfl, hys, ?_⟩
    rw [afterAll_append, afterAll, now_afterAll] at hnow
    exact Nat.add_left_cancel hnow

/-- In a history that is on time a callback comes at the due time. -/
theorem due_of_onTime (h : OnTime es') (hfire : es ++ [.fire n] <+: es') :
    (a.afterAll es).due n = some (a.afterAll es).now := by
  obtain ⟨xs, d, ys, rfl, hys, hticks⟩ := h.only es n hfire
  rw [afterAll_append, afterAll, due_afterAll hys, now_afterAll, hticks]
  exact Function.update_self ..

end Agenda

end Memkit
