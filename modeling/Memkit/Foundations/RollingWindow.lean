import Memkit.Foundations.CircularWindow
import Mathlib.Data.List.DropRight

/-! # Rolling windows

The last `c` values of a sequence, kept in a circle of `c` cells: each value goes into the cell of its
position modulo `c`, over the value that was there.

* **`Rolling c cells h`** — after the values `h`, oldest first, the cells hold the last `c` of them.
* **`write`** — the next value keeps the window.
* **`head`** — a full window starts with the value that is about to be overwritten.
* **`perm`** — the cells read from the first on are the window in another order. -/

open CircularWindow

variable {α : Type*} {c : ℕ} {cells : ℕ → α} {h : List α}

/-- The cells that hold the last values of `h`, from the oldest one on. -/
def Rolling (c : ℕ) (cells : ℕ → α) (h : List α) : Prop :=
  (slots c (h.length - min c h.length) (min c h.length)).map cells = h.rtake c

namespace Rolling

theorem empty (c : ℕ) (cells : ℕ → α) : Rolling c cells [] := by
  simp [Rolling]

/-- The part of the window that the next value leaves. -/
theorem kept (hw : Rolling (c + 1) cells h) :
    (slots (c + 1) (h.length - min c h.length) (min c h.length)).map cells = h.rtake c := by
  rcases Nat.lt_or_ge c h.length with hlt | hle
  · have hmin : min (c + 1) h.length = 1 + c := by omega
    have hoff : h.length - (1 + c) + 1 = h.length - c := by omega
    have hdrop := congrArg (List.drop 1) hw
    rw [hmin, ← List.map_drop, drop_slots, slots_mod, hoff, List.rtake, List.drop_drop] at hdrop
    rw [min_eq_left hlt.le, hdrop, List.rtake]
    congr 1
    omega
  · have hmin : min (c + 1) h.length = min c h.length := by omega
    rw [Rolling, hmin] at hw
    rw [hw, List.rtake, List.rtake]
    congr 1
    omega

/-- The next value keeps the window. -/
theorem write (hw : Rolling (c + 1) cells h) (v : α) :
    Rolling (c + 1) (Function.update cells (h.length % (c + 1)) v) (h ++ [v]) := by
  have hlen : (h ++ [v]).length = h.length + 1 := by simp
  have hmin : min (c + 1) (h.length + 1) = min c h.length + 1 := by omega
  have hoff : h.length + 1 - (min c h.length + 1) = h.length - min c h.length := by omega
  have hend : h.length - min c h.length + min c h.length = h.length := by omega
  have hfresh : h.length % (c + 1) ∉
      slots (c + 1) (h.length - min c h.length) (min c h.length) := by
    have hnot := end_notMem_slots (c := c + 1) (t := h.length - min c h.length)
      (n := min c h.length) (by omega)
    rwa [hend] at hnot
  -- the cell written is outside the part that is kept
  have hsame : (slots (c + 1) (h.length - min c h.length) (min c h.length)).map
      (Function.update cells (h.length % (c + 1)) v) = h.rtake c := by
    rw [← hw.kept]
    apply List.map_congr_left
    intro i hi
    exact Function.update_of_ne (ne_of_mem_of_not_mem hi hfresh) _ _
  rw [Rolling, hlen, hmin, hoff, slots_succ, List.map_append, hsame, hend, List.map_singleton,
    Function.update_self, List.rtake_concat_succ]

/-- A full window starts with the value that the next one overwrites. -/
theorem head (hw : Rolling (c + 1) cells h) (hfull : c + 1 ≤ h.length) :
    h.rtake (c + 1) = cells (h.length % (c + 1)) :: h.rtake c := by
  have hkept := hw.kept
  have hmod : (h.length - (c + 1)) % (c + 1) = h.length % (c + 1) :=
    (Nat.mod_eq_sub_mod hfull).symm
  have hoff : h.length - (c + 1) + 1 = h.length - c := by omega
  have hfirst : slots (c + 1) (h.length - (c + 1)) 1 = [h.length % (c + 1)] := by
    simp [slots, hmod]
  rw [min_eq_left (by omega)] at hkept
  rw [← hw, min_eq_left hfull, Nat.add_comm c 1, slots_add, slots_mod, List.map_append, ← hkept,
    Nat.add_comm 1 c, hoff, hfirst]
  rfl

/-- The cells read from the first on are the window in another order. -/
theorem perm (hw : Rolling (c + 1) cells h) :
    ((List.range (min (c + 1) h.length)).map cells).Perm (h.rtake (c + 1)) := by
  rw [← hw]
  apply List.Perm.map
  rcases Nat.lt_or_ge h.length (c + 1) with hlt | hfull
  · rw [min_eq_right hlt.le, Nat.sub_self, slots_of_le (by omega)]
    simp
  · rw [min_eq_left hfull]
    exact (slots_perm (Nat.succ_pos c) _).symm

theorem length_rtake (c : ℕ) (h : List α) : (h.rtake c).length = min c h.length := by
  rw [List.rtake, List.length_drop]
  omega

end Rolling
