import Memkit.Core.Status

/-! # Element and key policies

The containers handle elements through callbacks: `runtime_element_policy` copies and destroys
them, `runtime_hash_key_policy` hashes and compares keys. A callback may fail or not each time it
is called, so a copy is a function of the number of callback calls made so far. -/

namespace Memkit

/-- `runtime_element_policy` over elements of type `V`. -/
structure ElementPolicy (V : Type*) where
  /-- The `n`-th copy: from the contents of `dst` and of `src`, its status and the new `dst`. -/
  copyFn : ℕ → V → V → Status × V
  /-- What destroying an element leaves in its place. -/
  destroyFn : V → V

namespace ElementPolicy

variable {V : Type*}

/-- `copy_construct`. -/
def copyConstruct (p : ElementPolicy V) (n : ℕ) (dst src : V) : Status × V := p.copyFn n dst src

/-- `copy_assign`: the status of the copy is dropped. -/
def copyAssign (p : ElementPolicy V) (n : ℕ) (dst src : V) : V := (p.copyFn n dst src).2

/-- `destroy`. -/
def destroy (p : ElementPolicy V) (elem : V) : V := p.destroyFn elem

/-- Every copy succeeds and copies. -/
def NonFailing (p : ElementPolicy V) : Prop := ∀ n dst src, p.copyFn n dst src = (.ok, src)

/-- A copy that reports ok has copied. -/
def Faithful (p : ElementPolicy V) : Prop :=
  ∀ n dst src, (p.copyFn n dst src).1 = .ok → (p.copyFn n dst src).2 = src

theorem NonFailing.faithful {p : ElementPolicy V} (h : p.NonFailing) : p.Faithful := by
  intro n dst src _
  rw [h n dst src]

/-- The policy without callbacks: `memcpy`, and nothing to destroy. -/
def bytewise (V : Type*) : ElementPolicy V where
  copyFn _ _ src := (.ok, src)
  destroyFn elem := elem

theorem nonFailing_bytewise (V : Type*) : (bytewise V).NonFailing := fun _ _ _ => rfl

theorem NonFailing.copyConstruct {p : ElementPolicy V} (h : p.NonFailing) (n : ℕ) (dst src : V) :
    p.copyConstruct n dst src = (.ok, src) := h n dst src

theorem NonFailing.copyAssign {p : ElementPolicy V} (h : p.NonFailing) (n : ℕ) (dst src : V) :
    p.copyAssign n dst src = src := by
  rw [ElementPolicy.copyAssign, h n dst src]

end ElementPolicy

/-- `runtime_hash_key_policy` over keys of type `K`. -/
structure HashPolicy (w : ℕ) (K : Type*) where
  hash : K → BitVec w
  equal : K → K → Bool

namespace HashPolicy

variable {w : ℕ} {K : Type*}

/-- Key equality is an equivalence and equal keys have equal hashes. -/
structure Lawful (p : HashPolicy w K) : Prop where
  refl : ∀ a, p.equal a a = true
  symm : ∀ a b, p.equal a b = true → p.equal b a = true
  trans : ∀ a b c, p.equal a b = true → p.equal b c = true → p.equal a c = true
  hash_eq : ∀ a b, p.equal a b = true → p.hash a = p.hash b

namespace Lawful

variable {p : HashPolicy w K}

theorem comm (h : p.Lawful) (a b : K) : p.equal a b = p.equal b a := by
  rw [Bool.eq_iff_iff]
  exact ⟨h.symm a b, h.symm b a⟩

/-- Equal keys compare alike with every third key. -/
theorem congr_left (h : p.Lawful) {a b : K} (hab : p.equal a b = true) (c : K) :
    p.equal a c = p.equal b c := by
  rw [Bool.eq_iff_iff]
  exact ⟨h.trans b a c (h.symm a b hab), h.trans a b c hab⟩

end Lawful

/-- Keys compared by `=` and hashed by any function. -/
def ofDecEq [DecidableEq K] (hash : K → BitVec w) : HashPolicy w K where
  hash := hash
  equal a b := a = b

theorem lawful_ofDecEq [DecidableEq K] (hash : K → BitVec w) : (ofDecEq hash).Lawful where
  refl a := by simp [ofDecEq]
  symm a b h := by simpa [ofDecEq, eq_comm] using h
  trans a b c hab hbc := by
    simp only [ofDecEq, decide_eq_true_eq] at *
    exact hab.trans hbc
  hash_eq a b h := by
    simp only [ofDecEq, decide_eq_true_eq] at h
    rw [h]

end HashPolicy

end Memkit
