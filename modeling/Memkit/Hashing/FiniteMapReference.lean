import Memkit.Hashing.Chaining

/-! # The reference finite map

What a hash map is for: pairs of a key and a value, at most one for each class of equal keys. The
pairs are in a list, whose order no answer but that of a traversal depends on.

* **`Distinct`** — no two keys are equal.
* **`call`** — the operations, if there is always memory.
* **`MapMemory`** — the buckets of a map and the requests it has made, which say what its next
  request is answered.
* **`insert`** — an insertion into the memory that there is: it fails exactly if its own request for
  more buckets, or for the node of a new key, is refused.
* **`Step`** — what a map may answer: as the reference, in any order of a traversal. -/

namespace Memkit

namespace FiniteMap

variable {K V : Type*}

/-- The pair of `key`. -/
def find (equal : K → K → Bool) (xs : List (K × V)) (key : K) : Option (K × V) :=
  xs.find? fun x => equal x.1 key

/-- Replace the value of `key`, or add the pair. A key that is there stays as it is. -/
def put (equal : K → K → Bool) (xs : List (K × V)) (key : K) (value : V) : List (K × V) :=
  if (find equal xs key).isSome then xs.map fun x => if equal x.1 key then (x.1, value) else x
  else (key, value) :: xs

/-- Take the pair of `key` out. -/
def remove (equal : K → K → Bool) (xs : List (K × V)) (key : K) : Status × List (K × V) :=
  if (find equal xs key).isSome then (.ok, xs.filter fun x => !equal x.1 key) else (.notFound, xs)

/-- Read the value of `key`, over what `out` holds. -/
def get (equal : K → K → Bool) (xs : List (K × V)) (key : K) (out : V) : Status × V :=
  match find equal xs key with
  | none => (.notFound, out)
  | some x => (.ok, x.2)

/-- Dispatch a call. -/
def call (equal : K → K → Bool) (xs : List (K × V)) :
    ChainMap.Call K V → ChainMap.Reply K V × List (K × V)
  | .put (some key) (some value) => (.status .ok, put equal xs key value)
  | .put _ _ => (.status .nullPtr, xs)
  | .get (some key) (some out) =>
    let (st, value) := get equal xs key out
    (.value st (some value), xs)
  | .get _ out => (.value .nullPtr out, xs)
  | .remove (some key) =>
    let (st, xs) := remove equal xs key
    (.status st, xs)
  | .remove none => (.status .nullPtr, xs)
  | .contains (some key) => (.contains (find equal xs key).isSome, xs)
  | .contains none => (.contains false, xs)
  | .clear => (.done, [])
  | .foreach visit => (.visits (visitLoop visit [] xs).1 (visitLoop visit [] xs).2, xs)

end FiniteMap

/-- The memory of a map: its buckets, and how many requests it has made. -/
structure MapMemory (w : ℕ) where
  buckets : BitVec w
  requests : ℕ
  deriving DecidableEq, Repr

namespace MapMemory

variable {w : ℕ} {K V : Type*}

/-- The next request, for this many bytes. -/
def request (cfg : ChainConfig w K V) (m : MapMemory w) (bytes : BitVec w) :
    Status × MapMemory w :=
  (cfg.allocRaw m.requests bytes, { m with requests := m.requests + 1 })

/-- Before an insertion: twice the buckets, if there are few of them for so many pairs. -/
def grow (cfg : ChainConfig w K V) (m : MapMemory w) (pairs : ℕ) : Status × MapMemory w :=
  if shouldGrow cfg.growable m.buckets (BitVec.ofNat w pairs) then
    let newCount := growBucketCount m.buckets
    let (st, m) := m.request cfg (newCount * cfg.pointerSize)
    if st ≠ .ok then (st, m) else (.ok, { m with buckets := newCount })
  else (.ok, m)

end MapMemory

namespace FiniteMap

variable {w : ℕ} {K V : Type*}

/-- Put a pair into the buckets that there are; a new key needs a node. -/
def place (cfg : ChainConfig w K V) (xs : List (K × V)) (m : MapMemory w) (key : K) (value : V) :
    Status × List (K × V) × MapMemory w :=
  if (find cfg.hashPolicy.equal xs key).isSome then (.ok, put cfg.hashPolicy.equal xs key value, m)
  else
    let (st, m) := m.request cfg cfg.nodeBytes
    if st ≠ .ok then (st, xs, m) else (.ok, put cfg.hashPolicy.equal xs key value, m)

/-- Put a pair in. If a request is refused, the pairs stay as they are. -/
def insert (cfg : ChainConfig w K V) (xs : List (K × V)) (m : MapMemory w) (key : K) (value : V) :
    Status × List (K × V) × MapMemory w :=
  let (st, m) := m.grow cfg xs.length
  if st ≠ .ok then (st, xs, m) else place cfg xs m key value

/-- Dispatch a call of a map with the memory `m`. -/
def callWithin (cfg : ChainConfig w K V) (s : List (K × V) × MapMemory w) :
    ChainMap.Call K V → ChainMap.Reply K V × (List (K × V) × MapMemory w)
  | .put (some key) (some value) =>
    let (st, s) := insert cfg s.1 s.2 key value
    (.status st, s)
  | c =>
    let (reply, xs) := call cfg.hashPolicy.equal s.1 c
    (reply, xs, s.2)

/-- What a map may answer, and what is stored afterwards. -/
inductive Step (cfg : ChainConfig w K V) :
    List (K × V) × MapMemory w → ChainMap.Call K V → ChainMap.Reply K V →
      List (K × V) × MapMemory w → Prop
  | answers (s : List (K × V) × MapMemory w) (c : ChainMap.Call K V) :
    Step cfg s c (callWithin cfg s c).1 (callWithin cfg s c).2
  /-- A traversal visits every pair once, in some order, unless the visitor stops it. -/
  | visits (s : List (K × V) × MapMemory w) (ys : List (K × V)) (visit : List (K × V) → Status)
      (hperm : ys.Perm s.1) :
    Step cfg s (.foreach visit)
      (.visits (visitLoop visit [] ys).1 (visitLoop visit [] ys).2) s

/-- The reference answers. -/
theorem Step.of_eq {cfg : ChainConfig w K V} {s t : List (K × V) × MapMemory w}
    {c : ChainMap.Call K V} {reply : ChainMap.Reply K V} (h : callWithin cfg s c = (reply, t)) :
    Step cfg s c reply t := by
  have hstep : Step cfg s c _ _ := .answers s c
  rwa [h] at hstep

/-! ## The order does not matter -/

variable {policy : HashPolicy w K} {xs ys : List (K × V)} {x : K × V} {key : K}

/-- No two keys are equal. -/
def Distinct (equal : K → K → Bool) (xs : List (K × V)) : Prop :=
  xs.Pairwise fun x y => equal x.1 y.1 = false

theorem Distinct.perm (h : Distinct policy.equal xs) (hpolicy : policy.Lawful) (hperm : xs.Perm ys) :
    Distinct policy.equal ys :=
  hperm.pairwise h fun {x y} hxy => by rwa [hpolicy.comm]

/-- Only the keys matter. -/
theorem distinct_cons {equal : K → K → Bool} :
    Distinct equal (x :: ys) ↔ (∀ y ∈ ys, equal x.1 y.1 = false) ∧ Distinct equal ys :=
  List.pairwise_cons

theorem find_of_forall {equal : K → K → Bool} (h : ∀ x ∈ xs, equal x.1 key = false) :
    find equal xs key = none := by
  rw [find, List.find?_eq_none]
  intro x hx
  simp [h x hx]

/-- The other pairs have keys that are not equal to that of one of them. -/
theorem Distinct.others (h : Distinct policy.equal xs) (hpolicy : policy.Lawful)
    (hperm : xs.Perm (x :: ys)) (hx : policy.equal x.1 key = true) :
    ∀ y ∈ ys, policy.equal y.1 key = false := by
  intro y hy
  have hxy := (distinct_cons.mp (h.perm hpolicy hperm)).1 y hy
  rw [hpolicy.comm, ← hpolicy.congr_left hx, hxy]

/-- The pair of a key is found wherever it is. -/
theorem Distinct.find_eq (h : Distinct policy.equal xs) (hpolicy : policy.Lawful)
    (hperm : xs.Perm (x :: ys)) (hx : policy.equal x.1 key = true) :
    find policy.equal xs key = some x := by
  have hothers := h.others hpolicy hperm hx
  obtain ⟨y, hy⟩ : ∃ y, find policy.equal xs key = some y := by
    rw [← Option.isSome_iff_exists, find, List.find?_isSome]
    exact ⟨x, hperm.mem_iff.mpr List.mem_cons_self, hx⟩
  have hequal : policy.equal y.1 key = true :=
    List.find?_some (p := fun x : K × V => policy.equal x.1 key) hy
  rcases List.mem_cons.mp (hperm.mem_iff.mp (List.mem_of_find?_eq_some hy)) with rfl | hmem
  · exact hy
  · rw [hothers y hmem] at hequal
    cases hequal

/-- A pair is found under every key that equals its own. -/
theorem Distinct.find_of_mem (h : Distinct policy.equal xs) (hpolicy : policy.Lawful) (hmem : x ∈ xs)
    (hx : policy.equal x.1 key = true) : find policy.equal xs key = some x := by
  obtain ⟨as, bs, rfl⟩ := List.append_of_mem hmem
  exact h.find_eq hpolicy List.perm_middle hx

/-- The pairs after the value of a stored key is replaced. -/
theorem mem_put_of_stored {equal : K → K → Bool} (hstored : (find equal xs key).isSome) {value : V} :
    x ∈ put equal xs key value ↔ ∃ y ∈ xs, (if equal y.1 key then (y.1, value) else y) = x := by
  rw [put, if_pos hstored, List.mem_map]

/-- **Replacing** a value. -/
theorem Distinct.put_perm (h : Distinct policy.equal xs) (hpolicy : policy.Lawful)
    (hperm : xs.Perm (x :: ys)) (hx : policy.equal x.1 key = true) (value : V) :
    (put policy.equal xs key value).Perm ((x.1, value) :: ys) := by
  rw [put, h.find_eq hpolicy hperm hx, if_pos Option.isSome_some]
  refine (hperm.map _).trans ?_
  rw [List.map_cons, if_pos hx]
  refine List.Perm.cons _ (List.Perm.of_eq ?_)
  refine (List.map_congr_left fun y hy => ?_).trans (List.map_id ys)
  rw [h.others hpolicy hperm hx y hy]
  rfl

/-- **Removing** a pair. -/
theorem Distinct.remove_perm (h : Distinct policy.equal xs) (hpolicy : policy.Lawful)
    (hperm : xs.Perm (x :: ys)) (hx : policy.equal x.1 key = true) :
    ∃ zs, remove policy.equal xs key = (.ok, zs) ∧ zs.Perm ys := by
  refine ⟨_, by rw [remove, h.find_eq hpolicy hperm hx, if_pos Option.isSome_some], ?_⟩
  refine (hperm.filter _).trans (List.Perm.of_eq ?_)
  rw [List.filter_cons_of_neg (by simp [hx]), List.filter_eq_self]
  intro y hy
  rw [h.others hpolicy hperm hx y hy]
  rfl

theorem put_of_forall {equal : K → K → Bool} (h : ∀ x ∈ xs, equal x.1 key = false) (value : V) :
    put equal xs key value = (key, value) :: xs := by
  rw [put, find_of_forall h]
  rfl

theorem remove_of_forall {equal : K → K → Bool} (h : ∀ x ∈ xs, equal x.1 key = false) :
    remove equal xs key = (.notFound, xs) := by
  rw [remove, find_of_forall h]
  rfl

end FiniteMap

end Memkit
