import Memkit.Caching.LruCache

/-! # What an LRU cache is for

The reference: a list of key-value pairs with distinct keys, most recently used first. `get`,
`touch` and `put` of a stored key move its pair to the front, `peek` and `contains` leave the order
alone, and `put` of a new key into a full list drops the last pair. -/

namespace Memkit

namespace LruReference

open LruCache (Call Reply)

variable {K V : Type*}

/-- The stored pair with a key equal to `key`. -/
def lookup (equal : K → K → Bool) (m : List (K × V)) (key : K) : Option (K × V) :=
  m.find? fun e => equal e.1 key

/-- The pairs with other keys, in order. -/
def without (equal : K → K → Bool) (m : List (K × V)) (key : K) : List (K × V) :=
  m.filter fun e => !equal e.1 key

/-- A call on the reference list. -/
def call (equal : K → K → Bool) (capacity : ℕ) (m : List (K × V)) :
    Call K V → Reply V × List (K × V)
  | .get none out => (.get .nullPtr out, m)
  | .get (some key) out =>
    match lookup equal m key with
    | none => (.get .notFound out, m)
    | some e => (.get .ok (out.map fun _ => e.2), e :: without equal m key)
  | .peek none out => (.peek .nullPtr out, m)
  | .peek (some key) out =>
    match lookup equal m key with
    | none => (.peek .notFound out, m)
    | some e => (.peek .ok (out.map fun _ => e.2), m)
  | .touch none => (.touch .nullPtr, m)
  | .touch (some key) =>
    match lookup equal m key with
    | none => (.touch .notFound, m)
    | some e => (.touch .ok, e :: without equal m key)
  | .put (some key) (some value) =>
    match lookup equal m key with
    | some e => (.put .ok, (e.1, value) :: without equal m key)
    | none =>
      if m.length < capacity then (.put .ok, (key, value) :: m)
      else (.put .ok, (key, value) :: m.dropLast)
  | .put _ _ => (.put .nullPtr, m)
  | .remove none => (.remove .nullPtr, m)
  | .remove (some key) =>
    match lookup equal m key with
    | none => (.remove .notFound, m)
    | some _ => (.remove .ok, without equal m key)
  | .contains none => (.contains false, m)
  | .contains (some key) => (.contains (lookup equal m key).isSome, m)
  | .clear => (.clear, [])

/-- Visit pairs in order until the visitor returns a status that is not ok. -/
def visitAll {σ : Type*} (visit : σ → K → V → Status × σ) : List (K × V) → σ → Status × σ
  | [], acc => (.ok, acc)
  | e :: es, acc =>
    if (visit acc e.1 e.2).1 ≠ .ok then visit acc e.1 e.2
    else visitAll visit es (visit acc e.1 e.2).2

end LruReference

end Memkit
