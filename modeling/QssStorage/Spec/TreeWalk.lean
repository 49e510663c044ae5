import QssStorage.Spec.Types

/-!
# Walking a tree

`iter_kv`, `iter_kv_backward` and `advance` of `metastore/stores/fjall/tree.rs`. An iterator keeps
the key of the entry it gave last (`advance`) and opens a new range behind it at every call; each
call reads one state of the tree. A call is a function of that state and of the last key.
-/

namespace QssStorage

variable {V : Type}

/-- `Bound`. -/
inductive Bound where
  | unbounded
  | included (k : Bytes)
  | excluded (k : Bytes)

/-- The key is not below the bound. -/
def Bound.isBelow : Bound → Bytes → Bool
  | unbounded, _ => true
  | included b, k => b ≤ k
  | excluded b, k => b < k

/-- The key is not above the bound. -/
def Bound.isAbove : Bound → Bytes → Bool
  | unbounded, _ => true
  | included b, k => k ≤ b
  | excluded b, k => k < b

/-- `FjallTree::range`: the entries between two bounds, in key order. -/
def range (t : OrdMap Bytes V) (lower upper : Bound) : List (Bytes × V) :=
  t.entries.filter fun e => lower.isBelow e.1 && upper.isAbove e.1

/-- One call of `iter_kv`: a cursor resumes at the least key above itself. -/
def iterKv (t : OrdMap Bytes V) (lastKey : Option Bytes) : Option (Bytes × V) :=
  let start := match lastKey with
    | some k => k ++ [0]
    | none => []
  (range t (.included start) .unbounded).head?

/-- One call of `iter_kv_backward`: a cursor resumes strictly below itself. -/
def iterKvBackward (t : OrdMap Bytes V) (lastKey : Option Bytes) : Option (Bytes × V) :=
  let stop := match lastKey with
    | some k => .excluded k
    | none => .unbounded
  (range t .unbounded stop).getLast?

end QssStorage
