import Mathlib

/-!
# Directories and what an fsync of them covers

A file tree, as the paths that are present in it. A path is the list of names from a fixed
root, so the entry of `q` is kept in the directory `q.dropLast`. Beside the tree stands what
a power cut would leave of it: `synced q` says that the directory of `q` has been
fsynced since the entry of `q` was made.

`Covered t p`: every entry on the way from the root to `p` is.
-/

/-- A tree of files below a root, and which of its entries are on stable storage. -/
structure DirTree (ν : Type) where
  present : List ν → Bool
  synced : List ν → Bool

namespace DirTree

variable {ν : Type} [DecidableEq ν]

/-- The entry of `q` is made: no fsync has covered it yet. -/
def add (t : DirTree ν) (q : List ν) : DirTree ν where
  present p := p = q || t.present p
  synced p := p ≠ q && t.synced p

/-- The entry of `q` is removed. -/
def remove (t : DirTree ν) (q : List ν) : DirTree ν where
  present p := p ≠ q && t.present p
  synced p := p ≠ q && t.synced p

/-- Whether the directory that would hold `q` is there. -/
def hasParent (t : DirTree ν) (q : List ν) : Bool := q.dropLast = [] || t.present q.dropLast

/-- `mkdir`, of a directory that may be there already. -/
def mkdir (t : DirTree ν) (q : List ν) : DirTree ν := if t.present q then t else t.add q

/-- A new file; one that is there already is an error. -/
def create (t : DirTree ν) (q : List ν) : Option (DirTree ν) :=
  if !t.present q && t.hasParent q then some (t.add q) else none

/-- `rename`, over whatever is at the target. -/
def rename (t : DirTree ν) (a b : List ν) : Option (DirTree ν) :=
  if t.present a && t.hasParent b then some ((t.remove a).add b) else none

/-- `fsync` of a directory: the entries in it are on stable storage. -/
def fsyncDir (t : DirTree ν) (d : List ν) : DirTree ν where
  present := t.present
  synced q := (q ≠ [] && q.dropLast = d && t.present q) || t.synced q

/-- The directories to make for `p`, from the root down. -/
def chainDown (p : List ν) : List (List ν) := p.inits.tail

/-- Every entry on the way to `p` is there and on stable storage. -/
def Covered (t : DirTree ν) (p : List ν) : Prop :=
  ∀ q, q ≠ [] → q <+: p → t.present q = true ∧ t.synced q = true

instance (t : DirTree ν) (p : List ν) : Decidable (Covered t p) :=
  decidable_of_iff (∀ q ∈ p.inits, q ≠ [] → t.present q = true ∧ t.synced q = true)
    ⟨fun h q hq hp => h q ((List.mem_inits q p).2 hp) hq, fun h q hp hq => h q hq ((List.mem_inits q p).1 hp)⟩

variable {t t' : DirTree ν} {p q d a b : List ν}

omit [DecidableEq ν] in
theorem mem_chainDown : q ∈ chainDown p ↔ q ≠ [] ∧ q <+: p := by
  unfold chainDown
  rw [← List.mem_inits]
  cases p with
  | nil => simp
  | cons x p =>
    rw [List.inits_cons]
    simp only [List.tail_cons, List.mem_cons, List.mem_map]
    constructor
    · rintro ⟨r, hr, rfl⟩
      exact ⟨by simp, .inr ⟨r, hr, rfl⟩⟩
    · rintro ⟨hne, rfl | h⟩
      · exact absurd rfl hne
      · exact h

@[simp] theorem present_add : (t.add q).present p = true ↔ p = q ∨ t.present p = true := by
  simp [add]

@[simp] theorem synced_add : (t.add q).synced p = true ↔ p ≠ q ∧ t.synced p = true := by
  simp [add]

@[simp] theorem present_remove : (t.remove q).present p = true ↔ p ≠ q ∧ t.present p = true := by
  simp [remove]

@[simp] theorem synced_remove : (t.remove q).synced p = true ↔ p ≠ q ∧ t.synced p = true := by
  simp [remove]

@[simp] theorem present_fsyncDir : (t.fsyncDir d).present p = t.present p := rfl

@[simp] theorem synced_fsyncDir : (t.fsyncDir d).synced p = true ↔
    (p ≠ [] ∧ p.dropLast = d ∧ t.present p = true) ∨ t.synced p = true := by
  simp [fsyncDir, and_assoc]

theorem present_mkdir : (t.mkdir q).present p = true ↔ p = q ∨ t.present p = true := by
  unfold mkdir
  split
  next h =>
    constructor
    · exact .inr
    · rintro (rfl | hp)
      · exact h
      · exact hp
  next => exact present_add

/-- A directory made by `mkdir` is not covered, one that was there stays as it was. -/
theorem synced_mkdir : (t.mkdir q).synced p = true ↔ t.synced p = true ∧ (p = q → t.present p = true) := by
  unfold mkdir
  split
  next h =>
    constructor
    · exact fun hs => ⟨hs, by rintro rfl; exact h⟩
    · exact And.left
  next h =>
    rw [synced_add]
    constructor
    · exact fun ⟨hne, hs⟩ => ⟨hs, fun heq => absurd heq hne⟩
    · exact fun ⟨hs, hp⟩ => ⟨fun heq => h (heq ▸ hp heq), hs⟩

end DirTree
