import Mathlib

/-!
# Reader-writer locks

Locks that many may hold for reading or one for writing, with a new reader waiting behind a
waiting writer. Whoever wants a lock asks for it first and takes it in a later step, if it is
granted then: between the two it waits. Guards are noted with the party that holds them.
-/

namespace Conc

/-- What a lock is held for. -/
inductive Access where
  | read
  | write
deriving DecidableEq

/-- A lock held or wanted by a party. -/
structure Guard (κ : Type) where
  party : ℕ
  lock : κ
  access : Access
deriving DecidableEq

/-- The guards there are, and those that are waited for. -/
structure RwLocks (κ : Type) where
  held : List (Guard κ)
  wanted : List (Guard κ)

namespace RwLocks

variable {κ : Type}

/-- Nothing is held or wanted. -/
def idle : RwLocks κ := ⟨[], []⟩

/-- Ask for a lock. -/
def ask (g : Guard κ) (l : RwLocks κ) : RwLocks κ := ⟨l.held, g :: l.wanted⟩

variable [DecidableEq κ]

/-- Whether a guard is granted: a writer needs the lock for itself, a reader waits for a writer that
holds the lock or waits for it. -/
def grants (l : RwLocks κ) (g : Guard κ) : Bool :=
  match g.access with
  | .write => l.held.all fun h => h.lock ≠ g.lock
  | .read => (l.held ++ l.wanted).all fun h => h.lock ≠ g.lock || h.access = .read

/-- Take a lock that was asked for: blocked until it is granted. -/
def take (g : Guard κ) (l : RwLocks κ) : Option (RwLocks κ) :=
  if l.grants g then some ⟨g :: l.held, l.wanted.erase g⟩ else none

/-- Give a lock back. -/
def drop (g : Guard κ) (l : RwLocks κ) : RwLocks κ := ⟨l.held.erase g, l.wanted⟩

end RwLocks

end Conc
