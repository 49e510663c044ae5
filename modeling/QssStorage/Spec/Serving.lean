import QssStorage.Conc.Timeline
import QssStorage.Spec.GetObject

/-!
# The S3 server in time

The requests of `Spec/S3`, the GET of `Spec/GetObject` and the work behind them, over stores
that remember their past. An answer carries the time its request came in and the time it was
given, so that what it says can be compared with what was stored in between.
-/

namespace QssStorage

open Conc

/-- `Range::check` of the S3 library: the window of a range in a body of a given length, its end
exclusive, as two `u64`. A range that is not satisfiable has none. -/
structure RangeCheck (ρ : Type) where
  check : ρ → ℕ → Option (ℕ × ℕ)
  satisfiable : ∀ r n start stop, check r n = some (start, stop) → start < stop ∧ stop ≤ n ∧ stop < 2 ^ 64

/-- A task of the server. -/
inductive S3Task (ρ : Type) where
  | request (r : S3Request)
  | get (fuel : ℕ) (bucket key : Bytes) (range : Option ρ)
  | store (o : StoreOp)

/-- What a task answered, between the times it started and ended. -/
inductive S3Answer (ρ : Type) where
  | replied (since : ℕ) (r : S3Request) (reply : Except S3Err S3Reply) (till : ℕ)
  | got (since : ℕ) (bucket key : Bytes) (range : Option ρ) (reply : Except S3Err GetObjectOutput) (till : ℕ)
  | done
deriving DecidableEq

section Tasks

variable {ρ : Type} (c : Config) (inlineMax : ℕ) (verifyOnRead : Bool) (k : RangeCheck ρ)

/-- The program of a task. -/
def S3Task.prog : S3Task ρ → Prog (Timeline Store) Choice ℕ (S3Answer ρ)
  | request r => (r.handle c inlineMax).clocked.bind fun a => .ret (.replied a.1 r a.2.1 a.2.2)
  | get fuel bucket key range =>
    (getObjectOp c verifyOnRead k.check fuel bucket key range).clocked.bind fun a =>
      .ret (.got a.1 bucket key range a.2.1 a.2.2)
  | store o => (o.prog c).timed.bind fun _ => .ret .done

/-- The server: a crash is a moment too. -/
def s3System : System (S3Task ρ) (Timeline Store) Choice ℕ (S3Answer ρ) :=
  ⟨S3Task.prog c inlineMax verifyOnRead k, fun l => l.advance l.now.restart⟩

end Tasks

end QssStorage
