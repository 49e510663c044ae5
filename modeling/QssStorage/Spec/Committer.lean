import QssStorage.Conc.Progress
import QssStorage.Spec.WritePath

/-!
# The committer

`Committer::run` of `cas/group_commit.rs`, loop by loop, while the store stays open. A wait is one
step, taken when it is over: that of the window ends when a batch is there or when the deadline
has passed. `Spec/WritePath` has the same rounds with the choice of the group left to the
environment.

A round gives back the group it committed; the statistics are left out. The blocking task of a
group may stop on its way, before any of its steps.
-/

namespace QssStorage

open Conc

/-- `Committer`. -/
structure Committer where
  window : ℕ
  cap : ℕ
deriving DecidableEq

/-- `CommitStation::start`. -/
def Committer.start (window cap : ℕ) : Committer := ⟨window, max cap 1⟩

/-! ## Receiving -/

/-- `recv`: parked while the queue is empty. -/
def recvBatch : StoreProg SealedBatch :=
  Prog.step fun _ s =>
    match s.queue with
    | [] => none
    | batch :: queue => some (batch, { s with queue })

/-- `timeout_at(deadline, recv)`. -/
def recvUntil (deadline : ℕ) : StoreProg (Option SealedBatch) :=
  Prog.step fun e s =>
    match s.queue with
    | [] => if deadline ≤ e.now then some (none, s) else none
    | batch :: queue => some (some batch, { s with queue })

/-- `try_recv`. -/
def tryRecv : StoreProg (Option SealedBatch) :=
  Prog.step fun _ s =>
    match s.queue with
    | [] => some (none, s)
    | batch :: queue => some (some batch, { s with queue })

/-! ## Gathering -/

/-- A group under way: its members, how many entries they have, and the batch that did not fit. -/
structure Gathered where
  group : List SealedBatch
  blocks : ℕ
  carried : Option SealedBatch
deriving DecidableEq

/-- A batch that was received joins the group, or leads the next one. -/
def Gathered.take (cap : ℕ) (g : Gathered) (next : SealedBatch) : Gathered :=
  if cap < g.blocks + next.entries.length then { g with carried := some next }
  else { g with group := g.group ++ [next], blocks := g.blocks + next.entries.length }

/-- A gathering loop. `fuel` bounds its turns. -/
def gather (cap : ℕ) (receive : StoreProg (Option SealedBatch)) : ℕ → Gathered → StoreProg Gathered
  | 0, _ => Prog.step fun _ _ => none
  | fuel + 1, g =>
    if g.carried = none ∧ g.blocks < cap then
      receive.bind fun
        | some next => gather cap receive fuel (g.take cap next)
        | none => .ret g
    else .ret g

namespace Committer

variable (c : Config) (k : Committer)

/-- The window, if there is one, and then whatever is in the queue. -/
def gatherGroup (fuel : ℕ) (first : SealedBatch) : StoreProg Gathered :=
  let started : Gathered := ⟨[first], first.entries.length, none⟩
  (if k.window = 0 then .ret started
    else readClock.bind fun now => gather k.cap (recvUntil (now + k.window)) fuel started).bind fun g =>
      gather k.cap tryRecv fuel g

/-! ## Rounds -/

/-- The blocking task that closes a group, stopped before one of its steps if it panics there. -/
def closeTask (panics : Option ℕ) (members : List (List BatchEntry)) : StoreProg (Option (List (Except Err FlushOutcome))) :=
  match panics with
  | none => (closeGroup members).bind fun outcomes => .ret (some outcomes)
  | some n => (closeGroup members).upTo n

/-- What the members are told: their outcomes, or that the task did not complete. -/
def told (group : List SealedBatch) : Option (List (Except Err FlushOutcome)) → List (Except Err FlushOutcome)
  | some outcomes => outcomes
  | none => group.map fun _ => .error .panicked

/-- `commit_group`. -/
def commitMembers (panics : Option ℕ) (group : List SealedBatch) : StoreProg Unit := do
  let ids := (group.map SealedBatch.entries).flatten.map BatchEntry.id
  lockBatch c.stripes ids
  let joined ← closeTask panics (group.map SealedBatch.entries)
  unlockBatch c.stripes ids
  sendReplies group (told group joined)

/-- The batch that was carried over, or the next one that arrives. -/
def leader : Option SealedBatch → StoreProg SealedBatch
  | some batch => .ret batch
  | none => recvBatch

/-- One turn of the loop: the group that was committed, and the batch that did not fit. -/
def round (panics : Option ℕ) (fuel : ℕ) (carried : Option SealedBatch) : StoreProg (List SealedBatch × Option SealedBatch) :=
  (leader carried).bind fun first =>
    (k.gatherGroup fuel first).bind fun g =>
      (commitMembers c panics g.group).bind fun _ => .ret (g.group, g.carried)

/-- `Committer::run`, for `n` rounds. -/
def run (panics : ℕ → Option ℕ) (fuel : ℕ) :
    ℕ → Option SealedBatch → StoreProg (List (List SealedBatch) × Option SealedBatch)
  | 0, carried => .ret ([], carried)
  | n + 1, carried => (k.round c (panics n) fuel carried).bind fun r =>
      (run panics fuel n r.2).bind fun rest => .ret (r.1 :: rest.1, rest.2)

end Committer

end QssStorage
