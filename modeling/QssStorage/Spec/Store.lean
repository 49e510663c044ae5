import QssStorage.Conc.Prog
import QssStorage.Spec.Types

/-!
# The state of a store and its transactions

`Store` is everything a store shares between its tasks: the trees of the two databases,
the block files on disk, and the commit station's queue. `log` and `overran` are history
variables: steps append to the one what they did and note in the other that a reference count
has wrapped; nothing reads them.

The primitives of a write transaction (`bump_block_rc`, `decrement_block_rc`,
`insert_new_block`, `take_object`, `replace_object`, …) are pure functions of the state
that either fail and change nothing or give a value and the state to commit; `transact`
is the atomic step that commits one. What the environment decides (`Choice`) is whether
a step fails, whether a failed commit was applied all the same, which depth the
placement policy picks, and the time.
-/

namespace QssStorage

open Conc

/-- Why an operation failed. -/
inductive Err where
  | undecodable
  | io
  | commit
  | stream
  | unplaced (id : BlockId)
  | panicked
  | reservedBucketName
  | blockNotFound
deriving DecidableEq

/-- What one distinct block of a batch still needs doing to it. -/
inductive Payload where
  | staged (depth : ℕ) (bytes : Bytes)
  | deduped (bytes : Bytes)
deriving DecidableEq

/-- One distinct block id of a batch, with every reference the request adds to it. -/
structure BatchEntry where
  id : BlockId
  len : ℕ
  occurrences : ℕ
  payload : Payload
  depth : Option ℕ
deriving DecidableEq

/-- What the blocking half of a flush did. -/
structure FlushOutcome where
  written : ℕ
  ignored : ℕ
deriving DecidableEq

/-- A batch handed to the commit station, and the slot its outcome goes to. -/
structure SealedBatch where
  ticket : ℕ
  entries : List BatchEntry
deriving DecidableEq

/-- The part record stored under `key` by the `nth` store of a part there. -/
structure PartInstance where
  key : Bytes
  nth : ℕ
deriving DecidableEq

/-- On whose behalf block references are released. -/
inductive Owner where
  | object
  | undo
  | part (p : PartInstance)
deriving DecidableEq

/-- What a step did, for the record. -/
inductive Event where
  | landed (id : BlockId) (depth : ℕ)
  | wrote (id : BlockId) (depth : ℕ) (ok : Bool)
  | surveyed (id : BlockId) (live : Bool)
  | uploadCreated (key : Bytes)
  | uploadWon (key : Bytes)
  | partStored (key : Bytes)
  | partReaped (p : PartInstance) (blocks : List BlockId)
  | partsClaimed (ps : List PartInstance)
  | partsInherited (ps : List PartInstance)
  | released (owner : Owner) (id : BlockId)
deriving DecidableEq

/-- The state the tasks of a store share. -/
structure Store where
  buckets : OrdMap Bytes (Cell BucketRow)
  usage : OrdMap Bytes (Cell ℕ)
  trees : OrdMap Bytes (OrdMap Bytes (Cell Object))
  blocks : OrdMap BlockId (Cell Block)
  uploads : OrdMap Bytes (Cell UploadRecord)
  parts : OrdMap Bytes (Cell MultiPart)
  files : OrdMap (BlockId ×ₗ ℕ) Bytes
  queue : List SealedBatch
  replies : OrdMap ℕ (List BatchEntry × Except Err FlushOutcome)
  nextTicket : ℕ
  log : List Event
  overran : Bool

/-- A freshly created store. -/
def Store.empty : Store := ⟨∅, ∅, ∅, ∅, ∅, ∅, ∅, [], ∅, 0, [], false⟩

/-- No reference count has wrapped so far. -/
def Store.Fits (s : Store) : Prop := s.overran = false

instance : DecidablePred Store.Fits := fun s => inferInstanceAs (Decidable (s.overran = false))

/-- How a step that can fail ends: well, with nothing done, or with an error although
what it did stands (a commit whose persist failed, a rename whose directory sync failed). -/
inductive Outcome where
  | ok
  | failed
  | applied
deriving DecidableEq

/-- What the environment decides at one step: how a commit and a block write end, whether a
read, a sync, a rename or an unlink succeeds, the depth a new file is placed at, the clock, how
much of a file one read brings. -/
structure Choice where
  commit : Outcome
  write : Outcome
  read : Bool
  sync : Bool
  rename : Bool
  unlink : Bool
  depth : ℕ
  now : ℕ
  amount : ℕ
deriving DecidableEq

/-- Nothing fails. -/
def Choice.Fine (e : Choice) : Prop :=
  e.commit = .ok ∧ e.write = .ok ∧ e.read = true ∧ e.sync = true ∧ e.rename = true ∧ e.unlink = true

instance (e : Choice) : Decidable e.Fine := inferInstanceAs (Decidable (_ ∧ _ ∧ _ ∧ _ ∧ _ ∧ _))

/-- Programs over a store; the locks are the stripes. -/
abbrev StoreProg := Prog Store Choice ℕ

/-! ## Block records -/

/-- `Block::increment_refcount`: a `usize`, which wraps. -/
def incrementRefcount (rc : ℕ) : ℕ := (rc + 1) % 2 ^ 64

/-- The record of a block is written, with a count that went up by one from `rc`. -/
def Store.counted (s : Store) (id : BlockId) (block : Block) (rc : ℕ) : Store :=
  { s with blocks := s.blocks.insert id (.record block), overran := decide (2 ^ 64 ≤ rc + 1) || s.overran }

/-- `Transaction::bump_block_rc`. -/
def bumpBlockRc (id : BlockId) (s : Store) : Except Err (Option Block × Store) :=
  match s.blocks.get id with
  | none => .ok (none, s)
  | some .garbage => .error .undecodable
  | some (.record block) =>
    -- a degraded record reads as absent: its file is gone
    if block.degraded then .ok (none, s)
    else
      let bumped := { block with rc := incrementRefcount block.rc }
      .ok (some bumped, s.counted id bumped block.rc)

/-- `Transaction::insert_new_block`. -/
def insertNewBlock (id : BlockId) (dataLen depth : ℕ) (s : Store) : Except Err (Block × Store) :=
  match s.blocks.get id with
  | none =>
    let block := Block.new dataLen depth
    .ok (block, s.counted id block 0)
  | some .garbage => .error .undecodable
  | some (.record present) =>
    -- the heal: clear the flag, follow the file, add our reference to its holders'
    let rc := incrementRefcount present.rc
    let block := { size := dataLen, depth := depth, rc, degraded := false, reserved := present.reserved }
    .ok (block, s.counted id block present.rc)

/-- `BlockDecrement`. -/
inductive BlockDecrement where
  | missing
  | decremented (block : Block)
  | removed (block : Block)
deriving DecidableEq

/-- `Block::decrement_refcount`: a `usize`, which wraps below zero. -/
def decrementRefcount (rc : ℕ) : ℕ := if rc = 0 then 2 ^ 64 - 1 else rc - 1

theorem decrementRefcount_of_pos {rc : ℕ} (h : 1 ≤ rc) : decrementRefcount rc = rc - 1 := if_neg (by omega)

/-- `Transaction::decrement_block_rc`. -/
def decrementBlockRc (id : BlockId) (s : Store) : Except Err (BlockDecrement × Store) :=
  match s.blocks.get id with
  | none => .ok (.missing, s)
  | some .garbage => .error .undecodable
  | some (.record block) =>
    if block.rc = 1 then .ok (.removed block, { s with blocks := s.blocks.erase id })
    else
      let block := { block with rc := decrementRefcount block.rc }
      .ok (.decremented block, { s with blocks := s.blocks.insert id (.record block) })

/-- `has_live_record`: a decodable record whose file is not known to be gone. -/
def hasLiveRecord (id : BlockId) (s : Store) : Except Err Bool :=
  match s.blocks.get id with
  | none => .ok false
  | some .garbage => .error .undecodable
  | some (.record block) => .ok (!block.degraded)

/-! ## Object records -/

/-- The tree of a bucket: opening one creates it. -/
def Store.tree (s : Store) (bucket : Bytes) : OrdMap Bytes (Cell Object) := (s.trees.get bucket).getD ∅

/-- Replace the tree of a bucket. -/
def Store.setTree (s : Store) (bucket : Bytes) (t : OrdMap Bytes (Cell Object)) : Store :=
  { s with trees := s.trees.insert bucket t }

/-- `MetaTree::get` followed by a decode. -/
def getMeta (bucket key : Bytes) (s : Store) : Except Err (Option Object) :=
  match (s.tree bucket).get key with
  | none => .ok none
  | some .garbage => .error .undecodable
  | some (.record o) => .ok (some o)

/-- `Transaction::take_object`. -/
def takeObject (bucket key : Bytes) (s : Store) : Except Err (Option Object × Store) :=
  match (s.tree bucket).get key with
  | none => .ok (none, s.setTree bucket (s.tree bucket))
  | some .garbage => .error .undecodable
  | some (.record o) => .ok (some o, s.setTree bucket ((s.tree bucket).erase key))

/-- `Transaction::replace_object`: the displaced record has to decode. -/
def replaceObject (bucket key : Bytes) (o : Object) (s : Store) : Except Err (Option Object × Store) :=
  match (s.tree bucket).get key with
  | none => .ok (none, s.setTree bucket ((s.tree bucket).insert key (.record o)))
  | some .garbage => .error .undecodable
  | some (.record old) => .ok (some old, s.setTree bucket ((s.tree bucket).insert key (.record o)))

/-- `as i64`, and what is left of an `i64` result that overflows. -/
def asI64 (n : ℤ) : ℤ := n.bmod (2 ^ 64)

/-- `Transaction::add_bucket_usage`: saturating above, clamped at zero. -/
def addBucketUsage (bucket : Bytes) (delta : ℤ) (s : Store) : Except Err (ℕ × Store) :=
  match (s.usage.get bucket).getD (.record 0) with
  | .garbage => .error .undecodable
  | .record current =>
    let updated := if 0 ≤ delta then min (current + delta.toNat) (2 ^ 64 - 1) else current - (-delta).toNat
    .ok (updated, { s with usage := s.usage.insert bucket (.record updated) })

/-! ## Uploads and parts -/

/-- `Transaction::take_upload`. -/
def takeUpload (key : Bytes) (s : Store) : Except Err (Option UploadRecord × Store) :=
  match s.uploads.get key with
  | none => .ok (none, s)
  | some .garbage => .error .undecodable
  | some (.record u) =>
    .ok (some u, { s with uploads := s.uploads.erase key, log := s.log ++ [.uploadWon key] })

/-- `Transaction::take_part`: the bytes as they are, the caller decodes. -/
def takePart (key : Bytes) (s : Store) : Option (Cell MultiPart) × Store :=
  match s.parts.get key with
  | none => (none, s)
  | some raw => (some raw, { s with parts := s.parts.erase key })

/-- The record now under a part key, as an instance. -/
def Store.partInstance (s : Store) (key : Bytes) : PartInstance :=
  ⟨key, s.log.count (.partStored key)⟩

/-! ## Steps -/

/-- One write transaction: a failing body rolls back; a failing commit may have been
applied. -/
def transact {α : Type} (body : Store → Except Err (α × Store)) : StoreProg (Except Err α) :=
  Prog.step fun e s =>
    match body s, e.commit with
    | .error err, _ => some (.error err, s)
    | .ok (a, s'), .ok => some (.ok a, s')
    | .ok _, .failed => some (.error .commit, s)
    | .ok (_, s'), .applied => some (.error .commit, s')

/-- One read of the databases, which may fail. -/
def readStore {α : Type} (body : Store → Except Err α) : StoreProg (Except Err α) :=
  Prog.step fun e s =>
    if e.read then some (body s, s) else some (.error .io, s)

/-- A step outside the shared state that may fail (a temp file written or synced). -/
def attempt : StoreProg (Except Err Unit) :=
  Prog.step fun e s =>
    if e.sync then some (.ok (), s) else some (.error .io, s)

/-- The clock. -/
def readClock : StoreProg ℕ := Prog.step fun e s => some (e.now, s)

/-- `choose_depth`: the placement policy answers some depth between 1 and the id's width. -/
def chooseDepth (id : BlockId) : StoreProg ℕ := Prog.step fun e s => some (diskDepth id e.depth, s)

/-- `write_block`: the bytes at their final path; the directory sync may fail after the
rename. -/
def writeBlock (id : BlockId) (depth : ℕ) (bytes : Bytes) : StoreProg (Except Err Unit) :=
  Prog.step fun e s =>
    let written := { s with files := s.files.insert (toLex (id, diskDepth id depth)) bytes }
    match e.write with
    | .ok => some (.ok (), { written with log := s.log ++ [.wrote id (diskDepth id depth) true] })
    | .failed => some (.error .io, s)
    | .applied => some (.error .io, { written with log := s.log ++ [.wrote id (diskDepth id depth) false] })

/-- The rename that lands one staged file. -/
def landBlock (id : BlockId) (depth : ℕ) (bytes : Bytes) : StoreProg (Except Err Unit) :=
  Prog.step fun e s =>
    if e.rename then
      some (.ok (), { s with files := s.files.insert (toLex (id, diskDepth id depth)) bytes
                             log := s.log ++ [.landed id (diskDepth id depth)] })
    else some (.error .io, s)

/-- `unlink_block`: a missing file is fine. -/
def unlinkBlock (id : BlockId) (depth : ℕ) : StoreProg (Except Err Unit) :=
  Prog.step fun e s =>
    if e.unlink then some (.ok (), { s with files := s.files.erase (toLex (id, diskDepth id depth)) })
    else some (.error .io, s)

/-! ## Stripes -/

/-- `Stripes::index_of`, for `n` stripes: the first two bytes of the id. -/
def stripeOf (n : ℕ) (id : BlockId) : ℕ :=
  ((id.bytes.getD 0 0).val * 256 + (id.bytes.getD 1 0).val) % max n 1

/-- The stripes `lock_batch` takes: each once, in ascending order. -/
def batchStripes (n : ℕ) (ids : List BlockId) : List ℕ :=
  ((ids.map (stripeOf n)).insertionSort (· ≤ ·)).dedup

/-- `Stripes::lock_batch`. -/
def lockBatch (n : ℕ) (ids : List BlockId) : StoreProg Unit := Prog.lockAll (batchStripes n ids)

/-- The guard of `lock_batch` is dropped. -/
def unlockBatch (n : ℕ) (ids : List BlockId) : StoreProg Unit := Prog.unlockAll (batchStripes n ids)

end QssStorage
