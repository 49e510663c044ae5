import QssStorage.Spec.WritePath

/-!
# Objects: store, overwrite, delete, clone

`cas/write_path.rs` (the record half), `cas/delete_path.rs` and `cas/clone_path.rs`. An
object record and its block references live in two databases: a record is written after
its references are counted, and references are released after the record that held them
is gone. `Owner` and the events a step notes say on whose behalf a reference goes; no
step reads them.
-/

namespace QssStorage

open Conc

variable (c : Config)

/-! ## Releasing references -/

/-- The transaction of `decrement_one_block`. -/
def decrementTx (owner : Owner) (id : BlockId) (s : Store) : Except Err (BlockDecrement × Store) :=
  match decrementBlockRc id s with
  | .error e => .error e
  | .ok (.missing, s) => .ok (.missing, s)
  | .ok (r, s) => .ok (r, { s with log := s.log ++ [.released owner id] })

/-- `decrement_one_block`: the file goes after the record's removal is committed. -/
def decrementOneBlock (owner : Owner) (id : BlockId) : StoreProg (Except Err Unit) :=
  (transact (decrementTx owner id)).andThen fun
    | .removed block => unlinkBlock id block.depth
    | .decremented _ => .ret (.ok ())
    | .missing => .ret (.ok ())

/-- `release_blocks`: one occurrence at a time, each under its stripe; a failure is logged
and the rest goes on. -/
def releaseBlocks (owner : Owner) : List BlockId → StoreProg Unit
  | [] => .ret ()
  | id :: ids => do
    Prog.lock (stripeOf c.stripes id)
    let _ ← decrementOneBlock owner id
    Prog.unlock (stripeOf c.stripes id)
    releaseBlocks owner ids

/-! ## Writing a record -/

/-- The transaction of `replace_object_record`. -/
def replaceObjectTx (bucket key : Bytes) (o : Object) (noting : List Event) (s : Store) :
    Except Err (Option Object × Store) :=
  match replaceObject bucket key o s with
  | .error e => .error e
  | .ok (displaced, s) =>
    let previous := (displaced.map Object.size).getD 0
    match addBucketUsage bucket (asI64 (asI64 o.size - asI64 previous)) s with
    | .error e => .error e
    | .ok (_, s) => .ok (displaced, { s with log := s.log ++ noting })

/-- `replace_object_record`: the record and the bucket's usage in one transaction. -/
def replaceObjectRecord (bucket key : Bytes) (o : Object) (noting : List Event) :
    StoreProg (Except Err (Option Object)) :=
  transact (replaceObjectTx bucket key o noting)

/-- `create_object_meta`: the displaced object's references go after the commit. -/
def createObjectMeta (bucket key : Bytes) (size : ℕ) (hash : Bytes) (data : ObjectData)
    (noting : List Event) : StoreProg (Except Err Object) :=
  readClock.bind fun now =>
    let o : Object := ⟨size, now, hash, data⟩
    (replaceObjectRecord bucket key o noting).andThen fun
      | some old => (releaseBlocks c .object old.blocks).bind fun _ => .ret (.ok o)
      | none => .ret (.ok o)

/-- `store_inlined_object`. -/
def storeInlinedObject (bucket key data : Bytes) : StoreProg (Except Err Object) :=
  createObjectMeta c bucket key data.length (c.md5 data) (.inline data) []

/-- `store_single_object_and_meta`: a record that cannot be written panics the task. -/
def storeSingleObjectAndMeta (bucket key : Bytes) (body : List (Option Bytes)) (len : ℕ) : StoreProg (Except Err Object) :=
  (if 0 < len then storeObject c body else .ret (.ok ([], c.md5 [], 0))).andThen fun stored =>
    (createObjectMeta c bucket key stored.2.2 stored.2.1 (.singlePart stored.1) []).bind fun
      | .ok o => .ret (.ok o)
      | .error _ => .ret (.error .panicked)

/-- The transaction of `delete_object`: the record and its share of the usage go. -/
def deleteObjectTx (bucket key : Bytes) (s : Store) : Except Err (Option Object × Store) :=
  match takeObject bucket key s with
  | .error e => .error e
  | .ok (none, s) => .ok (none, s)
  | .ok (some o, s) =>
    match addBucketUsage bucket (asI64 (-asI64 o.size)) s with
    | .error e => .error e
    | .ok (_, s) => .ok (some o, s)

/-- `delete_object`: the record, then its references. -/
def deleteObject (bucket key : Bytes) : StoreProg (Except Err Bool) :=
  (transact (deleteObjectTx bucket key)).andThen fun
    | none => .ret (.ok false)
    | some o => (releaseBlocks c .object o.blocks).bind fun _ => .ret (.ok true)

/-! ## Cloning by reference -/

/-- One reference of `acquire_references`; `false` if the block has no live record. -/
def acquireOne (id : BlockId) : StoreProg (Except Err Bool) :=
  transact fun s =>
    match bumpBlockRc id s with
    | .error e => .error e
    | .ok (some _, s) => .ok (true, s)
    | .ok (none, s) => .ok (false, s)

/-- `acquire_references`: a block that is gone, or a task that did not complete, gives back
what was taken; a failed transaction does not. -/
def acquireReferences : List BlockId → List BlockId → StoreProg (Except Err Bool)
  | [], _ => .ret (.ok true)
  | id :: ids, taken => do
    Prog.lock (stripeOf c.stripes id)
    match ← attempt with
    | .error e =>
      Prog.unlock (stripeOf c.stripes id)
      releaseBlocks c .undo taken
      return .error e
    | .ok _ =>
      let bumped ← acquireOne id
      Prog.unlock (stripeOf c.stripes id)
      match bumped with
      | .error e => return .error e
      | .ok false =>
        releaseBlocks c .undo taken
        return .ok false
      | .ok true => acquireReferences ids (taken ++ [id])

/-- `clone_object_by_reference`. -/
def cloneObjectByReference (sourceBucket sourceKey destBucket destKey : Bytes) : StoreProg (Except Err (Option Object)) :=
  (readStore (getMeta sourceBucket sourceKey)).andThen fun
    | none => .ret (.ok none)
    | some source =>
      let create := (createObjectMeta c destBucket destKey source.size source.hash source.data []).andThen
        fun o => .ret (.ok (some o))
      match source.data with
      | .inline _ => create
      | .singlePart blocks => (acquireReferences c blocks []).andThen fun taken =>
          if taken then create else .ret (.ok none)
      | .multiPart blocks _ => (acquireReferences c blocks []).andThen fun taken =>
          if taken then create else .ret (.ok none)

end QssStorage
