import QssStorage.Spec.System

/-!
# Buckets and namespaces

`meta_store/ops.rs` (the bucket half), `cas/buckets.rs`, `bucket_delete` of
`cas/delete_path.rs`, `s3cas/src/api/buckets.rs` and the namespace half of
`respcas/src/storage.rs` and `respcas/src/namespace.rs`.

A bucket is a row in `_BUCKETS`, a usage counter and a tree of its name. Both servers call
it existing when the tree exists; the RESP server also reads the row. The store's own
trees are kept apart (the other fields of `Store`), so no name finds them here.
-/

namespace QssStorage

open Conc

variable (c : Config)

/-! ## The store -/

/-- `tree_exists`. -/
def Store.hasTree (s : Store) (name : Bytes) : Bool := (s.trees.get name).isSome

/-- `bucket_exists`. -/
def bucketExists (name : Bytes) : StoreProg Bool := Prog.step fun _ s => some (s.hasTree name, s)

/-- `tree_open`: a tree that is not there is created. -/
def treeOpen (name : Bytes) : StoreProg (Except Err Unit) := transact fun s => .ok ((), s.setTree name (s.tree name))

/-- One write to the bucket tree. -/
def putRow (name : Bytes) (row : BucketRow) : StoreProg (Except Err Unit) :=
  transact fun s => .ok ((), { s with buckets := s.buckets.insert name (.record row) })

/-- One removal from the bucket tree. -/
def removeRow (name : Bytes) : StoreProg (Except Err Unit) :=
  transact fun s => .ok ((), { s with buckets := s.buckets.erase name })

/-- `set_bucket_usage`. -/
def setBucketUsage (name : Bytes) (bytes : ℕ) : StoreProg (Except Err Unit) :=
  transact fun s => .ok ((), { s with usage := s.usage.insert name (.record bytes) })

/-- `insert_bucket`: the row, the tree, the counter, one write each. -/
def insertBucket (name : Bytes) (row : BucketRow) : StoreProg (Except Err Unit) :=
  if isReserved name then .ret (.error .reservedBucketName)
  else (putRow name row).andThen fun _ => (treeOpen name).andThen fun _ => setBucketUsage name 0

/-- The transaction of `insert_bucket_if_absent`: the row and the counter, if there is no row. -/
def claimName (name : Bytes) (row : BucketRow) (s : Store) : Except Err (Bool × Store) :=
  match s.buckets.get name with
  | some _ => .ok (false, s)
  | none => .ok (true, { s with buckets := s.buckets.insert name (.record row), usage := s.usage.insert name (.record 0) })

/-- `insert_bucket_if_absent`: the tree is created after the commit. -/
def insertBucketIfAbsent (name : Bytes) (row : BucketRow) : StoreProg (Except Err Bool) :=
  if isReserved name then .ret (.error .reservedBucketName)
  else (transact (claimName name row)).andThen fun claimed =>
    if claimed then (treeOpen name).andThen fun _ => .ret (.ok true) else .ret (.ok false)

/-- `tree_delete`. -/
def treeDelete (name : Bytes) : StoreProg (Except Err Unit) :=
  transact fun s => .ok ((), { s with trees := s.trees.erase name })

/-- `drop_bucket`: the row, the counter, the tree. -/
def dropBucket (name : Bytes) : StoreProg (Except Err Unit) :=
  (removeRow name).andThen fun _ =>
    (transact fun s => .ok ((), { s with usage := s.usage.erase name })).andThen fun _ =>
      (bucketExists name).bind fun found => if found then treeDelete name else .ret (.ok ())

/-- The loop of `bucket_delete`: a walk over the tree, one object deleted per entry. -/
def deleteEach (name : Bytes) : ℕ → Option Bytes → StoreProg (Except Err Unit)
  | 0, _ => Prog.step fun _ _ => none
  | fuel + 1, cursor => (readStore fun s => .ok ((s.tree name).nextAfter cursor)).andThen fun
    | none => .ret (.ok ())
    | some (key, _) => (deleteObject c name key).andThen fun _ => deleteEach name fuel (some key)

/-- `bucket_delete`: the row goes first, the objects one by one, then the rest. -/
def bucketDelete (fuel : ℕ) (name : Bytes) : StoreProg (Except Err Unit) :=
  (removeRow name).andThen fun _ => (treeOpen name).andThen fun _ =>
    (deleteEach c name fuel none).andThen fun _ => dropBucket name

/-! ## The S3 server -/

/-- `create_bucket_op`: looks, then writes. -/
def createBucket (name : Bytes) : StoreProg (Except S3Err Unit) :=
  (bucketExists name).bind fun found =>
    if found then .ret (.error .bucketAlreadyExists)
    else readClock.bind fun now => tryStore (insertBucket name (.bucket ⟨now, name⟩))

/-- `delete_bucket_op`. -/
def deleteBucket (fuel : ℕ) (name : Bytes) : StoreProg (Except S3Err Unit) := tryStore (bucketDelete c fuel name)

/-- `head_bucket_op`, `get_bucket_location_op`. -/
def headBucket (name : Bytes) : StoreProg (Except S3Err Unit) :=
  (bucketExists name).bind fun found => .ret (if found then .ok () else .error .noSuchBucket)

/-! ## The RESP server -/

/-- `StorageError`, as far as namespaces go. -/
inductive StorageErr where
  | namespaceNotFound
  | namespaceExists
  | cannotFlushDefault
  | metaError (e : Err)
deriving DecidableEq

/-- A failure of the store. -/
def tryMeta {α : Type} (p : StoreProg (Except Err α)) : StoreProg (Except StorageErr α) :=
  p.bind fun
    | .ok a => .ret (.ok a)
    | .error e => .ret (.error (.metaError e))

/-- The bytes of `default`. -/
def defaultNamespace : Bytes := [100, 101, 102, 97, 117, 108, 116]

/-- `get_namespace`: the tree, if it exists. -/
def getNamespace (name : Bytes) : StoreProg (Except StorageErr Unit) :=
  (bucketExists name).bind fun found =>
    if found then tryMeta (treeOpen name) else .ret (.error .namespaceNotFound)

/-- A row as the RESP server decodes it. -/
def decodeNamespaceMeta : Cell BucketRow → Except StorageErr NamespaceMeta
  | .record (.namespaceRow m) => .ok m
  | .record (.bucket _) => .error (.metaError .undecodable)
  | .garbage => .error (.metaError .undecodable)

/-- `get_namespace_meta`: the tree has to exist, then the row. -/
def getNamespaceMeta (name : Bytes) : StoreProg (Except StorageErr NamespaceMeta) :=
  (bucketExists name).bind fun found =>
    if found then
      (tryMeta (readStore fun s => .ok (s.buckets.get name))).andThen fun
        | some row => .ret (decodeNamespaceMeta row)
        | none => .ret (.error .namespaceNotFound)
    else .ret (.error .namespaceNotFound)

/-- `update_namespace_meta`. -/
def updateNamespaceMeta (name : Bytes) (m : NamespaceMeta) : StoreProg (Except StorageErr Unit) :=
  (bucketExists name).bind fun found =>
    if found then tryMeta (putRow name (.namespaceRow m)) else .ret (.error .namespaceNotFound)

/-- `create_namespace`. -/
def createNamespace (name : Bytes) : StoreProg (Except StorageErr Unit) :=
  (tryMeta (insertBucketIfAbsent name (.namespaceRow (.new name)))).andThen fun inserted =>
    if inserted then getNamespace name else .ret (.error .namespaceExists)

/-- `delete_namespace`. -/
def deleteNamespace (name : Bytes) : StoreProg (Except StorageErr Unit) :=
  (bucketExists name).bind fun found =>
    if found then tryMeta (dropBucket name) else .ret (.error .namespaceNotFound)

/-- `flush` and `flush_namespace`, of a cached namespace: dropped and created again, the row
put back afterwards. -/
def flushNamespace (name : Bytes) : StoreProg (Except StorageErr Unit) :=
  if name = defaultNamespace then .ret (.error .cannotFlushDefault)
  else (getNamespaceMeta name).andThen fun namespaceMeta =>
    (getNamespace defaultNamespace).andThen fun _ => (deleteNamespace name).andThen fun _ =>
      (createNamespace name).andThen fun _ => updateNamespaceMeta name namespaceMeta

/-- `init_namespace`. -/
def initNamespace : StoreProg (Except StorageErr Unit) :=
  (bucketExists defaultNamespace).bind fun found => if found then .ret (.ok ()) else createNamespace defaultNamespace

/-- The sizes `sum_record_sizes` adds up, if every record decodes. -/
def recordSizes : List (Bytes × Cell Object) → Option ℕ
  | [] => some 0
  | (_, .garbage) :: _ => none
  | (_, .record o) :: rest => (recordSizes rest).map (o.size + ·)

/-- `adopt_usage_ledger`, row by row, with nothing else running: a namespace without a counter
gets the sum of its records; the first row it cannot handle ends it. -/
def adoptUsageLedger : List (Bytes × Cell BucketRow) → Store → Bool × Store
  | [], s => (true, s)
  | (_, row) :: rows, s =>
    match decodeNamespaceMeta row with
    | .error _ => (false, s)
    | .ok m =>
      match s.usage.get m.name with
      | some (.record _) => adoptUsageLedger rows s
      | some .garbage => (false, s)
      | none =>
        if s.hasTree m.name then
          match recordSizes (s.tree m.name).entries with
          | none => (false, s)
          | some total =>
            adoptUsageLedger rows { s with usage := s.usage.insert m.name (.record (min total (2 ^ 64 - 1))) }
        else (false, s)

/-! ## The operations on one name -/

/-- Which server runs on the store. -/
inductive Front where
  | s3
  | resp
deriving DecidableEq

/-- What a crash and the open after it leave: the RESP server adopts counters and makes sure of
its default namespace before it serves. -/
def Front.reopen : Front → Store → Store
  | s3, s => s.restart
  | resp, s =>
    match adoptUsageLedger s.buckets.entries s.restart with
    | (false, s) => s
    | (true, s) =>
      match initNamespace.eval steady s with
      | some (_, s) => s
      | none => s

/-- An operation on one name: it is created, deleted or flushed, or a record is written. -/
inductive NameOp where
  | createBucket
  | deleteBucket (fuel : ℕ)
  | createNamespace
  | flushNamespace
  | put (key data : Bytes)
deriving DecidableEq

/-- The servers that offer it. -/
def NameOp.servedBy : NameOp → Front → Bool
  | createBucket, f => f = .s3
  | deleteBucket _, f => f = .s3
  | createNamespace, f => f = .resp
  | flushNamespace, f => f = .resp
  | put _ _, _ => true

/-- How it ended: a create said that it created the name, or anything else. -/
inductive NameAnswer where
  | created
  | other
deriving DecidableEq

/-- The answer of a create. -/
def NameAnswer.ofCreate {ξ : Type} : Except ξ Unit → NameAnswer
  | .ok _ => created
  | .error _ => other

/-- The program of an operation. -/
def NameOp.prog (name : Bytes) : NameOp → StoreProg NameAnswer
  | createBucket => (QssStorage.createBucket name).bind fun r => .ret (.ofCreate r)
  | deleteBucket fuel => (QssStorage.deleteBucket c fuel name).bind fun _ => .ret .other
  | createNamespace => (QssStorage.createNamespace name).bind fun r => .ret (.ofCreate r)
  | flushNamespace => (QssStorage.flushNamespace name).bind fun _ => .ret .other
  | put key data => (bucketExists name).bind fun found =>
    if found then (storeInlinedObject c name key data).bind fun _ => .ret .other else .ret .other

/-- The operations on one name, with crashes. -/
def nameSystem (front : Front) (name : Bytes) : System NameOp Store Choice ℕ NameAnswer :=
  ⟨NameOp.prog c name, front.reopen⟩

end QssStorage
