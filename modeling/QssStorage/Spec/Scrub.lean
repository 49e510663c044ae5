import QssStorage.Spec.System

/-!
# fsck: the walks and the passes

`cas-storage/src/scrub`: what fsck reads and what it reports. fsck is alone on its store and
nothing here fails for want of I/O; what can fail is a record that does not decode. The
evidence texts of findings, their severities and the order the report prints them in are
for the operator and left out.
-/

namespace QssStorage

/-- What can stand at a path. A link leads somewhere or dangles. -/
inductive Entry where
  | file (bytes : Bytes)
  | directory
  | special
  | link (leads : Bool)
deriving DecidableEq

/-- `Path::exists`, which follows links. -/
def Entry.exists : Entry → Bool
  | file _ => true
  | directory => true
  | special => true
  | link leads => leads

/-- A store and everything else fsck comes across: the rows of the block tree whose key is no
address, what stands under the blocks root where no block path leads (fanout directories and
the store's own entries apart), by path, and the files that earlier repairs set aside. At a
block path there is a regular file or nothing. -/
structure Volume where
  store : Store
  misfiled : List Bytes
  foreign : OrdMap Bytes Entry
  quarantine : List Bytes

/-- A path under the blocks root. -/
inductive DiskPath where
  | block (id : BlockId) (depth : ℕ)
  | other (path : Bytes)
deriving DecidableEq

namespace Scrub

/-! ## Walks -/

/-- `BlockFile`; its size is that of its bytes. -/
structure BlockFile where
  id : BlockId
  depth : ℕ
  bytes : Bytes
deriving DecidableEq

/-- `DiskWalk`. -/
structure DiskWalk where
  files : List BlockFile
  foreign : List DiskPath
deriving DecidableEq

/-- A file the layout accepts: an address of this store's width, at a depth a record can
name. -/
def accepts (width : ℕ) (id : BlockId) (depth : ℕ) : Bool := id.len = width && 1 ≤ depth && depth ≤ id.len

/-- `walk_disk`. -/
def walkDisk (width : ℕ) (v : Volume) : DiskWalk where
  files := v.store.files.entries.filterMap fun f =>
    if accepts width (ofLex f.1).1 (ofLex f.1).2 then some ⟨(ofLex f.1).1, (ofLex f.1).2, f.2⟩ else none
  foreign := (v.store.files.entries.filterMap fun f =>
      if accepts width (ofLex f.1).1 (ofLex f.1).2 then none else some (.block (ofLex f.1).1 (ofLex f.1).2)) ++
    v.foreign.keys.map .other

/-- What `walk_records` keeps of a block record: nothing if it does not decode. -/
def recordOf (s : Store) (id : BlockId) : Option Block :=
  match s.blocks.get id with
  | some (.record block) => some block
  | some .garbage => none
  | none => none

/-- `walk_records`: every record that decodes. -/
def walkRecords (s : Store) : List (BlockId × Block) :=
  s.blocks.entries.filterMap fun r =>
    match r.2 with
    | .record block => some (r.1, block)
    | .garbage => none

/-- The blocks of the records that do not decode. -/
def undecodable (s : Store) : List BlockId :=
  s.blocks.entries.filterMap fun r =>
    match r.2 with
    | .record _ => none
    | .garbage => some r.1

/-- Every value, or nothing if one does not decode. -/
def decodeAll {α : Type} : List (Cell α) → Option (List α)
  | [] => some []
  | .garbage :: _ => none
  | .record a :: cells => (decodeAll cells).map (a :: ·)

/-- The trees of objects. -/
def objectTrees (s : Store) : List (Bytes × OrdMap Bytes (Cell Object)) :=
  s.trees.entries.filter fun t => !isReserved t.1

/-- `walk_holders`: every reference an object or a part holds, one entry per occurrence;
nothing if a holder does not decode. -/
def walkHolders (s : Store) : Option (List BlockId) :=
  match decodeAll ((objectTrees s).flatMap fun t => t.2.entries.map Prod.snd), decodeAll (s.parts.entries.map Prod.snd) with
  | some objects, some parts => some (objects.flatMap Object.blocks ++ parts.flatMap MultiPart.blocks)
  | _, _ => none

/-- `expected_counts`. -/
def expectedCounts (s : Store) : Option (BlockId → ℕ) := (walkHolders s).map fun refs id => refs.count id

/-! ## Passes -/

/-- `FindingClass`. -/
inductive FindingClass where
  | refcountOverCount
  | refcountUnderCount
  | missingBlockRecord
  | undecodableBlockRecord
  | orphanFile
  | offDepthFile
  | foreignFile
  | sizeMismatch
  | danglingRecord
  | adoptableDanglingRecord
  | degradedRecord
  | corruptBlock
  | halfDeletedBucket
  | multipartUpload
  | orphanPart
  | holderEnumerationFailed
  | postRepairRecountDirty
deriving DecidableEq

/-- A finding: its class and what it is about. -/
structure Finding where
  kind : FindingClass
  block : Option BlockId
  path : Option DiskPath
deriving DecidableEq

/-- `Pass`. -/
inductive Pass where
  | recount
  | diskSweep
  | danglingSweep
  | corruptionScrub
  | multipartReport
  | bucketIntegrity
deriving DecidableEq

/-- The findings of `walk_records`: rows whose key or value does not decode. -/
def recordFindings (v : Volume) : List Finding :=
  (v.misfiled.map fun _ => ⟨.undecodableBlockRecord, none, none⟩) ++
    (undecodable v.store).map fun id => ⟨.undecodableBlockRecord, some id, none⟩

/-- `recount`: what the holders say against what the records say. -/
def recount (refs : List BlockId) (s : Store) : List Finding :=
  (refs.dedup.filterMap fun id =>
    match recordOf s id with
    | none => some ⟨.missingBlockRecord, some id, none⟩
    | some block =>
      if refs.count id < block.rc then some ⟨.refcountOverCount, some id, none⟩
      else if block.rc < refs.count id then some ⟨.refcountUnderCount, some id, none⟩
      else none) ++
  (walkRecords s).filterMap fun r => if r.1 ∈ refs then none else some ⟨.refcountOverCount, some r.1, none⟩

/-- The walk saw a file of `id` at `depth`. -/
def present (files : List BlockFile) (id : BlockId) (depth : ℕ) : Bool :=
  files.any fun file => file.id = id && file.depth = depth

/-- `disk_sweep`: what is on disk that the records do not account for. -/
def diskSweep (disk : DiskWalk) (s : Store) : List Finding :=
  (disk.files.filterMap fun file =>
    match recordOf s file.id with
    | none => some ⟨.orphanFile, some file.id, some (.block file.id file.depth)⟩
    | some block =>
      if block.depth ≠ file.depth then
        if present disk.files file.id block.depth then
          some ⟨.offDepthFile, some file.id, some (.block file.id file.depth)⟩
        else none
      else if block.size ≠ file.bytes.length then
        some ⟨.sizeMismatch, some file.id, some (.block file.id file.depth)⟩
      else none) ++
  disk.foreign.map fun path => ⟨.foreignFile, none, some path⟩

/-- `block_disk_path(..).is_file()`. -/
def isFile (s : Store) (id : BlockId) (depth : ℕ) : Bool := (s.files.get (toLex (id, diskDepth id depth))).isSome

/-- The depths of a block on disk, other than the one its record names, shallowest first. -/
def elsewhere (disk : DiskWalk) (id : BlockId) (depth : ℕ) : List ℕ :=
  ((disk.files.filterMap fun file => if file.id = id then some file.depth else none).filter (· ≠ depth)).insertionSort
    (· ≤ ·)

/-- `dangling_sweep`: records whose file is not where they say. -/
def danglingSweep (disk : DiskWalk) (s : Store) : List Finding :=
  (walkRecords s).filterMap fun r =>
    if r.2.degraded then some ⟨.degradedRecord, some r.1, some (.block r.1 (diskDepth r.1 r.2.depth))⟩
    else if isFile s r.1 r.2.depth then none
    else if (elsewhere disk r.1 r.2.depth).isEmpty then
      some ⟨.danglingRecord, some r.1, some (.block r.1 (diskDepth r.1 r.2.depth))⟩
    else some ⟨.adoptableDanglingRecord, some r.1, some (.block r.1 (diskDepth r.1 r.2.depth))⟩

/-- `corruption_scrub`: every block file hashed against the address it is filed under. -/
def corruptionScrub (c : Config) (disk : DiskWalk) : List Finding :=
  disk.files.filterMap fun file =>
    if c.hash file.bytes ≠ file.id then some ⟨.corruptBlock, some file.id, some (.block file.id file.depth)⟩
    else none

/-- `multipart_report`: the uploads, and the parts no upload owns. -/
def multipartReport (s : Store) : Option (List Finding) :=
  match decodeAll (s.uploads.entries.map Prod.snd), decodeAll (s.parts.entries.map Prod.snd) with
  | some uploads, some parts =>
    let records := (uploads.map fun u => (u.bucket, u.key, u.uploadId)).dedup
    some ((records.map fun _ => ⟨.multipartUpload, none, none⟩) ++ parts.filterMap fun part =>
        if (part.bucket, part.key, part.uploadId) ∈ records then none else some ⟨.orphanPart, none, none⟩)
  | _, _ => none

/-- A byte of a UTF-8 sequence after its first. -/
def isContinuation (b : Byte) : Bool := 0x80 ≤ b.val && b.val ≤ 0xBF

/-- `str::from_utf8` succeeds. -/
def isUtf8 : Bytes → Bool
  | [] => true
  | a :: rest =>
    if a.val < 0x80 then isUtf8 rest
    else
      match rest with
      | [] => false
      | b :: rest =>
        if 0xC2 ≤ a.val && a.val ≤ 0xDF then isContinuation b && isUtf8 rest
        else
          match rest with
          | [] => false
          | c :: rest =>
            if 0xE0 ≤ a.val && a.val ≤ 0xEF then
              -- no overlong forms, no surrogates
              isContinuation b && isContinuation c && (a.val ≠ 0xE0 || 0xA0 ≤ b.val) &&
                (a.val ≠ 0xED || b.val ≤ 0x9F) && isUtf8 rest
            else
              match rest with
              | [] => false
              | d :: rest =>
                0xF0 ≤ a.val && a.val ≤ 0xF4 && isContinuation b && isContinuation c && isContinuation d &&
                  (a.val ≠ 0xF0 || 0x90 ≤ b.val) && (a.val ≠ 0xF4 || b.val ≤ 0x8F) && isUtf8 rest

/-- `list_bucket_names`: nothing if one is not UTF-8. -/
def listBucketNames (s : Store) : Option (List Bytes) :=
  if s.buckets.keys.all isUtf8 then some s.buckets.keys else none

/-- `stranded_trees`: object trees whose bucket row is gone. -/
def strandedTrees (s : Store) : Option (List Bytes) :=
  (listBucketNames s).map fun named => s.trees.keys.filter fun tree => !isReserved tree && tree ∉ named

/-- `bucket_integrity`. -/
def bucketIntegrity (s : Store) : Option (List Finding) :=
  (strandedTrees s).map fun trees => trees.map fun _ => ⟨.halfDeletedBucket, none, none⟩

/-- `Report`. -/
structure Report where
  passesRun : List Pass
  findings : List Finding

/-- `Report::ran`. -/
def Report.ran (r : Report) (p : Pass) : Bool := p ∈ r.passesRun

/-- `run`: nothing if the bucket list cannot be read. -/
def run (c : Config) (width : ℕ) (scrub : Bool) (v : Volume) : Option Report :=
  let disk := walkDisk width v
  let counted : List Pass × List Finding :=
    match walkHolders v.store with
    | some refs => ([.recount], recount refs v.store)
    | none => ([], [⟨.holderEnumerationFailed, none, none⟩])
  let scrubbed : List Pass × List Finding := if scrub then ([.corruptionScrub], corruptionScrub c disk) else ([], [])
  let uploads : List Pass × List Finding :=
    match multipartReport v.store with
    | some findings => ([.multipartReport], findings)
    | none => ([], [⟨.holderEnumerationFailed, none, none⟩])
  (bucketIntegrity v.store).map fun buckets =>
    { passesRun := counted.1 ++ [.diskSweep, .danglingSweep] ++ scrubbed.1 ++ uploads.1 ++ [.bucketIntegrity]
      findings := recordFindings v ++ counted.2 ++ diskSweep disk v.store ++ danglingSweep disk v.store ++ scrubbed.2 ++
        uploads.2 ++ buckets }

end Scrub

end QssStorage
