import QssStorage.Data.DirTree
import QssStorage.Spec.Types

/-!
# The atomic block file writer

`cas-storage/src/cas/block_disk.rs`: block files reach their final path by write-temp, fsync
and rename, and the directories they land in are fsynced. The writer keeps the set of
directories it has fsynced since it was opened and does not fsync a chain of fanout
directories past one of them.

Paths are relative to the blocks root. What a file holds is left out: nothing here reads it.
Every call of `BlockDiskOps` may fail; which ones do is the environment's choice, given as
a function of the number of calls made so far. A failed call has no effect.
-/

namespace QssStorage.BlockDisk

/-- A name under the blocks root. Fanout directories are two hex digits, block files the whole
id in hex, temp files `<hex id>-<nonce>`: no name of one kind is one of another. -/
inductive Name where
  | fanout (b : Byte)
  | block (id : BlockId)
  | tmp
  | temp (id : BlockId) (nonce : ℕ)
  | other (text : Bytes)
deriving DecidableEq

abbrev Path := List Name

/-- `Durability`. -/
inductive Durability where
  | buffer
  | fsync
deriving DecidableEq

/-- The disk, and what the writer keeps in memory. -/
structure World where
  tree : DirTree Name
  /-- `known_durable`. -/
  durable : List Path
  /-- `TEMP_NONCE`. -/
  nonce : ℕ
  /-- The number of calls made. -/
  calls : ℕ

/-- A computation over the disk that may fail and keeps what it has done when it does. -/
def Io (α : Type) := World → Option α × World

namespace Io

def pure {α : Type} (a : α) : Io α := fun w => (some a, w)

def bind {α β : Type} (x : Io α) (f : α → Io β) : Io β := fun w =>
  match x w with
  | (some a, w') => f a w'
  | (none, w') => (none, w')

/-- `x`, and `cleanup` if it fails. -/
def orElse (x : Io Unit) (cleanup : Io Unit) : Io Unit := fun w =>
  match x w with
  | (some u, w') => (some u, w')
  | (none, w') => (none, (cleanup w').2)

/-- `f` on each, in order. -/
def each {α : Type} (f : α → Io Unit) : List α → Io Unit
  | [] => Io.pure ()
  | a :: as => Io.bind (f a) fun _ => each f as

end Io

/-! ## `BlockDiskOps` -/

section Ops

variable (faults : ℕ → Bool)

/-- One call of the operating system. -/
def call (f : DirTree Name → Option (DirTree Name)) : Io Unit := fun w =>
  let w' := { w with calls := w.calls + 1 }
  if faults w.calls then (none, w')
  else
    match f w.tree with
    | some tree => (some (), { w' with tree := tree })
    | none => (none, w')

/-- `create_dir_all`: the directories of the path that are missing, from the top. -/
def createDirAll (path : Path) : Io Unit :=
  Io.each (fun q => call faults fun t => some (t.mkdir q)) (DirTree.chainDown path)

/-- `write_new_file`. -/
def writeNewFile (path : Path) : Io Unit := call faults fun t => t.create path

/-- `fsync_file`: the file's bytes, no directory entry. -/
def fsyncFile (path : Path) : Io Unit :=
  call faults fun t => if t.present path then some t else none

/-- `fsync_dir`. -/
def fsyncDir (path : Path) : Io Unit :=
  call faults fun t => if path = [] || t.present path then some (t.fsyncDir path) else none

def rename (source target : Path) : Io Unit := call faults fun t => t.rename source target

/-- `remove_file`: one that is already gone is fine. -/
def removeFile (path : Path) : Io Unit := call faults fun t => some (t.remove path)

end Ops

/-! ## The writer -/

/-- The directories of a block file, as `block_disk_path` pushes them. -/
def fanoutDir (id : BlockId) (depth : ℕ) : Path :=
  (id.asSlice.take (diskDepth id depth)).map .fanout

/-- `block_disk_path`. -/
def blockDiskPath (id : BlockId) (depth : ℕ) : Path := fanoutDir id depth ++ [.block id]

/-- `StagedBlock`. Its three paths follow from these. -/
structure StagedBlock where
  id : BlockId
  depth : ℕ
  nonce : ℕ
deriving DecidableEq

namespace StagedBlock

def tempPath (b : StagedBlock) : Path := [.tmp, .temp b.id b.nonce]

def finalPath (b : StagedBlock) : Path := blockDiskPath b.id b.depth

def fanoutDir (b : StagedBlock) : Path := BlockDisk.fanoutDir b.id b.depth

end StagedBlock

/-- The directories from `dir` up to the root. -/
def chainUp (dir : Path) : List Path := dir.inits.reverse

/-- `TEMP_NONCE.fetch_add`. -/
def nextNonce : Io ℕ := fun w => (some w.nonce, { w with nonce := w.nonce + 1 })

/-- `known_durable.extend`. -/
def markDurable (dirs : List Path) : Io Unit := fun w =>
  (some (), { w with durable := dirs ++ w.durable })

/-- What `fsync_chain_deepest_up` fsyncs: `dir` and its ancestors, up to the first known to be
durable. -/
def chainToSync (durable : List Path) (dir : Path) : List Path :=
  (chainUp dir).takeWhile fun d => d ∉ durable

/-- The `while` loop of `land_batch` over the ancestors of a landing directory. -/
def climb (durable : List Path) : List Path → List Path → List Path
  | chain, [] => chain
  | chain, parent :: above =>
    if parent ∈ durable then chain
    else if parent ∈ chain then chain
    else climb durable (chain ++ [parent]) above

/-- One landing directory of `land_batch`: it, and its ancestors. -/
def planLanding (durable chain : List Path) (dir : Path) : List Path :=
  climb durable (if dir ∈ chain then chain else chain ++ [dir]) (chainUp dir).tail

/-- What `land_batch` fsyncs, deepest first. -/
def landingChain (durable : List Path) (staged : List StagedBlock) : List Path :=
  (staged.foldl (fun chain b => planLanding durable chain b.fanoutDir) []).insertionSort
    fun a b => b.length ≤ a.length

section Writer

variable (faults : ℕ → Bool) (durability : Durability)

/-- `AtomicBlockWriter::open`, on a tree it could make and sync: the temp directory is there
and empty, and the root has been fsynced with everything in it. -/
def openWriter (t : DirTree Name) : World :=
  let t := t.mkdir [.tmp]
  let purged : DirTree Name :=
    { present := fun p => p.dropLast ≠ [.tmp] && t.present p
      synced := fun p => p.dropLast ≠ [.tmp] && t.synced p }
  match durability with
  | .buffer => ⟨purged, [], 0, 0⟩
  | .fsync => ⟨(purged.fsyncDir [.tmp]).fsyncDir [], [[], [.tmp]], 0, 0⟩

/-- `x`, where the durability level fsyncs at all. -/
def whenSyncs (x : Io Unit) : Io Unit :=
  match durability with
  | .buffer => Io.pure ()
  | .fsync => x

/-- `fsync_chain_deepest_up`. -/
def fsyncChainDeepestUp (dir : Path) : Io Unit := fun w =>
  let chain := chainToSync w.durable dir
  Io.bind (Io.each (fsyncDir faults) chain) (fun _ => markDurable chain) w

/-- `stage_block`. -/
def stageBlock (id : BlockId) (depth : ℕ) : Io StagedBlock :=
  Io.bind (createDirAll faults (fanoutDir id depth)) fun _ =>
  Io.bind nextNonce fun nonce =>
  let staged : StagedBlock := ⟨id, depth, nonce⟩
  Io.bind ((writeNewFile faults staged.tempPath).orElse (removeFile faults staged.tempPath)) fun _ =>
  Io.pure staged

/-- `write_block`. -/
def writeBlock (id : BlockId) (depth : ℕ) : Io Unit :=
  Io.bind (createDirAll faults (fanoutDir id depth)) fun _ =>
  Io.bind nextNonce fun nonce =>
  let staged : StagedBlock := ⟨id, depth, nonce⟩
  let attempt : Io Unit :=
    Io.bind (writeNewFile faults staged.tempPath) fun _ =>
    Io.bind (whenSyncs durability (Io.bind (fsyncFile faults staged.tempPath) fun _ =>
      fsyncChainDeepestUp faults (fanoutDir id depth))) fun _ =>
    Io.bind (rename faults staged.tempPath staged.finalPath) fun _ =>
    whenSyncs durability (fsyncDir faults (fanoutDir id depth))
  attempt.orElse (removeFile faults staged.tempPath)

/-- `sync_batch`. The code fsyncs the files concurrently, the others also after a failure; no
order of these calls changes a directory entry. -/
def syncBatch (staged : List StagedBlock) : Io Unit :=
  whenSyncs durability (Io.each (fun b => fsyncFile faults b.tempPath) staged)

/-- `land_batch`. -/
def landBatch (staged : List StagedBlock) : Io Unit :=
  Io.bind (Io.each (fun b => rename faults b.tempPath b.finalPath) staged) fun _ =>
  whenSyncs durability fun w =>
    let chain := landingChain w.durable staged
    Io.bind (Io.each (fsyncDir faults) chain) (fun _ => markDurable chain) w

/-- `discard_staged`. -/
def discardStaged (b : StagedBlock) : Io Unit := removeFile faults b.tempPath

/-- `unlink_block`. -/
def unlinkBlock (id : BlockId) (depth : ℕ) : Io Unit :=
  removeFile faults (blockDiskPath id depth)

/-- What the store asks of the writer. -/
inductive Request where
  | write (id : BlockId) (depth : ℕ)
  | stage (id : BlockId) (depth : ℕ)
  | sync (staged : List StagedBlock)
  | land (staged : List StagedBlock)
  | discard (b : StagedBlock)
  | unlink (id : BlockId) (depth : ℕ)

/-- A request, whatever it returns on success. -/
def serve : Request → World → Option Unit × World
  | .write id depth => writeBlock faults durability id depth
  | .stage id depth => Io.bind (stageBlock faults id depth) fun _ => Io.pure ()
  | .sync staged => syncBatch faults durability staged
  | .land staged => landBatch faults durability staged
  | .discard b => discardStaged faults b
  | .unlink id depth => unlinkBlock faults id depth

/-- The world after some requests, each of which may have failed. -/
def serveAll (w : World) (requests : List Request) : World :=
  requests.foldl (fun w r => (serve faults durability r w).2) w

end Writer

end QssStorage.BlockDisk
