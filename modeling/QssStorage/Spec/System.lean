import QssStorage.Spec.Multipart

/-!
# The store as a system

The operations that may run at once on one store, and what a crash leaves: the databases
and the files, but not the station's queue nor the outcomes on their way.
-/

namespace QssStorage

open Conc

/-- An operation, as a task of the server runs it. `round` is one turn of the committer
loop. -/
inductive StoreOp where
  | put (bucket key : Bytes) (body : List (Option Bytes)) (len : ℕ)
  | putInline (bucket key data : Bytes)
  | delete (bucket key : Bytes)
  | clone (sourceBucket sourceKey destBucket destKey : Bytes)
  | createUpload (bucket key uploadId : Bytes)
  | uploadPart (bucket key uploadId : Bytes) (partNumber : ℤ) (body : Option (List (Option Bytes)))
      (contentLength : Option ℤ) (contentMd5 : Option (Option Bytes))
  | complete (bucket key uploadId : Bytes) (upload : Option (List (Option ℤ)))
  | abort (fuel : ℕ) (bucket key uploadId : Bytes)
  | sweep (fuel ttl : ℕ)
  | round (more : ℕ)

/-- The program of an operation; what it answers does not matter here. -/
def StoreOp.prog (c : Config) : StoreOp → StoreProg Unit
  | put bucket key body len => (storeSingleObjectAndMeta c bucket key body len).bind fun _ => .ret ()
  | putInline bucket key data => (storeInlinedObject c bucket key data).bind fun _ => .ret ()
  | delete bucket key => (deleteObject c bucket key).bind fun _ => .ret ()
  | clone sourceBucket sourceKey destBucket destKey =>
    (cloneObjectByReference c sourceBucket sourceKey destBucket destKey).bind fun _ => .ret ()
  | createUpload bucket key uploadId => (QssStorage.createUpload bucket key uploadId).bind fun _ => .ret ()
  | uploadPart bucket key uploadId partNumber body contentLength contentMd5 =>
    (QssStorage.uploadPart c bucket key uploadId partNumber body contentLength contentMd5).bind fun _ => .ret ()
  | complete bucket key uploadId upload =>
    (completeMultipartUpload c bucket key uploadId upload).bind fun _ => .ret ()
  | abort fuel bucket key uploadId => (abortMultipartUpload c fuel bucket key uploadId).bind fun _ => .ret ()
  | sweep fuel ttl => (sweepStaleUploads c fuel ttl).bind fun _ => .ret ()
  | round more => commitGroup c more

/-- What a crash leaves of the shared state. -/
def Store.restart (s : Store) : Store := { s with queue := [], replies := ∅ }

/-- The store. -/
def storeSystem (c : Config) : System StoreOp Store Choice ℕ Unit := ⟨StoreOp.prog c, Store.restart⟩

/-- Nothing is queued at the commit station and no outcome waits there. -/
def Store.AtRest (s : Store) : Prop := s.queue = [] ∧ s.replies = ∅

/-! ## A sample

Two chunks, their digests and a store that meets only the first. -/

/-- The bytes of `abc`. -/
def abc : Bytes := [97, 98, 99]

/-- The BLAKE3 digest of `abc`. -/
def abcDigest : Bytes :=
  [100, 55, 179, 172, 56, 70, 81, 51, 255, 182, 59, 117, 39, 58, 141, 181, 72, 197, 88, 70, 93, 121, 219, 3, 253,
    53, 156, 108, 213, 189, 157, 133]

/-- The block address of `abc` in a store of full width. -/
def abcId : BlockId := ⟨abcDigest, 32, rfl, Or.inr rfl, by decide +kernel⟩

/-- The BLAKE3 digest of `x`. -/
def xDigest : Bytes :=
  [58, 231, 216, 5, 246, 120, 154, 100, 2, 172, 183, 10, 212, 9, 106, 133, 165, 107, 246, 128, 78, 175, 37, 192,
    73, 58, 198, 151, 84, 141, 48, 181]

/-- The block address of `x` in a store of full width. -/
def xId : BlockId := ⟨xDigest, 32, rfl, Or.inr rfl, by decide +kernel⟩

/-- A store whose hash functions are known on `abc` only: BLAKE3 for addresses, MD5 for
content hashes. -/
def abcConfig : Config where
  stripes := 1024
  hash _ := abcId
  md5 _ := [144, 1, 80, 152, 60, 210, 79, 176, 214, 150, 63, 125, 40, 225, 127, 114]
  maxBlocksPerCommit := 32
  station := false

/-- The environment lets a step succeed. -/
def steady : Choice := ⟨.ok, .ok, true, true, true, true, 1, 0, 4096⟩

theorem steady_fine : steady.Fine := by decide

end QssStorage
