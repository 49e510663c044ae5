import QssStorage.Spec.Codec
import QssStorage.Spec.ObjectPath

/-!
# Multipart uploads

`cas/uploads.rs`, `cas/multipart.rs`, `cas/gc.rs` and the handlers of
`s3cas/src/api/multipart.rs`. A walk over a tree reads one entry per step, each from the
state of its own moment, and stays where it is when a read fails; `fuel` bounds the
length of the walks that are considered, and a walk that runs out of it never returns.
-/

namespace QssStorage

open Conc

variable (c : Config)

/-! ## Keys -/

/-- `upload_key`. -/
def uploadKey (bucket key uploadId : Bytes) : Bytes :=
  putLen bucket.length ++ bucket ++ putLen key.length ++ key ++ uploadId

/-- `part_prefix`. -/
def partPrefix (bucket key uploadId : Bytes) : Bytes :=
  putLen bucket.length ++ bucket ++ putLen key.length ++ key ++ putLen uploadId.length ++ uploadId

/-- `part_key`: the part number as an unsigned big-endian tail. -/
def partKey (bucket key uploadId : Bytes) (partNumber : ℤ) : Bytes :=
  partPrefix bucket key uploadId ++ (leBytes 8 (partNumber % 2 ^ 64).toNat).reverse

/-! ## Uploads and parts -/

/-- `create_upload`. -/
def createUpload (bucket key uploadId : Bytes) : StoreProg (Except Err Unit) :=
  readClock.bind fun now =>
    transact fun s =>
      let k := uploadKey bucket key uploadId
      .ok ((), { s with uploads := s.uploads.insert k (.record ⟨now, bucket, key, uploadId⟩)
                        log := s.log ++ [.uploadCreated k] })

/-- `get_upload`. -/
def getUpload (bucket key uploadId : Bytes) (s : Store) : Except Err (Option UploadRecord) :=
  match s.uploads.get (uploadKey bucket key uploadId) with
  | none => .ok none
  | some .garbage => .error .undecodable
  | some (.record u) => .ok (some u)

/-- `get_multipart_part`. -/
def getMultipartPart (bucket key uploadId : Bytes) (partNumber : ℤ) (s : Store) : Except Err (Option MultiPart) :=
  match s.parts.get (partKey bucket key uploadId partNumber) with
  | none => .ok none
  | some .garbage => .error .undecodable
  | some (.record p) => .ok (some p)

/-- `insert_multipart_part`: over whatever is there. -/
def insertMultipartPart (part : MultiPart) : StoreProg (Except Err Unit) :=
  transact fun s =>
    let k := partKey part.bucket part.key part.uploadId part.partNumber
    .ok ((), { s with parts := s.parts.insert k (.record part), log := s.log ++ [.partStored k] })

/-- `claim_upload`. -/
def claimUpload (bucket key uploadId : Bytes) : StoreProg (Except Err (Option UploadRecord)) :=
  transact (takeUpload (uploadKey bucket key uploadId))

/-- `UploadClaim`. -/
inductive UploadClaim where
  | claimed (record : UploadRecord) (parts : List (PartInstance × MultiPart))
  | noUpload
  | missingPart (partNumber : ℤ)
deriving DecidableEq

/-- The parts of a claim, each taken in turn; `.error` names the one that is not there. -/
def takeParts (bucket key uploadId : Bytes) :
    List ℤ → Store → Except Err (Except ℤ (List (PartInstance × MultiPart)) × Store)
  | [], s => .ok (.ok [], s)
  | n :: ns, s =>
    let k := partKey bucket key uploadId n
    match takePart k s with
    | (none, _) => .ok (.error n, s)
    | (some .garbage, _) => .error .undecodable
    | (some (.record part), s') =>
      match takeParts bucket key uploadId ns s' with
      | .error e => .error e
      | .ok (.error n, s) => .ok (.error n, s)
      | .ok (.ok rest, s'') => .ok (.ok ((s.partInstance k, part) :: rest), s'')

/-- The transaction of `claim_upload_with_parts`: the upload record and every named part,
or nothing. -/
def claimTx (bucket key uploadId : Bytes) (partNumbers : List ℤ) (s : Store) : Except Err (UploadClaim × Store) :=
  match takeUpload (uploadKey bucket key uploadId) s with
  | .error e => .error e
  | .ok (none, _) => .ok (.noUpload, s)
  | .ok (some record, s') =>
    match takeParts bucket key uploadId partNumbers s' with
    | .error e => .error e
    | .ok (.error n, _) => .ok (.missingPart n, s)
    | .ok (.ok parts, s'') =>
      .ok (.claimed record parts, { s'' with log := s''.log ++ [.partsClaimed (parts.map Prod.fst)] })

/-- `claim_upload_with_parts`. -/
def claimUploadWithParts (bucket key uploadId : Bytes) (partNumbers : List ℤ) : StoreProg (Except Err UploadClaim) :=
  transact (claimTx bucket key uploadId partNumbers)

/-- The transaction of `reap_part`. -/
def reapTx (storageKey : Bytes) (s : Store) : Except Err (Option (PartInstance × MultiPart) × Store) :=
  match takePart storageKey s with
  | (none, _) => .ok (none, s)
  | (some .garbage, _) => .error .undecodable
  | (some (.record part), s') =>
    .ok (some (s.partInstance storageKey, part),
      { s' with log := s'.log ++ [.partReaped (s.partInstance storageKey) part.blocks] })

/-! ## Sweeps and aborts

What a sweep or an abort reads of the upload and part trees is a parameter: the store's own reads
(`Reads.store`), or reads that keep failing on some keys. -/

/-- The reads a sweep or an abort makes of the upload and part trees. -/
structure Reads where
  nextPart : Option Bytes → StoreProg (Except Err (Option (Bytes × Cell MultiPart)))
  nextUpload : Option Bytes → StoreProg (Except Err (Option (Bytes × Cell UploadRecord)))
  getUpload : Bytes → Bytes → Bytes → StoreProg (Except Err (Option UploadRecord))
  claimUpload : Bytes → Bytes → Bytes → StoreProg (Except Err (Option UploadRecord))
  takePart : Bytes → StoreProg (Except Err (Option (PartInstance × MultiPart)))

/-- `SweepStats`. -/
structure SweepStats where
  uploadsReaped : ℕ
  orphanPartsReaped : ℕ
  errors : ℕ
deriving DecidableEq

namespace Reads

/-- The reads of the store, one entry of a tree at a time: any of them may fail at any time. -/
def store : Reads where
  nextPart cursor := readStore fun s => .ok (s.parts.nextAfter cursor)
  nextUpload cursor := readStore fun s => .ok (s.uploads.nextAfter cursor)
  getUpload bucket key uploadId := readStore (QssStorage.getUpload bucket key uploadId)
  claimUpload := QssStorage.claimUpload
  takePart k := transact (reapTx k)

variable (r : Reads)

/-- `reap_part`: removing the record is the claim on its blocks. -/
def reapPart (storageKey : Bytes) : StoreProg (Except Err (Option MultiPart)) :=
  (r.takePart storageKey).andThen fun
    | none => .ret (.ok none)
    | some (p, part) => (releaseBlocks c (.part p) part.blocks).bind fun _ => .ret (.ok (some part))

/-- Reap a list of keys; a failure leaves that part for the next sweep. How many parts were
reaped, and how many could not be. -/
def reapAll : List Bytes → StoreProg (ℕ × ℕ)
  | [] => .ret (0, 0)
  | k :: ks => (r.reapPart c k).bind fun reaped =>
    (reapAll ks).bind fun rest =>
      match reaped with
      | .ok (some _) => .ret (rest.1 + 1, rest.2)
      | .ok none => .ret rest
      | .error _ => .ret (rest.1, rest.2 + 1)

/-- The scan of `abort_upload`: the decodable parts under a prefix. A read that fails does
not move the cursor. -/
def partsOf (pre : Bytes) : ℕ → Option Bytes → StoreProg (List MultiPart)
  | 0, _ => Prog.step fun _ _ => none
  | fuel + 1, cursor => (r.nextPart cursor).bind fun
    | .error _ => partsOf pre fuel cursor
    | .ok none => .ret []
    | .ok (some (k, raw)) =>
      if pre.isPrefixOf k then
        (partsOf pre fuel (some k)).bind fun rest =>
          match raw with
          | .record part => .ret (part :: rest)
          | .garbage => .ret rest
      else .ret []

/-- `abort_upload`. -/
def abortUpload (fuel : ℕ) (bucket key uploadId : Bytes) : StoreProg (Except Err (Option ℕ)) :=
  (r.claimUpload bucket key uploadId).andThen fun
    | none => .ret (.ok none)
    | some _ =>
      let pre := partPrefix bucket key uploadId
      (r.partsOf pre fuel (some pre)).bind fun parts =>
        (r.reapAll c (parts.map fun part => partKey bucket key uploadId part.partNumber)).bind fun reaped =>
          .ret (.ok (some reaped.1))

/-- `list_uploads`: the first record that cannot be read or decoded ends it. -/
def listUploads : ℕ → Option Bytes → StoreProg (Except Err (List UploadRecord))
  | 0, _ => Prog.step fun _ _ => none
  | fuel + 1, cursor => (r.nextUpload cursor).andThen fun
    | none => .ret (.ok [])
    | some (_, .garbage) => .ret (.error .undecodable)
    | some (k, .record u) => (listUploads fuel (some k)).andThen fun rest => .ret (.ok (u :: rest))

/-- The aged uploads, each aborted. -/
def abortAged (fuel : ℕ) (cutoff : ℤ) : List UploadRecord → SweepStats → StoreProg SweepStats
  | [], stats => .ret stats
  | u :: us, stats =>
    if cutoff ≤ u.createdAt then abortAged fuel cutoff us stats
    else (r.abortUpload c fuel u.bucket u.key u.uploadId).bind fun
      | .ok (some _) => abortAged fuel cutoff us { stats with uploadsReaped := stats.uploadsReaped + 1 }
      | .ok none => abortAged fuel cutoff us stats
      | .error _ => abortAged fuel cutoff us { stats with errors := stats.errors + 1 }

/-- `sweep_aged_uploads`. -/
def sweepAgedUploads (fuel : ℕ) (cutoff : ℤ) (stats : SweepStats) : StoreProg SweepStats :=
  (r.listUploads fuel none).bind fun
    | .error _ => .ret { stats with errors := stats.errors + 1 }
    | .ok records => r.abortAged c fuel cutoff records stats

/-- The first half of `sweep_orphan_parts`: the keys of the decodable parts whose upload
record is absent. -/
def orphanParts : ℕ → Option Bytes → SweepStats → StoreProg (List Bytes × SweepStats)
  | 0, _, _ => Prog.step fun _ _ => none
  | fuel + 1, cursor, stats =>
    let failed := { stats with errors := stats.errors + 1 }
    (r.nextPart cursor).bind fun
      | .error _ => orphanParts fuel cursor failed
      | .ok none => .ret ([], stats)
      | .ok (some (k, .garbage)) => orphanParts fuel (some k) failed
      | .ok (some (k, .record part)) => (r.getUpload part.bucket part.key part.uploadId).bind fun
        | .ok none => (orphanParts fuel (some k) stats).bind fun rest => .ret (k :: rest.1, rest.2)
        | .ok (some _) => orphanParts fuel (some k) stats
        | .error _ => orphanParts fuel (some k) failed

/-- `sweep_orphan_parts`. -/
def sweepOrphanParts (fuel : ℕ) (stats : SweepStats) : StoreProg SweepStats :=
  (r.orphanParts fuel none stats).bind fun found =>
    (r.reapAll c found.1).bind fun reaped =>
      .ret { found.2 with orphanPartsReaped := found.2.orphanPartsReaped + reaped.1
                          errors := found.2.errors + reaped.2 }

/-- `sweep_stale_uploads`. -/
def sweepStaleUploads (fuel ttl : ℕ) : StoreProg SweepStats :=
  readClock.bind fun now =>
    (r.sweepAgedUploads c fuel ((now : ℤ) - ttl) ⟨0, 0, 0⟩).bind fun stats => r.sweepOrphanParts c fuel stats

end Reads

@[inherit_doc Reads.reapPart]
def reapPart (storageKey : Bytes) : StoreProg (Except Err (Option MultiPart)) := Reads.store.reapPart c storageKey

@[inherit_doc Reads.partsOf]
def partsOf (pre : Bytes) (fuel : ℕ) (cursor : Option Bytes) : StoreProg (List MultiPart) :=
  Reads.store.partsOf pre fuel cursor

@[inherit_doc Reads.abortUpload]
def abortUpload (fuel : ℕ) (bucket key uploadId : Bytes) : StoreProg (Except Err (Option ℕ)) :=
  Reads.store.abortUpload c fuel bucket key uploadId

@[inherit_doc Reads.listUploads]
def listUploads (fuel : ℕ) (cursor : Option Bytes) : StoreProg (Except Err (List UploadRecord)) :=
  Reads.store.listUploads fuel cursor

@[inherit_doc Reads.sweepStaleUploads]
def sweepStaleUploads (fuel ttl : ℕ) : StoreProg SweepStats := Reads.store.sweepStaleUploads c fuel ttl

/-! ## The handlers -/

/-- What a request is refused with. -/
inductive S3Err where
  | bucketAlreadyExists
  | noSuchBucket
  | noSuchKey
  | serviceUnavailable
  | invalidStorageClass
  | invalidToken
  | notImplemented
  | noSuchUpload
  | incompleteBody
  | missingContentLength
  | invalidRequest
  | invalidArgument
  | invalidPart
  | invalidPartOrder
  | invalidDigest
  | invalidRange
  | badDigest
  | internal (e : Err)
deriving DecidableEq

/-- A failure of the store is an internal error of the request. -/
def tryStore {α : Type} (p : StoreProg (Except Err α)) : StoreProg (Except S3Err α) :=
  p.bind fun
    | .ok a => .ret (.ok a)
    | .error e => .ret (.error (.internal e))

/-- `upload_part_op`. An unparsable Content-MD5 is `some none`. -/
def uploadPart (bucket key uploadId : Bytes) (partNumber : ℤ) (body : Option (List (Option Bytes)))
    (contentLength : Option ℤ) (contentMd5 : Option (Option Bytes)) : StoreProg (Except S3Err Unit) :=
  (tryStore (readStore (getUpload bucket key uploadId))).andThen fun
    | none => .ret (.error .noSuchUpload)
    | some _ =>
      match contentMd5, body, contentLength with
      | some none, _, _ => .ret (.error .invalidDigest)
      | _, none, _ => .ret (.error .incompleteBody)
      | _, _, none => .ret (.error .missingContentLength)
      | expected, some body, some contentLength =>
        (tryStore (storeObject c body)).andThen fun stored =>
          if contentLength ≠ stored.2.2 then .ret (.error .invalidRequest)
          else if expected.join.any (· ≠ stored.2.1) then .ret (.error .badDigest)
          else tryStore (insertMultipartPart ⟨stored.2.2, partNumber, bucket, key, uploadId, stored.2.1, stored.1⟩)

/-- The validation loop of a complete: part numbers run from 1, every part is there. -/
def validateParts (bucket key uploadId : Bytes) : ℤ → List (Option ℤ) → StoreProg (Except S3Err (List ℤ))
  | _, [] => .ret (.ok [])
  | _, none :: _ => .ret (.error .invalidPart)
  | cnt, some n :: ns =>
    if n ≠ cnt + 1 then .ret (.error .invalidPartOrder)
    else (readStore (getMultipartPart bucket key uploadId n)).bind fun
      | .ok (some _) => (validateParts bucket key uploadId (cnt + 1) ns).andThen fun rest => .ret (.ok (n :: rest))
      | _ => .ret (.error .invalidArgument)

/-- `calculate_multipart_hash`. -/
def calculateMultipartHash (parts : List MultiPart) : Bytes × ℕ :=
  (c.md5 (parts.flatMap MultiPart.hash), (parts.map MultiPart.size).sum)

/-- `complete_multipart_upload_op`: the object inherits the block references of the parts
it claimed. -/
def completeMultipartUpload (bucket key uploadId : Bytes) (upload : Option (List (Option ℤ))) :
    StoreProg (Except S3Err Object) :=
  match upload with
  | none => .ret (.error .invalidPart)
  | some [] => .ret (.error .invalidRequest)
  | some (n :: ns) =>
    (tryStore (readStore (getUpload bucket key uploadId))).andThen fun
      | none => .ret (.error .noSuchUpload)
      | some _ =>
        (validateParts bucket key uploadId 0 (n :: ns)).andThen fun partNumbers =>
          (tryStore (claimUploadWithParts bucket key uploadId partNumbers)).andThen fun
            | .noUpload => .ret (.error .noSuchUpload)
            | .missingPart _ => .ret (.error .invalidArgument)
            | .claimed _ claimed =>
              let parts := claimed.map Prod.snd
              let hashed := calculateMultipartHash c parts
              tryStore (createObjectMeta c bucket key hashed.2 hashed.1
                (.multiPart (parts.flatMap MultiPart.blocks) parts.length)
                [.partsInherited (claimed.map Prod.fst)])

/-- `abort_multipart_upload_op`. -/
def abortMultipartUpload (fuel : ℕ) (bucket key uploadId : Bytes) : StoreProg (Except S3Err Unit) :=
  (tryStore (abortUpload c fuel bucket key uploadId)).andThen fun
    | none => .ret (.error .noSuchUpload)
    | some _ => .ret (.ok ())

end QssStorage
