import QssStorage.Spec.GetObject

/-!
# Listing uploads and parts

`list_multipart_uploads_op` and `list_parts_op` of `s3cas/src/api/multipart.rs`. A page is cut in
memory from a whole listing that is made for it. The fields of an answer that only repeat the
request are left out.

Both sorts are unstable; on keys that differ the sorted list is the same.
-/

namespace QssStorage

open Conc

/-- `MAX_UPLOADS`. -/
def maxUploads : ℤ := 1000

/-- `MAX_PARTS`. -/
def maxParts : ℤ := 1000

/-- `unwrap_or(most).clamp(0, most)`. -/
def pageLimit (asked : Option ℤ) (most : ℤ) : ℤ := min (max (asked.getD most) 0) most

/-- `as i32`. -/
def asI32 (n : ℤ) : ℤ := n.bmod (2 ^ 32)

/-! ## Uploads -/

/-- `MultipartUpload` on the wire (`upload_to_dto`, `timestamp_from_secs`). -/
structure UploadDto where
  key : Bytes
  uploadId : Bytes
  initiated : ℕ
deriving DecidableEq

/-- `upload_to_dto`. -/
def uploadToDto (u : UploadRecord) : UploadDto := ⟨u.key, u.uploadId, u.createdAt.toNat⟩

/-- `ListMultipartUploadsInput`. -/
structure ListMultipartUploadsInput where
  keyMarker : Option Bytes
  uploadIdMarker : Option Bytes
  pre : Option Bytes
  maxUploads : Option ℤ
deriving DecidableEq

/-- `ListMultipartUploadsOutput`. -/
structure ListMultipartUploadsOutput where
  uploads : List UploadDto
  nextKeyMarker : Option Bytes
  nextUploadIdMarker : Option Bytes
  maxUploads : ℤ
  isTruncated : Bool
deriving DecidableEq

/-- The comparison uploads are sorted by: the key, then the upload id. -/
def UploadRecord.listedUpTo (a b : UploadRecord) : Prop := a.key < b.key ∨ a.key = b.key ∧ a.uploadId ≤ b.uploadId

instance : DecidableRel UploadRecord.listedUpTo := fun a b =>
  inferInstanceAs (Decidable (a.key < b.key ∨ a.key = b.key ∧ a.uploadId ≤ b.uploadId))

/-- Whether an upload comes after the markers. Without an upload id the whole marked key is behind. -/
def afterMarkers (keyMarker : Bytes) (uploadIdMarker : Option Bytes) (u : UploadRecord) : Bool :=
  if keyMarker < u.key then true
  else if u.key < keyMarker then false
  else uploadIdMarker.any fun marker => marker < u.uploadId

/-- The uploads of a bucket under a prefix, sorted. -/
def uploadsOf (bucket : Bytes) (pre : Option Bytes) (uploads : List UploadRecord) : List UploadRecord :=
  (uploads.filter fun u => u.bucket = bucket && pre.all fun p => p.isPrefixOf u.key).insertionSort
    UploadRecord.listedUpTo

/-- The answer to a request, from all upload records. -/
def listMultipartUploads (bucket : Bytes) (input : ListMultipartUploadsInput) (uploads : List UploadRecord) :
    ListMultipartUploadsOutput :=
  let sorted := uploadsOf bucket input.pre uploads
  let left := match input.keyMarker with
    | some keyMarker => sorted.filter (afterMarkers keyMarker input.uploadIdMarker)
    | none => sorted
  let limit := pageLimit input.maxUploads QssStorage.maxUploads
  let truncated := limit.toNat < left.length
  let shown := left.take limit.toNat
  let last := if truncated then shown.getLast? else none
  { uploads := shown.map uploadToDto, nextKeyMarker := last.map UploadRecord.key
    nextUploadIdMarker := last.map UploadRecord.uploadId, maxUploads := limit, isTruncated := truncated }

/-- `list_multipart_uploads_op`. -/
def listMultipartUploadsOp (fuel : ℕ) (bucket : Bytes) (input : ListMultipartUploadsInput) :
    StoreProg (Except S3Err ListMultipartUploadsOutput) :=
  whenBucket bucket <| (tryStore (listUploads fuel none)).andThen fun uploads =>
    .ret (.ok (listMultipartUploads bucket input uploads))

/-! ## Parts -/

/-- `Part` on the wire (`part_to_dto`). -/
structure PartDto where
  partNumber : ℤ
  size : ℤ
  eTag : String
deriving DecidableEq

/-- `part_to_dto`. -/
def partToDto (p : MultiPart) : PartDto :=
  ⟨asI32 p.partNumber, asI64 p.size, String.ofList (p.hash.flatMap StoreId.hexPair)⟩

/-- `ListPartsInput`. -/
structure ListPartsInput where
  partNumberMarker : Option ℤ
  maxParts : Option ℤ
deriving DecidableEq

/-- `ListPartsOutput`. -/
structure ListPartsOutput where
  parts : List PartDto
  nextPartNumberMarker : Option ℤ
  maxParts : ℤ
  isTruncated : Bool
deriving DecidableEq

/-- The answer to a request, from all parts of the upload. -/
def listParts (input : ListPartsInput) (parts : List MultiPart) : ListPartsOutput :=
  let sorted := parts.insertionSort fun a b : MultiPart => a.partNumber ≤ b.partNumber
  let left := match input.partNumberMarker with
    | some marker => sorted.filter fun p : MultiPart => marker < p.partNumber
    | none => sorted
  let limit := pageLimit input.maxParts QssStorage.maxParts
  let truncated := limit.toNat < left.length
  let shown := left.take limit.toNat
  let last := if truncated then shown.getLast? else none
  { parts := shown.map partToDto, nextPartNumberMarker := last.map fun p : MultiPart => asI32 p.partNumber, maxParts := limit
    isTruncated := truncated }

/-- `list_parts_op`. -/
def listPartsOp (fuel : ℕ) (bucket key uploadId : Bytes) (input : ListPartsInput) :
    StoreProg (Except S3Err ListPartsOutput) :=
  (tryStore (readStore (getUpload bucket key uploadId))).andThen fun
    | none => .ret (.error .noSuchUpload)
    | some _ =>
      let pre := partPrefix bucket key uploadId
      (tryStore (uploadParts pre fuel (some pre))).andThen fun parts => .ret (.ok (listParts input parts))

end QssStorage
