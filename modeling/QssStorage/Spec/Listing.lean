import QssStorage.Data.Lexer
import QssStorage.Spec.GetObject

/-!
# Listing the objects of a bucket

`s3cas/src/api/listing.rs` and `range_filter` of `metastore/stores/fjall/tree.rs`. A page is
taken from one snapshot of the bucket's tree. Keys are the bytes of their UTF-8; a key that is
not UTF-8 and a record that does not decode are left out. The fields of an answer that only
repeat the request (`name`, `delimiter`, `encoding_type`, …) are left out too.

The continuation token is the hexadecimal of a key.
-/

namespace QssStorage

open Conc

/-! ## The records a page is taken from -/

/-- An entry of a tree as a listing sees it. -/
def listedEntry (e : Bytes × Cell Object) : Option (Bytes × Object) :=
  match e.2 with
  | .record o => if validUtf8 e.1 then some (e.1, o) else none
  | .garbage => none

/-- `ctsa`: the later of a continuation token and a start. -/
def ctsa : Option Bytes → Option Bytes → Option Bytes
  | some token, some start => some (max token start)
  | some token, none => some token
  | none, start => start

/-- `range_filter`: the records with a prefix, after the later of a token and a start. -/
def rangeFilter (t : OrdMap Bytes (Cell Object)) (startAfter pre token : Option Bytes) : List (Bytes × Object) :=
  let under (p : Bytes) := t.entries.filter fun e => p <+: e.1
  let entries := match pre, ctsa token startAfter with
    | some p, some a =>
      if p < a ∧ ¬ p <+: a then []
      -- a start before the prefix is ignored
      else if a < p then under p
      else (under p).dropWhile fun e => e.1 ≤ a
    | some p, none => under p
    | none, some a => t.entries.filter fun e => a ++ [0] ≤ e.1
    | none, none => t.entries
  entries.filterMap listedEntry

/-! ## One page -/

/-- `MAX_KEYS`. -/
def maxKeys : ℤ := 1000

/-- How many items a request may be answered with. -/
def keyCount (asked : Option ℤ) : ℕ := (min (max (asked.getD maxKeys) 0) maxKeys).toNat

/-- An object as a listing shows it (`object_dto`). -/
structure ObjectDto where
  key : Bytes
  eTag : String
  lastModified : ℕ
  size : ℤ
deriving DecidableEq

/-- `object_dto`. -/
def objectDto (e : Bytes × Object) : ObjectDto := ⟨e.1, e.2.formatETag, e.2.lastModified, asI64 e.2.size⟩

/-- `DelimitedPage`. -/
structure DelimitedPage where
  objects : List ObjectDto
  commonPrefixes : List Bytes
  truncated : Bool
  resumeAfter : Option Bytes
deriving DecidableEq

/-- `key.strip_prefix(prefix).unwrap_or(key)`. -/
def afterPrefix (pre key : Bytes) : Bytes := if pre <+: key then key.drop pre.length else key

/-- The loop of `collect_delimited_page`. -/
def collectFrom (pre delimiter : Bytes) (pageSize : ℕ) :
    List (Bytes × Object) → ℕ → Option Bytes → DelimitedPage → DelimitedPage
  | [], _, _, page => page
  | (key, o) :: rest, items, group, page =>
    if group.any (· <+: key) then
      -- inside the group that was rolled up: consumed, not delivered
      collectFrom pre delimiter pageSize rest items group { page with resumeAfter := some key }
    else if items = pageSize then { page with truncated := true }
    else
      let tail := afterPrefix pre key
      match Lexer.find delimiter tail with
      | some pos =>
        let rolled := pre ++ tail.take (pos + delimiter.length)
        collectFrom pre delimiter pageSize rest (items + 1) (some rolled)
          { page with commonPrefixes := page.commonPrefixes ++ [rolled], resumeAfter := some key }
      | none =>
        collectFrom pre delimiter pageSize rest (items + 1) none
          { page with objects := page.objects ++ [objectDto (key, o)], resumeAfter := some key }

/-- `collect_delimited_page`. -/
def collectDelimitedPage (entries : List (Bytes × Object)) (pre delimiter : Bytes) (pageSize : ℕ) : DelimitedPage :=
  collectFrom pre delimiter pageSize entries 0 none ⟨[], [], false, none⟩

/-- The page without a delimiter: one row past it decides whether it is truncated. -/
def plainPage (entries : List (Bytes × Object)) (pageSize : ℕ) : DelimitedPage :=
  let rows := (entries.map objectDto).take (pageSize + 1)
  let truncated := decide (pageSize < rows.length)
  let objects := if truncated then rows.dropLast else rows
  ⟨objects, [], truncated, objects.getLast?.map ObjectDto.key⟩

/-- The page both versions of the request are answered from; an empty delimiter is none. -/
def listPage (entries : List (Bytes × Object)) (pre delimiter : Option Bytes) (pageSize : ℕ) : DelimitedPage :=
  match delimiter.filter (· ≠ []) with
  | some d => collectDelimitedPage entries (pre.getD []) d pageSize
  | none => plainPage entries pageSize

/-- Where the page after a truncated one goes on. -/
def DelimitedPage.resume (page : DelimitedPage) : Option Bytes := if page.truncated then page.resumeAfter else none

/-! ## ListObjects -/

/-- `ListObjectsInput`. -/
structure ListObjectsInput where
  delimiter : Option Bytes
  pre : Option Bytes
  marker : Option Bytes
  maxKeys : Option ℤ
deriving DecidableEq

/-- `ListObjectsOutput`. -/
structure ListObjectsOutput where
  contents : List ObjectDto
  commonPrefixes : Option (List Bytes)
  isTruncated : Bool
  nextMarker : Option Bytes
  maxKeys : ℕ
deriving DecidableEq

/-- The common prefixes as they are answered. -/
def answeredPrefixes (l : List Bytes) : Option (List Bytes) := if l.isEmpty then none else some l

/-- `list_objects_op` on the tree of the bucket. -/
def listObjects (t : OrdMap Bytes (Cell Object)) (input : ListObjectsInput) : ListObjectsOutput :=
  let count := keyCount input.maxKeys
  let page := listPage (rangeFilter t input.marker input.pre none) input.pre input.delimiter count
  let answerMarker := input.delimiter.isSome || input.marker.isSome
  { contents := page.objects
    commonPrefixes := answeredPrefixes page.commonPrefixes
    isTruncated := page.truncated
    nextMarker := if answerMarker then page.resume else none
    maxKeys := count }

/-! ## ListObjectsV2 -/

/-- `hex_string`. -/
def hexString (bytes : Bytes) : List Char := bytes.flatMap StoreId.hexPair

/-- `decode_continuation_token`. -/
def decodeContinuationToken : Option (List Char) → Except S3Err (Option Bytes)
  | none => .ok none
  | some token =>
    match StoreId.hexDecode token with
    | none => .error .invalidToken
    | some key => if validUtf8 key then .ok (some key) else .error .invalidToken

/-- `ListObjectsV2Input`. -/
structure ListObjectsV2Input where
  delimiter : Option Bytes
  pre : Option Bytes
  startAfter : Option Bytes
  maxKeys : Option ℤ
  continuationToken : Option (List Char)
deriving DecidableEq

/-- `ListObjectsV2Output`. -/
structure ListObjectsV2Output where
  keyCount : ℕ
  maxKeys : ℕ
  isTruncated : Bool
  contents : List ObjectDto
  commonPrefixes : Option (List Bytes)
  nextContinuationToken : Option (List Char)
deriving DecidableEq

/-- `list_objects_v2_op` on the tree of the bucket, with the token decoded. -/
def listObjectsV2From (t : OrdMap Bytes (Cell Object)) (input : ListObjectsV2Input) (token : Option Bytes) :
    ListObjectsV2Output :=
  let count := keyCount input.maxKeys
  let page := listPage (rangeFilter t input.startAfter input.pre token) input.pre input.delimiter count
  { keyCount := page.objects.length + page.commonPrefixes.length
    maxKeys := count
    isTruncated := page.truncated
    contents := page.objects
    commonPrefixes := answeredPrefixes page.commonPrefixes
    nextContinuationToken := page.resume.map hexString }

/-- `list_objects_v2_op` on the tree of the bucket. -/
def listObjectsV2 (t : OrdMap Bytes (Cell Object)) (input : ListObjectsV2Input) : Except S3Err ListObjectsV2Output :=
  (decodeContinuationToken input.continuationToken).map (listObjectsV2From t input)

end QssStorage
