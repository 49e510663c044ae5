import QssStorage.Data.Cursor
import QssStorage.Spec.Types

/-!
# The record formats

`metastore/codec.rs` and the encoders and decoders of the five records: `block.rs`,
`object.rs`, `cas/multipart.rs`, `upload_record.rs`, `bucket_meta.rs`. A record is a flat
little-endian byte string with nothing around it.

Every slice, index and array conversion of the source is one that panics outside its
range, and every sum and product of lengths is the checked one. The width of a `usize`
is a parameter of the build (`Target`).
-/

namespace QssStorage

open Cursor

/-- What the code is built for: the language has a `usize` of 16 bits or more, and the code
asserts that it is no wider than a `u64`. -/
structure Target where
  usizeBits : ℕ
  le_usize : 16 ≤ usizeBits
  usize_le : usizeBits ≤ 64

namespace Target

/-- The number of values of a `usize`. -/
def usizes (m : Target) : ℕ := 2 ^ m.usizeBits

/-- `usize::checked_add`. -/
def checkedAdd (m : Target) (a b : ℕ) : Option ℕ := if a + b < m.usizes then some (a + b) else none

/-- `usize::checked_mul`. -/
def checkedMul (m : Target) (a b : ℕ) : Option ℕ := if a * b < m.usizes then some (a * b) else none

end Target

/-- `FsError`. -/
inductive FsError where
  | truncated (record : String) (needed got : ℕ)
  | trailingBytes (record : String) (extra : ℕ)
  | invalidUtf8 (record field : String)
  | unknownObjectType (t : ℕ)
  | invalidIdWidth (w : ℕ)
  | lengthOverflow (record field : String)
deriving DecidableEq

/-! ## Numbers and strings -/

/-- `n as u8`. -/
def byteOf (n : ℕ) : Byte := ⟨n % 256, Nat.mod_lt _ (by decide)⟩

/-- `n` as `w` bytes, least significant first. -/
def leBytes : ℕ → ℕ → Bytes
  | 0, _ => []
  | w + 1, n => ⟨n % 256, Nat.mod_lt _ (by decide)⟩ :: leBytes w (n / 256)

/-- The number whose bytes these are, least significant first. -/
def ofLeBytes : Bytes → ℕ
  | [] => 0
  | b :: rest => b + 256 * ofLeBytes rest

/-- `put_len`. -/
def putLen (n : ℕ) : Bytes := leBytes 8 n

/-- `i64::to_le_bytes`. -/
def putI64 (z : ℤ) : Bytes := leBytes 8 (z % 2 ^ 64).toNat

/-- The `i64` with the bits of `n`. -/
def toI64 (n : ℕ) : ℤ := if n < 2 ^ 63 then n else n - 2 ^ 64

/-- The bytes as the array a string is made of. -/
def byteArray (b : Bytes) : ByteArray := ⟨(b.map UInt8.ofFin).toArray⟩

/-- `String::from_utf8` accepts the bytes. -/
def validUtf8 (b : Bytes) : Bool := (byteArray b).validateUTF8

/-! ## The reader -/

namespace Codec

section Reader

variable (m : Target) (record : String)

/-- `Reader::take`. -/
def take (field : String) (len : ℕ) : Reader Byte FsError Bytes := fun buf pos =>
  match m.checkedAdd pos len with
  | none => .err (.lengthOverflow record field)
  | some stop =>
    if buf.length < stop then .err (.truncated record stop buf.length)
    else (slice buf pos stop).bind fun out => .ok (out, stop)

/-- `Reader::u8`. -/
def u8 (field : String) : Reader Byte FsError Byte := do
  let raw ← take m record field 1
  Reader.lift (index raw 0)

/-- `Reader::array`. -/
def array (n : ℕ) (field : String) : Reader Byte FsError Bytes := do
  let raw ← take m record field n
  Reader.lift (exactly n raw)

/-- `Reader::u16`. -/
def u16 (field : String) : Reader Byte FsError ℕ := do
  let raw ← array m record 2 field
  pure (ofLeBytes raw)

/-- `Reader::u64`. -/
def u64 (field : String) : Reader Byte FsError ℕ := do
  let raw ← array m record 8 field
  pure (ofLeBytes raw)

/-- `Reader::i64`. -/
def i64 (field : String) : Reader Byte FsError ℤ := do
  let raw ← array m record 8 field
  pure (toI64 (ofLeBytes raw))

/-- `Reader::len`: a `u64` on disk, a `usize` in memory. -/
def len (field : String) : Reader Byte FsError ℕ := do
  let value ← u64 m record field
  Reader.lift (if value < m.usizes then .ok value else .err (.lengthOverflow record field))

/-- `Reader::utf8`. -/
def utf8 (field : String) (n : ℕ) : Reader Byte FsError Bytes := do
  let raw ← take m record field n
  Reader.lift (if validUtf8 raw then .ok raw else .err (.invalidUtf8 record field))

/-- `slice::chunks_exact`. -/
def chunksExact (width : ℕ) (raw : Bytes) : List Bytes :=
  (List.range (raw.length / width)).map fun i => (raw.drop (i * width)).take width

/-- `BlockId::from_slice` on each chunk. -/
def fromSlices : List Bytes → Result FsError (List BlockId)
  | [] => .ok []
  | chunk :: chunks =>
    match BlockId.fromSlice chunk with
    | some id => (fromSlices chunks).bind fun ids => .ok (id :: ids)
    | none => .err (.invalidIdWidth (min chunk.length 255))

/-- `Reader::id_list`. -/
def idList : Reader Byte FsError (List BlockId) := do
  let width ← u8 m record "id_width"
  let count ← len m record "id_count"
  if width.val = 0 ∧ count = 0 then pure []
  else if width.val = blockIdSize ∨ width.val = maxBlockIdSize then do
    let total ← Reader.lift (match m.checkedMul count width with
      | some total => .ok total
      | none => .err (.lengthOverflow record "id_count"))
    let raw ← take m record "ids" total
    Reader.lift (fromSlices (chunksExact width raw))
  else Reader.lift (.err (.invalidIdWidth width))

/-- `Reader::finish`. -/
def finish (buf : Bytes) (pos : ℕ) : Result FsError Unit :=
  if pos ≠ buf.length then
    -- `buf.len() - pos` would underflow
    if buf.length < pos then .panic else .err (.trailingBytes record (buf.length - pos))
  else .ok ()

end Reader

/-- `put_id_list`: an empty list is written with width 0. -/
def putIdList (ids : List BlockId) : Bytes :=
  byteOf ((ids.head?.map BlockId.len).getD 0) :: (putLen ids.length ++ ids.flatMap BlockId.asSlice)

/-- A string field: its length, then its bytes. -/
def putString (s : Bytes) : Bytes := putLen s.length ++ s

/-- The reader's side of a string field. -/
def getString (m : Target) (record lenField field : String) : Reader Byte FsError Bytes := do
  let n ← len m record lenField
  utf8 m record field n

end Codec

open Codec

/-! ## The records -/

/-- `CONTENT_HASH_SIZE`. -/
def contentHashSize : ℕ := 16

/-- The flags byte of a block record: bit 0 and the reserved bits over it. -/
def Block.flags (b : Block) : ℕ := 2 * b.reserved + b.degraded.toNat

/-- `From<&Block> for Vec<u8>`. -/
def Block.toVec (b : Block) : Bytes :=
  putLen b.size ++ (byteOf b.depth :: (putLen b.rc ++ [byteOf b.flags]))

/-- The fields of a block record, read. -/
def Block.read (m : Target) : Reader Byte FsError Block := do
  let size ← len m "Block" "size"
  let depth ← u8 m "Block" "depth"
  let rc ← len m "Block" "rc"
  let flags ← u8 m "Block" "flags"
  pure { size, depth := depth, rc, degraded := flags.val % 2 = 1, reserved := flags.val / 2 }

/-- `TryFrom<&[u8]> for Block`. -/
def Block.tryFrom (m : Target) : Bytes → Result FsError Block := (Block.read m).closed (finish "Block")

/-- `ObjectType`, in the order of its discriminants. -/
inductive ObjectType where
  | single
  | multipart
  | inline
deriving DecidableEq

/-- `ObjectType::as_u8`. -/
def ObjectType.asU8 : ObjectType → Byte
  | .single => 0
  | .multipart => 1
  | .inline => 2

/-- The type `Object::new` gives an object of this data. -/
def ObjectData.type : ObjectData → ObjectType
  | .inline _ => .inline
  | .singlePart _ => .single
  | .multiPart _ _ => .multipart

/-- The part of an object record that depends on its type. -/
def ObjectData.toVec : ObjectData → Bytes
  | .inline data => putString data
  | .singlePart blocks => putIdList blocks
  | .multiPart blocks parts => putLen parts ++ putIdList blocks

/-- `From<&Object> for Vec<u8>`. -/
def Object.toVec (o : Object) : Bytes :=
  o.data.type.asU8 :: (leBytes 8 o.size ++ (putI64 o.ctime ++ (o.hash ++ o.data.toVec)))

/-- `OBJECT_HEADER_SIZE`. -/
def objectHeaderSize : ℕ := 1 + 8 + 8 + contentHashSize

/-- `minimum_raw_object_size`. -/
def minimumRawObjectSize : ℕ := objectHeaderSize + 8

/-- The discriminant byte, read. -/
def ObjectType.ofByte (t : Byte) : Result FsError ObjectType :=
  match t.val with
  | 0 => .ok .single
  | 1 => .ok .multipart
  | 2 => .ok .inline
  | t => .err (.unknownObjectType t)

/-- The part of an object record that depends on its type, read. -/
def ObjectData.read (m : Target) : ObjectType → Reader Byte FsError ObjectData
  | .single => do
    let blocks ← idList m "Object"
    pure (.singlePart blocks)
  | .multipart => do
    let parts ← len m "Object" "parts"
    let blocks ← idList m "Object"
    pure (.multiPart blocks parts)
  | .inline => do
    let dataLen ← len m "Object" "data_len"
    let data ← take m "Object" "data" dataLen
    pure (.inline data)

/-- The fields of an object record, read. -/
def Object.read (m : Target) : Reader Byte FsError Object := do
  let t ← u8 m "Object" "object_type"
  let objectType ← Reader.lift (ObjectType.ofByte t)
  let size ← u64 m "Object" "size"
  let ctime ← i64 m "Object" "ctime"
  let hash ← array m "Object" contentHashSize "hash"
  let data ← ObjectData.read m objectType
  pure { size, ctime, hash, data }

/-- `TryFrom<&[u8]> for Object`. -/
def Object.tryFrom (m : Target) (value : Bytes) : Result FsError Object :=
  if value.length < minimumRawObjectSize then
    .err (.truncated "Object" minimumRawObjectSize value.length)
  else (Object.read m).closed (finish "Object") value

/-- `From<&MultiPart> for Vec<u8>`. -/
def MultiPart.toVec (mp : MultiPart) : Bytes :=
  putLen mp.size ++ (putI64 mp.partNumber ++ (putString mp.bucket ++ (putString mp.key ++
    (putString mp.uploadId ++ (mp.hash ++ putIdList mp.blocks)))))

/-- The fields of a part record, read. -/
def MultiPart.read (m : Target) : Reader Byte FsError MultiPart := do
  let size ← len m "MultiPart" "size"
  let partNumber ← i64 m "MultiPart" "part_number"
  let bucket ← getString m "MultiPart" "bucket_len" "bucket"
  let key ← getString m "MultiPart" "key_len" "key"
  let uploadId ← getString m "MultiPart" "upload_len" "upload_id"
  let hash ← array m "MultiPart" contentHashSize "hash"
  let blocks ← idList m "MultiPart"
  pure { size, partNumber, bucket, key, uploadId, hash, blocks }

/-- `TryFrom<&[u8]> for MultiPart`. -/
def MultiPart.tryFrom (m : Target) : Bytes → Result FsError MultiPart :=
  (MultiPart.read m).closed (finish "MultiPart")

/-- `From<&UploadRecord> for Vec<u8>`. -/
def UploadRecord.toVec (u : UploadRecord) : Bytes :=
  putI64 u.createdAt ++ (putString u.bucket ++ (putString u.key ++ putString u.uploadId))

/-- The fields of an upload record, read. -/
def UploadRecord.read (m : Target) : Reader Byte FsError UploadRecord := do
  let createdAt ← i64 m "UploadRecord" "created_at"
  let bucket ← getString m "UploadRecord" "bucket_len" "bucket"
  let key ← getString m "UploadRecord" "key_len" "key"
  let uploadId ← getString m "UploadRecord" "upload_id_len" "upload_id"
  pure { createdAt, bucket, key, uploadId }

/-- `TryFrom<&[u8]> for UploadRecord`. -/
def UploadRecord.tryFrom (m : Target) : Bytes → Result FsError UploadRecord :=
  (UploadRecord.read m).closed (finish "UploadRecord")

/-- `From<&BucketMeta> for Vec<u8>`. -/
def BucketMeta.toVec (b : BucketMeta) : Bytes := putI64 b.ctime ++ putString b.name

/-- The fields of a bucket record, read. -/
def BucketMeta.read (m : Target) : Reader Byte FsError BucketMeta := do
  let ctime ← i64 m "BucketMeta" "ctime"
  let name ← getString m "BucketMeta" "name_len" "name"
  pure { ctime, name }

/-- `TryFrom<&[u8]> for BucketMeta`. -/
def BucketMeta.tryFrom (m : Target) : Bytes → Result FsError BucketMeta :=
  (BucketMeta.read m).closed (finish "BucketMeta")

/-- The five record formats. -/
inductive Format where
  | block
  | object
  | part
  | upload
  | bucket
deriving DecidableEq

/-- A record of one of them. -/
inductive Record where
  | block (b : Block)
  | object (o : Object)
  | part (mp : MultiPart)
  | upload (u : UploadRecord)
  | bucket (b : BucketMeta)
deriving DecidableEq

namespace Record

def format : Record → Format
  | block _ => .block
  | object _ => .object
  | part _ => .part
  | upload _ => .upload
  | bucket _ => .bucket

/-- The bytes written for a record. -/
def encode : Record → Bytes
  | block b => b.toVec
  | object o => o.toVec
  | part mp => mp.toVec
  | upload u => u.toVec
  | bucket b => b.toVec

end Record

/-- What the bytes are read as. -/
def Format.decode (m : Target) : Format → Bytes → Result FsError Record
  | .block, b => (Block.tryFrom m b).bind fun r => .ok (.block r)
  | .object, b => (Object.tryFrom m b).bind fun r => .ok (.object r)
  | .part, b => (MultiPart.tryFrom m b).bind fun r => .ok (.part r)
  | .upload, b => (UploadRecord.tryFrom m b).bind fun r => .ok (.upload r)
  | .bucket, b => (BucketMeta.tryFrom m b).bind fun r => .ok (.bucket r)

end QssStorage
