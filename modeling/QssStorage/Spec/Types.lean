import QssStorage.Data.Byte
import QssStorage.Data.OrdMap

/-!
# The records of the store

What the two databases hold, decoded: block records, object records, parts and
uploads of multipart uploads, bucket rows. A stored value that does not decode is
kept as `Cell.garbage`, because every reader of the code has a path for it.

Names and keys (`String` and `[u8]` in the code) are byte strings. Reference counts
and sizes are natural numbers: a count of `2 ^ 64` would need more records than a
64-bit address space holds bytes.
-/

namespace QssStorage

abbrev Byte := Fin 256

abbrev Bytes := List Byte

/-- A stored value, or bytes under its key that do not decode. -/
inductive Cell (α : Type) where
  | record (a : α)
  | garbage
deriving DecidableEq

/-- `MAX_BLOCKID_SIZE`. -/
def maxBlockIdSize : ℕ := 32

/-- `BLOCKID_SIZE`, the narrow width. -/
def blockIdSize : ℕ := 16

/-- A block address: `len` significant bytes, zero padded to `maxBlockIdSize`. -/
structure BlockId where
  bytes : List Byte
  len : ℕ
  size : bytes.length = maxBlockIdSize
  width : len = blockIdSize ∨ len = maxBlockIdSize
  padded : ∀ b ∈ bytes.drop len, b = 0

namespace BlockId

/-- The significant bytes. -/
def asSlice (id : BlockId) : Bytes := id.bytes.take id.len

/-- `BlockId::from_slice`. -/
def fromSlice (bytes : Bytes) : Option BlockId :=
  if h : bytes.length = blockIdSize ∨ bytes.length = maxBlockIdSize then
    some
      { bytes := bytes ++ List.replicate (maxBlockIdSize - bytes.length) 0
        len := bytes.length
        size := by
          rcases h with h | h <;> simp [h, blockIdSize, maxBlockIdSize]
        width := h
        padded := by
          intro b hb
          rw [List.drop_left] at hb
          exact List.eq_of_mem_replicate hb }
  else none

theorem key_injective : Function.Injective fun id : BlockId => toLex (id.bytes, id.len) := by
  intro a b h
  have h' : (a.bytes, a.len) = (b.bytes, b.len) := toLex.injective h
  obtain ⟨_, _, _, _, _⟩ := a
  obtain ⟨_, _, _, _, _⟩ := b
  simp only [Prod.mk.injEq] at h'
  obtain ⟨rfl, rfl⟩ := h'
  rfl

/-- The derived order: the padded bytes first, then the length. -/
instance : LinearOrder BlockId := LinearOrder.lift' _ key_injective

theorem len_pos (id : BlockId) : 1 ≤ id.len := by
  rcases id.width with h | h <;> rw [h] <;> decide

end BlockId

/-- Where `block_disk_path` puts a block file: the fanout depth, clamped to the id. -/
def diskDepth (id : BlockId) (depth : ℕ) : ℕ := min (max depth 1) id.len

/-- A block record. `degraded` is bit 0 of its flags, `reserved` the other bits. -/
structure Block where
  size : ℕ
  depth : ℕ
  rc : ℕ
  degraded : Bool
  reserved : ℕ
deriving DecidableEq

/-- `Block::new`: the first reference. -/
def Block.new (size depth : ℕ) : Block := ⟨size, depth, 1, false, 0⟩

/-- What an object record holds. -/
inductive ObjectData where
  | inline (data : Bytes)
  | singlePart (blocks : List BlockId)
  | multiPart (blocks : List BlockId) (parts : ℕ)
deriving DecidableEq

/-- An object record. Its type byte is that of `data`. -/
structure Object where
  size : ℕ
  ctime : ℤ
  hash : Bytes
  data : ObjectData
deriving DecidableEq

/-- `Object::blocks`: one entry per occurrence, none for an inlined object. -/
def Object.blocks (o : Object) : List BlockId :=
  match o.data with
  | .inline _ => []
  | .singlePart blocks => blocks
  | .multiPart blocks _ => blocks

/-- `Object::inlined`. -/
def Object.inlined (o : Object) : Option Bytes :=
  match o.data with
  | .inline data => some data
  | .singlePart _ => none
  | .multiPart _ _ => none

/-- A part of a multipart upload. -/
structure MultiPart where
  size : ℕ
  partNumber : ℤ
  bucket : Bytes
  key : Bytes
  uploadId : Bytes
  hash : Bytes
  blocks : List BlockId
deriving DecidableEq

/-- An open multipart upload. -/
structure UploadRecord where
  createdAt : ℤ
  bucket : Bytes
  key : Bytes
  uploadId : Bytes
deriving DecidableEq

/-- The row of an S3 bucket. -/
structure BucketMeta where
  ctime : ℤ
  name : Bytes
deriving DecidableEq

/-- How a namespace decides what a record's key is. -/
inductive KeyMode where
  | userKey
  | sequential
  | cas
deriving DecidableEq

/-- The row of a RESP namespace. -/
structure NamespaceMeta where
  name : Bytes
  password : Option Bytes
  maxSize : Option ℕ
  isPublic : Bool
  worm : Bool
  locked : Bool
  keyMode : KeyMode
deriving DecidableEq

/-- `NamespaceMeta::new`. -/
def NamespaceMeta.new (name : Bytes) : NamespaceMeta :=
  { name, password := none, maxSize := none, isPublic := true, worm := false, locked := false, keyMode := .userKey }

/-- A row of the bucket tree: the S3 server and the RESP server keep their own records there. -/
inductive BucketRow where
  | bucket (m : BucketMeta)
  | namespaceRow (m : NamespaceMeta)
deriving DecidableEq

/-- `is_reserved`: the names of the store's own trees start with `_`. -/
def isReserved (tree : Bytes) : Bool := tree.head? = some 95

end QssStorage
