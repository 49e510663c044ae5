import QssStorage.Conc.Prog
import QssStorage.Spec.Codec

/-!
# Opening a store

`SharedBlockStore::new` with what it calls to decide whether there is a store and which
one: `metastore/meta_store/ops.rs` (`open_or_create`), `metastore/store_header.rs`,
`cas/shared_block_store.rs` (`pair_the_roots`) and `cas/block_disk/store_id.rs`. The store's
identity is in two places, the header record of the blocks database and the marker file of
the blocks root.

`Roots` is what these functions look at under the two roots. Every read and every write is
a step, so that an opening can be cut anywhere. Syncs, and the directories and trees that
are created and never looked at, are left out. What the environment supplies (`OpenEnv`) is a
new random id, the clock and the number the next temp file gets.
-/

namespace QssStorage

open Cursor Conc Codec

/-! ## Store ids -/

/-- `STORE_ID_SIZE`. -/
def storeIdSize : ℕ := 16

/-- A store id: all zeros is how "no id" is written, so it is none. -/
structure StoreId where
  bytes : Bytes
  size : bytes.length = storeIdSize
  nonzero : bytes ≠ List.replicate storeIdSize 0
deriving DecidableEq

namespace StoreId

/-- `StoreId::from_bytes`. -/
def fromBytes (bytes : Bytes) : Option StoreId :=
  if h : bytes.length = storeIdSize ∧ bytes ≠ List.replicate storeIdSize 0 then some ⟨bytes, h.1, h.2⟩ else none

/-- A lowercase hex digit. -/
def hexDigit (n : ℕ) : Char := if n < 10 then Char.ofNat (48 + n) else Char.ofNat (87 + n)

/-- A byte in hex. -/
def hexPair (b : Byte) : List Char := [hexDigit (b.val / 16), hexDigit (b.val % 16)]

/-- `StoreId::to_hex`. -/
def toHex (id : StoreId) : List Char := id.bytes.flatMap hexPair

/-- `char::is_whitespace`. -/
def isWhitespace (c : Char) : Bool :=
  let n := c.toNat
  (9 ≤ n && n ≤ 13) || n = 32 || n = 0x85 || n = 0xa0 || n = 0x1680 || (0x2000 ≤ n && n ≤ 0x200a) ||
    n = 0x2028 || n = 0x2029 || n = 0x202f || n = 0x205f || n = 0x3000

/-- `str::trim`. -/
def trim (text : List Char) : List Char :=
  (((text.dropWhile isWhitespace).reverse).dropWhile isWhitespace).reverse

/-- The value of a hex digit of either case. -/
def hexValue (c : Char) : Option ℕ :=
  let n := c.toNat
  if 48 ≤ n ∧ n ≤ 57 then some (n - 48)
  else if 97 ≤ n ∧ n ≤ 102 then some (n - 87)
  else if 65 ≤ n ∧ n ≤ 70 then some (n - 55)
  else none

/-- `faster_hex::hex_decode`. -/
def hexDecode : List Char → Option Bytes
  | [] => some []
  | [_] => none
  | a :: b :: rest =>
    match hexValue a, hexValue b, hexDecode rest with
    | some x, some y, some bytes => some (byteOf (16 * x + y) :: bytes)
    | _, _, _ => none

/-- `StoreId::parse_hex`. -/
def parseHex (text : List Char) : Option StoreId :=
  let trimmed := trim text
  if trimmed.length ≠ 2 * storeIdSize then none
  else (hexDecode trimmed).bind fromBytes

end StoreId

/-! ## The header -/

/-- `Hasher`. -/
inductive Hasher where
  | blake3W16
  | blake3W32
deriving DecidableEq

/-- `HasherError`. -/
inductive HasherError where
  | unknownAlgo (algo : ℕ)
  | unsupportedWidth (width : ℕ)
deriving DecidableEq

namespace Hasher

/-- `Hasher::algo_id`: `ALGO_BLAKE3`, at either width. -/
def algoId (_ : Hasher) : Byte := 1

/-- `Hasher::width`. -/
def width : Hasher → Byte
  | blake3W16 => 16
  | blake3W32 => 32

/-- `Hasher::from_header`. -/
def fromHeader (algo width : Byte) : Except HasherError Hasher :=
  if algo.val = 1 then
    if width.val = 16 then .ok blake3W16
    else if width.val = 32 then .ok blake3W32
    else .error (.unsupportedWidth width)
  else .error (.unknownAlgo algo)

end Hasher

/-- `StoreHeaderError`. -/
inductive StoreHeaderError where
  | missing
  | badMagic (found : Bytes)
  | unsupportedVersion (version : ℕ)
  | malformed (e : FsError)
  | hash (e : HasherError)
deriving DecidableEq

/-- `STORE_HEADER_MAGIC`: `QSST`. -/
def storeHeaderMagic : Bytes := [81, 83, 83, 84]

/-- `STORE_HEADER_VERSION`. -/
def storeHeaderVersion : ℕ := 3

/-- `SUPPORTED_STORE_HEADER_VERSIONS`. -/
def supportedVersions : List ℕ := [storeHeaderVersion, 4]

/-- A decoded header; the id bytes are kept as they are. -/
structure StoreHeader where
  version : ℕ
  hasher : Hasher
  createdAt : ℕ
  idBytes : Bytes
  supported : version ∈ supportedVersions
  createdAt_lt : createdAt < 2 ^ 64
  size : idBytes.length = storeIdSize
deriving DecidableEq

/-- What the environment supplies to an opening. -/
structure OpenEnv where
  /-- `StoreId::generate`. -/
  id : StoreId
  now : ℕ
  now_lt : now < 2 ^ 64
  /-- `TEMP_NONCE.fetch_add`. -/
  nonce : ℕ

namespace StoreHeader

/-- `StoreHeader::create`, for the hash the options name. -/
def create (hasher : Hasher) (e : OpenEnv) : StoreHeader :=
  { version := storeHeaderVersion, hasher, createdAt := e.now, idBytes := e.id.bytes,
    supported := List.mem_cons_self, createdAt_lt := e.now_lt, size := e.id.size }

/-- `StoreHeader::store_id`. -/
def storeId (h : StoreHeader) : Option StoreId := StoreId.fromBytes h.idBytes

/-- `StoreHeader::with_store_id`. -/
def withStoreId (h : StoreHeader) (id : StoreId) : StoreHeader := { h with idBytes := id.bytes, size := id.size }

/-- `StoreHeader::to_bytes`. -/
def toBytes (h : StoreHeader) : Bytes :=
  storeHeaderMagic ++ (leBytes 2 h.version ++ (h.hasher.algoId :: h.hasher.width :: (leBytes 8 h.createdAt ++ h.idBytes)))

/-- The checks of `StoreHeader::from_bytes` on what was read. -/
def check (version : ℕ) (algo width : Byte) (createdAt : ℕ) (idBytes : Bytes) : Result StoreHeaderError StoreHeader :=
  match Hasher.fromHeader algo width with
  | .error e => .err (.hash e)
  | .ok hasher =>
    -- the bounds are those of the types of the fields
    if h : version ∈ supportedVersions ∧ createdAt < 2 ^ 64 ∧ idBytes.length = storeIdSize then
      .ok ⟨version, hasher, createdAt, idBytes, h.1, h.2.1, h.2.2⟩
    else .panic

/-- The fields of a header, read: the magic and the version are judged before the rest is. -/
def read (m : Target) : Reader Byte StoreHeaderError (ℕ × Byte × Byte × ℕ × Bytes) := do
  let magic ← (array m "store header" 4 "magic").mapErr .malformed
  let _ ← Reader.lift (if magic = storeHeaderMagic then .ok () else .err (.badMagic magic))
  let version ← (u16 m "store header" "version").mapErr .malformed
  let _ ← Reader.lift (if version ∈ supportedVersions then .ok () else .err (.unsupportedVersion version))
  let algo ← (u8 m "store header" "hash_algo").mapErr .malformed
  let width ← (u8 m "store header" "hash_width").mapErr .malformed
  let createdAt ← (u64 m "store header" "created_at").mapErr .malformed
  let idBytes ← (array m "store header" storeIdSize "store_id").mapErr .malformed
  pure (version, algo, width, createdAt, idBytes)

/-- `StoreHeader::from_bytes`. -/
def fromBytes (m : Target) (buf : Bytes) : Result StoreHeaderError StoreHeader :=
  ((read m).closed (fun buf pos => (finish "store header" buf pos).mapErr .malformed) buf).bind
    fun (version, algo, width, createdAt, idBytes) => check version algo width createdAt idBytes

end StoreHeader

/-! ## The roots -/

/-- What the two roots hold, as far as an opening looks. -/
structure Roots where
  /-- `<meta>/blocks/db/version` is a file. -/
  legacy : Bool
  /-- `<meta>/blocks/.db` exists. -/
  dbDir : Bool
  /-- Nothing in the database's directory, or a database with the header record it has. -/
  db : Option (Option Bytes)
  /-- `store_header.bin`. -/
  sidecar : Option Bytes
  /-- The numbers of the temp files in `.tmp`. -/
  temps : List ℕ
  /-- The text of `.store-id`. -/
  marker : Option (List Char)
deriving DecidableEq

/-- Nothing there yet. -/
def Roots.empty : Roots := ⟨false, false, none, none, [], none⟩

abbrev OpenProg := Prog Roots OpenEnv Empty

/-- Why a store is not opened. -/
inductive OpenErr where
  | legacyDatabase
  | header (e : StoreHeaderError)
  | pairing (headerId markerId : StoreId)
  | marker
  | panicked
deriving DecidableEq

/-- `StoreIdMarker`. -/
inductive StoreIdMarker where
  | absent
  | unreadable (found : List Char)
  | present (id : StoreId)
deriving DecidableEq

/-- `char::is_control`. -/
def isControl (c : Char) : Bool := c.toNat < 32 || (127 ≤ c.toNat && c.toNat < 160)

/-- `read_store_id_marker`, of a file or none. -/
def readStoreIdMarker : Option (List Char) → StoreIdMarker
  | none => .absent
  | some text =>
    match StoreId.parseHex text with
    | some id => .present id
    | none => .unreadable ((text.take 64).map fun c => if isControl c then '.' else c)

section Opening

variable (m : Target)

/-- The refusal of a database from before it was moved to `.db`. -/
def refuseLegacy : OpenProg (Except OpenErr Unit) :=
  Prog.step fun _ r => some (if r.legacy && !r.dbDir then .error .legacyDatabase else .ok (), r)

def createDbDir : OpenProg Unit := Prog.step fun _ r => some ((), { r with dbDir := true })

/-- The purge of `AtomicBlockWriter::open`, file by file. -/
def purge : List ℕ → OpenProg Unit
  | [] => .ret ()
  | temp :: temps => (Prog.step fun _ r => some ((), { r with temps := r.temps.erase temp })).bind fun _ => purge temps

/-- `AtomicBlockWriter::open`: the temp files of an earlier process go, then the marker is read. -/
def openBlockWriter : OpenProg StoreIdMarker :=
  (Prog.step fun _ r => some (r.temps, r)).bind fun temps =>
  (purge temps).bind fun _ =>
  Prog.step fun _ r => some (readStoreIdMarker r.marker, r)

/-- `StoreInit`. -/
inductive StoreInit where
  | create
  | open
deriving DecidableEq

/-- `classify_db_dir`. -/
def classifyDbDir : OpenProg StoreInit :=
  Prog.step fun _ r => some (if r.db.isNone then .create else .open, r)

/-- Opening the database, which creates it if its directory is empty. -/
def build : OpenProg Unit := Prog.step fun _ r => some ((), { r with db := some (r.db.getD none) })

/-- `write_header`: the tree, then the record. -/
def writeHeader (h : StoreHeader) : OpenProg Unit :=
  (Prog.step fun _ r => some ((), r)).bind fun _ =>
  Prog.step fun _ r => some ((), { r with db := some (some h.toBytes) })

/-- `write_sidecar`. -/
def writeSidecar (h : StoreHeader) : OpenProg Unit :=
  Prog.step fun _ r => some ((), { r with sidecar := some h.toBytes })

/-- `read_header`, where a missing record is an error. -/
def readHeader : OpenProg (Except OpenErr StoreHeader) :=
  Prog.step fun _ r => some (match r.db.getD none with
    | none => .error (.header .missing)
    | some raw =>
      match StoreHeader.fromBytes m raw with
      | .ok h => .ok h
      | .err e => .error (.header e)
      | .panic => .error .panicked, r)

/-- `MetaStore::open_or_create`. -/
def openOrCreate (hasher : Hasher) : OpenProg (Except OpenErr StoreHeader) :=
  classifyDbDir.bind fun init =>
  build.bind fun _ =>
  match init with
  | .create =>
    (Prog.step fun e r => some (StoreHeader.create hasher e, r)).bind fun header =>
    (writeHeader header).bind fun _ =>
    (writeSidecar header).bind fun _ =>
    .ret (.ok header)
  | .open => readHeader m

/-- `adopt_store_id`. -/
def adoptStoreId (header : StoreHeader) (id : StoreId) : OpenProg StoreHeader :=
  (writeHeader (header.withStoreId id)).bind fun _ =>
  (writeSidecar (header.withStoreId id)).bind fun _ =>
  .ret (header.withStoreId id)

/-- The temp file of `write_marker`, which must not be there yet. -/
def writeMarkerTemp : OpenProg (Except OpenErr ℕ) :=
  Prog.step fun e r =>
    if e.nonce ∈ r.temps then some (.error .marker, r) else some (.ok e.nonce, { r with temps := e.nonce :: r.temps })

/-- `write_marker`: a temp file renamed into place. -/
def writeMarker (id : StoreId) : OpenProg (Except OpenErr Unit) :=
  writeMarkerTemp.andThen fun nonce =>
  Prog.step fun _ r =>
    some (.ok (), { r with temps := r.temps.erase nonce, marker := some (id.toHex ++ ['\n']) })

/-- `pair_the_roots`. -/
def pairTheRoots (header : StoreHeader) (marker : StoreIdMarker) : OpenProg (Except OpenErr StoreHeader) :=
  match header.storeId, marker with
  | some headerId, .present markerId =>
    .ret (if headerId = markerId then .ok header else .error (.pairing headerId markerId))
  | some headerId, _ => (writeMarker headerId).andThen fun _ => .ret (.ok header)
  | none, .present markerId => (adoptStoreId header markerId).bind fun adopted => .ret (.ok adopted)
  | none, _ =>
    (Prog.step fun e r => some (e.id, r)).bind fun minted =>
    (adoptStoreId header minted).bind fun adopted =>
    (writeMarker minted).andThen fun _ => .ret (.ok adopted)

/-- `SharedBlockStore::new`. -/
def openStore (hasher : Hasher) : OpenProg (Except OpenErr StoreHeader) :=
  refuseLegacy.andThen fun _ =>
  createDbDir.bind fun _ =>
  openBlockWriter.bind fun marker =>
  (openOrCreate m hasher).andThen fun header =>
  pairTheRoots header marker

end Opening

end QssStorage
