import QssStorage.Spec.S3
import QssStorage.Spec.StoreOpen

/-!
# Reading an object

`cas/block_stream.rs`, `cas/range_request.rs` and `get_object_op` of
`s3cas/src/api/objects.rs`. `poll` is one pass through `poll_next`: where the code calls itself
again it answers `again`, and a poll that is pending is one that has not been made yet. An open
file keeps the bytes it was opened on, whatever becomes of its name afterwards; how many of them
a read brings is the environment's choice.

The range of a request and its check against the size of the object belong to the S3 library:
they are parameters.
-/

namespace QssStorage

open Conc

/-- `RangeRequest`. -/
inductive RangeRequest where
  | all
  | range (start last : ℕ)
  | toBytes (last : ℕ)
  | fromBytes (start : ℕ)
deriving DecidableEq

/-- What a body breaks off with. -/
inductive BodyErr where
  | io
  | rangeStart
  | corruption (expected actual : BlockId) (path : BlockId ×ₗ ℕ)
  | noBlockAddress (index : ℕ)
  | panicked
deriving DecidableEq

/-- A file that was opened, and how far it was read. -/
structure OpenFile where
  content : Bytes
  pos : ℕ
deriving DecidableEq

/-- `BlockStream`. A path is the address and the depth of a block file; `verify` holds the
addresses of a stream that checks its blocks. -/
structure BlockStream where
  paths : List ((BlockId ×ₗ ℕ) × ℕ)
  fp : ℕ
  size : ℕ
  processed : ℕ
  hasSeeked : Bool
  range : RangeRequest
  file : Option OpenFile
  verify : Option (List BlockId)
  reading : ℕ
  buf : Bytes
deriving DecidableEq

/-- `u64::saturating_add(1)`. -/
def saturatingSucc (n : ℕ) : ℕ := min (n + 1) (2 ^ 64 - 1)

/-- `VERIFY_READ_CHUNK`. -/
def verifyReadChunk : ℕ := 64 * 1024

/-- No read fails. -/
abbrev readsOk : Choice → Prop := fun e => e.read = true

/-- What one pass of `poll_next` comes to. -/
inductive Poll where
  | finished
  | item (r : Except BodyErr Bytes)
  | again
deriving DecidableEq

/-- Where the loop over the files before the window stops. -/
inductive Skip where
  | finished
  | panicked
  | reached (processed fp : ℕ)
deriving DecidableEq

namespace BlockStream

/-- `BlockStream::new`. -/
def new (paths : List ((BlockId ×ₗ ℕ) × ℕ)) (size : ℕ) (range : RangeRequest) : BlockStream :=
  { paths, fp := 0, size, processed := 0, hasSeeked := true, range, file := none, verify := none, reading := 0, buf := [] }

/-- `BlockStream::verified`: whole reads only. -/
def verified (b : BlockStream) (ids : List BlockId) : BlockStream :=
  if b.range = .all ∧ ids.length = b.paths.length then { b with verify := some ids } else b

/-- `BlockStream::bounds`: the window, its end exclusive. -/
def bounds (b : BlockStream) : ℕ × ℕ :=
  match b.range with
  | .all => (0, b.size)
  | .range start last => (start, saturatingSucc last)
  | .toBytes last => (0, saturatingSucc last)
  | .fromBytes start => (start, 2 ^ 64 - 1)

/-- The loop over whole files that end before the window starts, `rest` being the paths from
`fp` on. -/
def skipFiles (start stop : ℕ) : List ((BlockId ×ₗ ℕ) × ℕ) → ℕ → ℕ → Skip
  | [], processed, fp =>
    if stop ≤ processed then .finished else if processed < start then .panicked else .reached processed fp
  | (_, size) :: rest, processed, fp =>
    if stop ≤ processed then .finished
    else if processed < start ∧ processed + size ≤ start then
      if rest.isEmpty then .finished else skipFiles start stop rest (processed + size) (fp + 1)
    else .reached processed fp

/-- One read of up to `cap` bytes: none at the end of the file, any number of them before. -/
def readFile (file : OpenFile) (cap : ℕ) : StoreProg (Except BodyErr Bytes) :=
  Prog.step fun e s =>
    if e.read then some (.ok ((file.content.drop file.pos).take (min (max e.amount 1) cap)), s)
    else some (.error .io, s)

/-- `File::open`. -/
def openFile (path : BlockId ×ₗ ℕ) : StoreProg (Except BodyErr Bytes) :=
  Prog.step fun e s =>
    if e.read then
      match s.files.get path with
      | some content => some (.ok content, s)
      | none => some (.error .io, s)
    else some (.error .io, s)

/-- A seek forward. -/
def seek : StoreProg (Except BodyErr Unit) :=
  Prog.step fun e s => if e.read then some (.ok (), s) else some (.error .io, s)

variable (c : Config)

/-- `finish_verified_block`: the buffered block is hashed and handed out whole, or reported. -/
def finishVerifiedBlock (b : BlockStream) (ids : List BlockId) : Poll × BlockStream :=
  let rest := { b with file := none, buf := [] }
  match ids[b.reading]? with
  | none => (.item (.error (.noBlockAddress b.reading)), rest)
  | some expected =>
    if c.hash b.buf = expected then (.item (.ok b.buf), { rest with processed := b.processed + b.buf.length })
    else
      match b.paths[b.reading]? with
      | some (path, _) => (.item (.error (.corruption expected (c.hash b.buf) path)), rest)
      | none => (.item (.error .panicked), rest)

/-- `poll_next` with a file open. -/
def pollFile (b : BlockStream) (stop : ℕ) (file : OpenFile) : StoreProg (Poll × BlockStream) :=
  match b.verify with
  | some ids => (readFile file verifyReadChunk).bind fun
    | .error e => .ret (.item (.error e), b)
    | .ok [] => .ret (finishVerifiedBlock c b ids)
    | .ok bytes => .ret (.again, { b with buf := b.buf ++ bytes
                                          file := some { file with pos := file.pos + bytes.length } })
  | none => (readFile file (min (stop - b.processed) 4096)).bind fun
    | .error e => .ret (.item (.error e), b)
    | .ok [] => .ret (.again, { b with file := none })
    | .ok bytes => .ret (.item (.ok bytes), { b with processed := b.processed + bytes.length
                                                     file := some { file with pos := file.pos + bytes.length } })

/-- `poll_next` where the next file is opened. -/
def pollOpen (b : BlockStream) (processed fp : ℕ) (path : BlockId ×ₗ ℕ) : StoreProg (Poll × BlockStream) :=
  (openFile path).bind fun
    | .error e => .ret (.item (.error e), { b with processed, fp := fp + 1, reading := fp })
    | .ok content => .ret (.again, { b with processed, fp := fp + 1, reading := fp, hasSeeked := false
                                            file := some ⟨content, 0⟩ })

/-- `poll_next`. -/
def poll (b : BlockStream) : StoreProg (Poll × BlockStream) :=
  let (start, stop) := b.bounds
  if stop ≤ b.processed then .ret (.finished, b)
  else match b.file with
  | some file =>
    if b.hasSeeked = false ∧ b.processed < start then
      let skip := start - b.processed
      if 2 ^ 63 ≤ skip then .ret (.item (.error .rangeStart), b)
      else seek.bind fun
        | .error e => .ret (.item (.error e), b)
        | .ok () => .ret (.again, { b with hasSeeked := true, processed := b.processed + skip
                                           file := some { file with pos := file.pos + skip } })
    else pollFile c b stop file
  | none =>
    match skipFiles start stop (b.paths.drop b.fp) b.processed b.fp with
    | .finished => .ret (.finished, b)
    | .panicked => .ret (.item (.error .panicked), b)
    | .reached processed fp =>
      match b.paths[fp]? with
      | none => .ret (.finished, { b with processed, fp })
      | some (path, _) => pollOpen b processed fp path

/-- The body a stream yields, up to its end or its first error. `fuel` bounds the polls. -/
def collect : ℕ → BlockStream → Bytes → StoreProg (Except BodyErr Bytes)
  | 0, _, _ => Prog.step fun _ _ => none
  | fuel + 1, b, body => (b.poll c).bind fun
    | (.finished, _) => .ret (.ok body)
    | (.item (.error e), _) => .ret (.error e)
    | (.item (.ok bytes), b) => collect fuel b (body ++ bytes)
    | (.again, b) => collect fuel b body

/-- What a client gets that polls up to `n` times and goes on after an error. -/
def polls : ℕ → BlockStream → StoreProg (List Poll)
  | 0, _ => .ret []
  | n + 1, b => (b.poll c).bind fun
    | (.finished, _) => .ret [.finished]
    | (p, b) => (polls n b).bind fun rest => .ret (p :: rest)

end BlockStream

/-! ## The handler -/

/-- `Object::format_e_tag`. -/
def Object.formatETag (o : Object) : String :=
  let hex := String.ofList (o.hash.flatMap StoreId.hexPair)
  match o.data with
  | .multiPart _ parts => s!"{hex}-{parts}"
  | _ => hex

/-- `Object::last_modified`, in seconds of the epoch. -/
def Object.lastModified (o : Object) : ℕ := (o.ctime % 2 ^ 64).toNat

/-- `fmt_content_range`. -/
def fmtContentRange (start endInclusive size : ℕ) : String := s!"bytes {start}-{endInclusive}/{size}"

/-- What a GET answers: the headers, and what came of the body that was streamed after them. -/
structure GetObjectOutput where
  body : Except BodyErr Bytes
  contentLength : ℤ
  contentRange : Option String
  acceptRanges : String
  lastModified : ℕ
  eTag : String
deriving DecidableEq

/-- The output for an object. -/
def Object.output (o : Object) (body : Except BodyErr Bytes) (contentLength : ℕ) (contentRange : Option String) :
    GetObjectOutput :=
  { body, contentLength := asI64 contentLength, contentRange, acceptRanges := "bytes", lastModified := o.lastModified
    eTag := o.formatETag }

section Handler

variable {ρ : Type} (c : Config) (verifyOnRead : Bool) (check : ρ → ℕ → Option (ℕ × ℕ)) (fuel : ℕ)

/-- The body of an inlined object. -/
def serveInlined (o : Object) (data : Bytes) (range : Option ρ) : Except S3Err GetObjectOutput :=
  match range with
  | none => .ok (o.output (.ok data) data.length none)
  | some r =>
    match check r data.length with
    | none => .error .invalidRange
    | some (start, stop) =>
      let bytes := (data.drop start).take (stop - start)
      .ok (o.output (.ok bytes) bytes.length (some (fmtContentRange start (stop - 1) data.length)))

/-- The stream over the blocks of an object. -/
def blockStream (o : Object) (paths : List (BlockId × Block)) (range : RangeRequest) : BlockStream :=
  let files := paths.map fun p => (toLex (p.1, diskDepth p.1 p.2.depth), p.2.size)
  let stream := BlockStream.new files (files.map Prod.snd).sum range
  if verifyOnRead ∧ range = .all then stream.verified o.blocks else stream

/-- The body of a block-backed object. -/
def serveBlocks (o : Object) (paths : List (BlockId × Block)) (range : Option ρ) :
    StoreProg (Except S3Err GetObjectOutput) :=
  match range with
  | none => ((blockStream verifyOnRead o paths .all).collect c fuel []).bind fun body =>
      .ret (.ok (o.output body o.size none))
  | some r =>
    match check r o.size with
    | none => .ret (.error .invalidRange)
    | some (start, stop) =>
      ((blockStream verifyOnRead o paths (.range start (stop - 1))).collect c fuel []).bind fun body =>
        .ret (.ok (o.output body (stop - start) (some (fmtContentRange start (stop - 1) o.size))))

/-- `get_object_op`. -/
def getObjectOp (bucket key : Bytes) (range : Option ρ) : StoreProg (Except S3Err GetObjectOutput) :=
  whenBucket bucket <| (getObjectPaths bucket key).bind fun
    | .error _ => .ret (.error .serviceUnavailable)
    | .ok none => .ret (.error .noSuchKey)
    | .ok (some (o, paths)) =>
      match o.inlined with
      | some data => .ret (serveInlined check o data range)
      | none => serveBlocks c verifyOnRead check fuel o paths range

end Handler

end QssStorage
