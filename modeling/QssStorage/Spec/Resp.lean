import QssStorage.Data.Resp2
import QssStorage.Spec.Types

/-!
# A client session's byte stream

`respcas/src/resp.rs` and the read loop of `respcas/src/server.rs`: how the bytes a client
sends become commands, and what is written back.

The RESP codec is the `redis_protocol` crate's. Its `decode` is a parameter here, with the
result type the crate gives it; `Codec` says what is assumed of it. Which reply a command
gets (`Session::dispatch`) is a parameter too: the read loop hands it the frame and writes
what it returns. Whether a reply reaches the client (`encode_frame`, `write_all`) is
decided by the client, as a function of the replies it has been sent.

Lengths and positions are natural numbers. The two `checked_add` of `oversized_bulk` only
fail where the position is past the buffer anyway, and the function answers `None` then.
-/

namespace QssStorage.Resp

open Resp2 (Frame ascii parseI64)

/-- `RespError`. -/
inductive RespError where
  | protocol (text : String)
deriving DecidableEq

/-- `RespError` as `Display` writes it. -/
def RespError.text : RespError → String
  | .protocol text => "Protocol error: " ++ text

/-- `INLINE_MAX_SIZE`. -/
def inlineMaxSize : ℕ := 64 * 1024

/-- `FRAME_MARKERS`. -/
def frameMarkers : Bytes := [ascii '+', ascii '-', ascii ':', ascii '$', ascii '*']

/-! ## Inline commands -/

def isSpace (b : Byte) : Bool :=
  b = ascii ' ' || b = ascii '\n' || b = ascii '\r' || b = ascii '\t' || b = 0x0b || b = 0x0c

def hexValue (b : Byte) : Option ℕ :=
  if ascii '0' ≤ b ∧ b ≤ ascii '9' then some (b.val - 48)
  else if ascii 'a' ≤ b ∧ b ≤ ascii 'f' then some (b.val - 97 + 10)
  else if ascii 'A' ≤ b ∧ b ≤ ascii 'F' then some (b.val - 65 + 10)
  else none

def unbalanced : RespError := .protocol "unbalanced quotes in request"

/-- `\xHH` after its backslash: the byte it stands for. -/
def hexEscape : Bytes → Option Byte
  | x :: hi :: lo :: _ =>
    match hexValue hi, hexValue lo with
    | some h, some l => if x = ascii 'x' then some (Fin.ofNat 256 (h * 16 + l)) else none
    | _, _ => none
  | _ => none

/-- The byte an escaped byte stands for. -/
def unescape (escaped : Byte) : Byte :=
  if escaped = ascii 'n' then ascii '\n'
  else if escaped = ascii 'r' then ascii '\r'
  else if escaped = ascii 't' then ascii '\t'
  else if escaped = ascii 'b' then 0x08
  else if escaped = ascii 'a' then 0x07
  else escaped

/-- The rest of a word in quotes `q`, and what follows its closing quote. -/
def quotedWord (q : Byte) : ℕ → Bytes → Bytes → Except RespError (Bytes × Bytes)
  | 0, _, _ => .error unbalanced
  | _ + 1, _, [] => .error unbalanced
  | fuel + 1, current, byte :: rest =>
    if byte = q then
      -- a closing quote has to end the word
      if (rest.head?).any fun b => !isSpace b then .error unbalanced else .ok (current, rest)
    else if byte = ascii '\\' ∧ q = ascii '"' then
      match hexEscape rest, rest with
      | some b, _ => quotedWord q fuel (current ++ [b]) (rest.drop 3)
      | none, escaped :: rest' => quotedWord q fuel (current ++ [unescape escaped]) rest'
      | none, [] => .error unbalanced
    else if byte = ascii '\\' ∧ q = ascii '\'' ∧ rest.head? = some (ascii '\'') then
      quotedWord q fuel (current ++ [ascii '\'']) (rest.drop 1)
    else quotedWord q fuel (current ++ [byte]) rest

/-- The words of a line after those in `args`. -/
def splitArgsFrom : ℕ → List Bytes → Bytes → Except RespError (List Bytes)
  | 0, args, _ => .ok args
  | fuel + 1, args, line =>
    match line.dropWhile isSpace with
    | [] => .ok args
    | byte :: rest =>
      if byte = ascii '"' ∨ byte = ascii '\'' then
        match quotedWord byte (rest.length + 1) [] rest with
        | .error e => .error e
        | .ok (word, rest') => splitArgsFrom fuel (args ++ [word]) rest'
      else
        let word := (byte :: rest).takeWhile fun b => !isSpace b
        splitArgsFrom fuel (args ++ [word]) ((byte :: rest).drop word.length)

/-- `split_args`. Every word takes at least one byte of the line. -/
def splitArgs (line : Bytes) : Except RespError (List Bytes) :=
  splitArgsFrom (line.length + 1) [] line

/-- The line without a carriage return at its end. -/
def stripCr (line : Bytes) : Bytes :=
  if line.getLast? = some (ascii '\r') then line.dropLast else line

/-- Where the first newline is. -/
def newline (buffer : Bytes) : Option ℕ := buffer.findIdx? (· = ascii '\n')

/-- `RespHelper::parse_inline`. -/
def parseInline (buffer : Bytes) : Except RespError (Option (List Bytes × ℕ)) :=
  match newline buffer with
  | none =>
    if buffer.length > inlineMaxSize then .error (.protocol "too big inline request")
    else .ok none
  | some i =>
    if i > inlineMaxSize then .error (.protocol "too big inline request")
    else
      match splitArgs (stripCr (buffer.take i)) with
      | .error e => .error e
      | .ok args => .ok (some (args, i + 1))

/-! ## The cap on values -/

/-- `read_len_line`, on the bytes from `pos` on: the number, and the bytes after its line. -/
def readLenLine (rest : Bytes) : Option (ℤ × Bytes) :=
  match newline rest with
  | none => none
  | some i =>
    match parseI64 (stripCr (rest.take i)) with
    | none => none
    | some value => some (value, rest.drop (i + 1))

/-- The loop of `oversized_bulk` over the arguments still to come. -/
def oversizedArgs (cap : ℕ) : ℕ → Bytes → Option ℕ
  | 0, _ => none
  | _ + 1, [] => none
  | count + 1, marker :: rest =>
    if marker ≠ ascii '$' then none
    else
      match readLenLine rest with
      | none => none
      | some (len, after) =>
        -- a null bulk string carries no bytes
        if len < 0 then oversizedArgs cap count after
        else if len.toNat > cap then some len.toNat
        else if len.toNat + 2 > after.length then none
        else oversizedArgs cap count (after.drop (len.toNat + 2))

/-- `oversized_bulk`. -/
def oversizedBulk (buffer : Bytes) (cap : ℕ) : Option ℕ :=
  match buffer with
  | [] => none
  | first :: rest =>
    if first ≠ ascii '*' then none
    else
      match readLenLine rest with
      | none => none
      | some (count, after) => oversizedArgs cap count.toNat after

/-! ## Frames -/

/-- `redis_protocol::resp2::decode::decode`. -/
abbrev Decode := Bytes → Except String (Option (Frame × ℕ))

/-- Whether a decoder error says that bytes are missing. -/
def saysIncomplete (text : String) : Bool := "incomplete".toList <:+: text.toList

/-- What `parse_frame` takes the decoder's answer for. -/
def verdict (decode : Decode) (b : Bytes) : Lexer.Verdict Frame String :=
  match decode b with
  | .ok (some (frame, len)) => .token frame len
  | .ok none => .more
  | .error text => if saysIncomplete text then .more else .bad text

/-- **What is assumed of the decoder**: a frame takes at least one byte and depends on its
own bytes only, every extension of a malformed prefix gets the same error, what it takes
for an array has the wire form of one, and whatever else starts like one is a null array. It
follows that it answers incomplete on every strict prefix of a frame
(`Lexer.Stable.more_of_strict`). -/
structure Codec (decode : Decode) : Prop where
  lawful : Lexer.Lawful (verdict decode)
  wire : ∀ {b items n}, verdict decode b = .token (.array items) n → Resp2.ArrayWire items (b.take n)
  star : ∀ {b f n}, verdict decode (ascii '*' :: b) = .token f n → (∀ items, f ≠ .array items) →
    Resp2.NullArrayWire ((ascii '*' :: b).take n)

/-- The decoder of `Resp2`, with the result type of the crate's. -/
def decodeResp2 (depth : ℕ) : Decode := fun b =>
  match Resp2.frame depth b with
  | .token frame len => .ok (some (frame, len))
  | .more => .ok none
  | .bad fault => .error fault.text

/-- The frame of an inline command. -/
def inlineFrame (args : List Bytes) : Frame := .array (args.map .bulkString)

/-- The loop of `parse_frame`, with `consumed` bytes of blank lines behind it. -/
def parseFrameFrom (decode : Decode) (buffer : Bytes) : ℕ → ℕ → Except RespError (Option Frame × ℕ)
  | 0, consumed => .ok (none, consumed)
  | fuel + 1, consumed =>
    match buffer.drop consumed with
    | [] => .ok (none, consumed)
    | first :: rest =>
      if first ∉ frameMarkers then
        match parseInline (first :: rest) with
        | .error e => .error e
        | .ok none => .ok (none, consumed)
        | .ok (some ([], len)) => parseFrameFrom decode buffer fuel (consumed + len)
        | .ok (some (args, len)) => .ok (some (inlineFrame args), consumed + len)
      else
        match decode (first :: rest) with
        | .ok (some (frame, len)) => .ok (some frame, consumed + len)
        | .ok none => .ok (none, consumed)
        | .error text =>
          if saysIncomplete text then .ok (none, consumed) else .error (.protocol text)

/-- `RespHelper::parse_frame`. Every blank line takes at least one byte. -/
def parseFrame (decode : Decode) (buffer : Bytes) : Except RespError (Option Frame × ℕ) :=
  parseFrameFrom decode buffer (buffer.length + 1) 0

/-! ## The session -/

/-- Why a session stopped. -/
inductive SessionEnd where
  | writeFailed
  | protocolError
deriving DecidableEq

/-- What a session is run with. -/
structure Server (σ : Type) where
  decode : Decode
  /-- `Session::dispatch`: the reply to a frame, and the session's state after it. -/
  dispatch : σ → Frame → σ × Frame
  /-- Whether a reply can be written, after those already sent. -/
  writes : List Frame → Frame → Bool
  maxValueSize : ℕ

/-- A session: its own state, the frames dispatched and the replies written so far. -/
structure Session (σ : Type) where
  state : σ
  dispatched : List Frame
  replies : List Frame

variable {σ : Type}

/-- `write_response`. -/
def writeResponse (srv : Server σ) (s : Session σ) (response : Frame) : Session σ × Option SessionEnd :=
  if srv.writes s.replies response then
    ({ s with replies := s.replies ++ [response] }, none)
  else (s, some .writeFailed)

/-- One dispatch and its reply. -/
def answer (srv : Server σ) (s : Session σ) (frame : Frame) : Session σ × Option SessionEnd :=
  let (state, response) := srv.dispatch s.state frame
  writeResponse srv { s with state := state, dispatched := s.dispatched ++ [frame] } response

/-- The loop of `serve_buffered_frames`, at `pos`. -/
def serveFrom (srv : Server σ) (buffer : Bytes) : ℕ → Session σ → ℕ → Session σ × Except SessionEnd ℕ
  | 0, s, pos => (s, .ok pos)
  | fuel + 1, s, pos =>
    if buffer.length ≤ pos then (s, .ok pos)
    else
      match parseFrame srv.decode (buffer.drop pos) with
      | .ok (some frame, len) =>
        match answer srv s frame with
        | (s', some ended) => (s', .error ended)
        | (s', none) => serveFrom srv buffer fuel s' (pos + len)
      | .ok (none, skipped) => (s, .ok (pos + skipped))
      | .error e =>
        match writeResponse srv s (.error ("ERR " ++ e.text)) with
        | (s', some ended) => (s', .error ended)
        | (s', none) => (s', .error .protocolError)

/-- `serve_buffered_frames`: every frame takes at least one byte. -/
def serveBufferedFrames (srv : Server σ) (s : Session σ) (buffer : Bytes) : Session σ × Except SessionEnd ℕ :=
  serveFrom srv buffer (buffer.length + 1) s 0

/-- The refusal of an argument of `declared` bytes. -/
def overLimit (declared cap : ℕ) : Frame :=
  .error ("ERR value of " ++ toString declared ++ " bytes is over the " ++ toString cap ++
    " byte limit (resp.max_value_size)")

/-- `Session::run`, on the reads the socket answers; it ends with the connection. -/
def run (srv : Server σ) (s : Session σ) (buffer : Bytes) : List Bytes → Session σ
  | [] => s
  | chunk :: reads =>
    if chunk = [] then s
    else
      let buffer := buffer ++ chunk
      match oversizedBulk buffer srv.maxValueSize with
      | some declared => (writeResponse srv s (overLimit declared srv.maxValueSize)).1
      | none =>
        match serveBufferedFrames srv s buffer with
        | (s', .error _) => s'
        | (s', .ok consumed) => run srv s' (buffer.drop consumed) reads

/-- A session that has just been opened. -/
def Session.opened (state : σ) : Session σ := ⟨state, [], []⟩

end QssStorage.Resp
