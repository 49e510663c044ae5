import QssStorage.Spec.Store

/-!
# The write path

`cas/write_path.rs`, `cas/write_path/batch.rs` and `cas/group_commit.rs`: a body is cut
into chunks, each chunk is resolved into a batch (an occurrence of a block the batch
already holds, a dedup hit, or a staged temp file), and a batch is closed either by its
own request (`commitBatch`) or by the commit station together with others
(`closeGroup`). Temp files are not part of the state: a staged block is its bytes and
the depth they will land at.
-/

namespace QssStorage

open Conc

/-- What a store is opened with. -/
structure Config where
  stripes : ℕ
  hash : Bytes → BlockId
  md5 : Bytes → Bytes
  maxBlocksPerCommit : ℕ
  station : Bool

variable (c : Config)

/-! ## The accumulator -/

/-- `BlockBatch::add_occurrence`: `none` if the batch does not hold the block. -/
def addOccurrence (batch : List BatchEntry) (id : BlockId) : Option (List BatchEntry) :=
  if batch.any fun entry => entry.id = id then
    some (batch.map fun entry =>
      if entry.id = id then { entry with occurrences := entry.occurrences + 1 } else entry)
  else none

/-- `BlockBatch::is_full`. -/
def isFull (batch : List BatchEntry) : Bool := max c.maxBlocksPerCommit 1 ≤ batch.length

/-- `resolve_chunk`: the dedup lookup and, if it misses, the temp write. -/
def resolveChunk (id : BlockId) (bytes : Bytes) : StoreProg (Except Err Payload) :=
  (readStore (hasLiveRecord id)).andThen fun live =>
    if live then .ret (.ok (.deduped bytes))
    else (chooseDepth id).bind fun depth =>
      attempt.andThen fun _ => .ret (.ok (.staged depth bytes))

/-- The depth a payload fixes. -/
def Payload.depth : Payload → Option ℕ
  | .staged depth _ => some depth
  | .deduped _ => none

/-- `accumulate`: one arriving chunk. -/
def accumulate (batch : List BatchEntry) (id : BlockId) (bytes : Bytes) : StoreProg (Except Err (List BatchEntry)) :=
  match addOccurrence batch id with
  | some batch => .ret (.ok batch)
  | none => (resolveChunk id bytes).andThen fun payload =>
      .ret (.ok (batch ++ [⟨id, bytes.length, 1, payload, payload.depth⟩]))

/-! ## Closing one batch -/

/-- Every reference past the first of one entry. -/
def bumpRemaining (id : BlockId) : ℕ → Store → Except Err Store
  | 0, s => .ok s
  | n + 1, s =>
    match bumpBlockRc id s with
    | .error e => .error e
    | .ok (_, s) => bumpRemaining id n s

/-- `record_entry`: the records of one entry, inside a transaction. -/
def recordEntry (entry : BatchEntry) (s : Store) : Except Err (Bool × Store) :=
  match bumpBlockRc entry.id s with
  | .error e => .error e
  | .ok (some _, s) => (bumpRemaining entry.id (entry.occurrences - 1) s).map fun s => (false, s)
  | .ok (none, s) =>
    match entry.depth with
    | none => .error .panicked
    | some depth =>
      match insertNewBlock entry.id entry.len depth s with
      | .error e => .error e
      | .ok (_, s) => (bumpRemaining entry.id (entry.occurrences - 1) s).map fun s => (true, s)

/-- The records of a batch, and how many of its blocks were inserted. -/
def recordEntries : List BatchEntry → FlushOutcome → Store → Except Err (FlushOutcome × Store)
  | [], outcome, s => .ok (outcome, s)
  | entry :: entries, outcome, s =>
    match recordEntry entry s with
    | .error e => .error e
    | .ok (true, s) => recordEntries entries { outcome with written := outcome.written + 1 } s
    | .ok (false, s) => recordEntries entries { outcome with ignored := outcome.ignored + 1 } s

/-- `land_batch`: renames one after the other, then the directories are synced. -/
def landBatch : List (BlockId × ℕ × Bytes) → StoreProg (Except Err Unit)
  | [] => attempt
  | (id, depth, bytes) :: rest => (landBlock id depth bytes).andThen fun _ => landBatch rest

/-- One read per entry, under the stripes. -/
def readLive : List BatchEntry → StoreProg (Except Err (List (BatchEntry × Bool)))
  | [] => .ret (.ok [])
  | entry :: entries => (readStore (hasLiveRecord entry.id)).andThen fun live =>
      (readLive entries).andThen fun rest => .ret (.ok ((entry, live) :: rest))

/-- The overtake: a dedup hit whose record is gone is written after all. -/
def overtake : List (BatchEntry × Bool) → StoreProg (Except Err (List (BatchEntry × Bool)))
  | [] => .ret (.ok [])
  | (entry, live) :: entries =>
    match live, entry.payload with
    | false, .deduped bytes => (chooseDepth entry.id).bind fun depth =>
        (writeBlock entry.id depth bytes).andThen fun _ =>
          (overtake entries).andThen fun rest => .ret (.ok (({ entry with depth := some depth }, live) :: rest))
    | _, _ => (overtake entries).andThen fun rest => .ret (.ok ((entry, live) :: rest))

/-- The staged files of a batch that are to land: those of blocks without a live record. -/
def toLand : List (BatchEntry × Bool) → List (BlockId × ℕ × Bytes)
  | [] => []
  | (entry, live) :: entries =>
    match live, entry.payload with
    | false, .staged depth bytes => (entry.id, depth, bytes) :: toLand entries
    | _, _ => toLand entries

/-- `commit_batch`: files first, then every record in one transaction. -/
def commitBatch (entries : List BatchEntry) : StoreProg (Except Err FlushOutcome) :=
  (readLive entries).andThen fun entries =>
    (overtake entries).andThen fun entries =>
      (landBatch (toLand entries)).andThen fun _ =>
        transact (recordEntries (entries.map Prod.fst) ⟨0, 0⟩)

/-- `close_alone`: the stripes are held by the closure that commits. -/
def closeAlone (entries : List BatchEntry) : StoreProg (Except Err FlushOutcome) := do
  let ids := entries.map BatchEntry.id
  lockBatch c.stripes ids
  let outcome ← commitBatch entries
  unlockBatch c.stripes ids
  return outcome

/-! ## The commit station -/

/-- Is the record of a block live? A read that fails counts as "no". -/
def surveyBlock (id : BlockId) : StoreProg Bool :=
  Prog.step fun e s =>
    match e.read, hasLiveRecord id s with
    | true, .ok live => some (live, { s with log := s.log ++ [.surveyed id live] })
    | _, _ => some (false, { s with log := s.log ++ [.surveyed id false] })

/-- One read per distinct id of a group. -/
def readLiveGroup : List BlockId → OrdMap BlockId Bool → StoreProg (OrdMap BlockId Bool)
  | [], live => .ret live
  | id :: ids, live =>
    match live.get id with
    | some _ => readLiveGroup ids live
    | none => (surveyBlock id).bind fun answer => readLiveGroup ids (live.insert id answer)

/-- The overtake at group width. A block that could not be written stays unplaced. (The
depth the loop also notes in the entry is the one `settleDepths` writes there.) -/
def overtakeGroup (live : OrdMap BlockId Bool) : List BatchEntry → OrdMap BlockId ℕ → StoreProg (OrdMap BlockId ℕ)
  | [], placed => .ret placed
  | entry :: entries, placed =>
    match live.get entry.id, entry.payload, placed.get entry.id with
    | some false, .deduped bytes, none => (chooseDepth entry.id).bind fun depth =>
        (writeBlock entry.id depth bytes).bind fun
          | .ok _ => overtakeGroup live entries (placed.insert entry.id depth)
          | .error _ => overtakeGroup live entries placed
    | _, _, _ => overtakeGroup live entries placed

/-- Staged files: the first one of each new block lands, the others are discarded. -/
def toLandGroup (live : OrdMap BlockId Bool) :
    List BatchEntry → OrdMap BlockId ℕ → OrdMap BlockId ℕ × List (BlockId × ℕ × Bytes)
  | [], placed => (placed, [])
  | entry :: entries, placed =>
    match entry.payload, live.get entry.id, placed.get entry.id with
    | .staged depth bytes, some false, none =>
      let rest := toLandGroup live entries (placed.insert entry.id depth)
      (rest.1, (entry.id, depth, bytes) :: rest.2)
    | _, _, _ => toLandGroup live entries placed

/-- Every entry without a live record learns where the group put its file; a member with
an entry that has none is refused. -/
def settleDepths (live : OrdMap BlockId Bool) (placed : OrdMap BlockId ℕ) : List BatchEntry → List BatchEntry × Option Err
  | [] => ([], none)
  | entry :: entries =>
    let rest := settleDepths live placed entries
    match live.get entry.id, placed.get entry.id with
    | some false, some depth => ({ entry with depth := some depth } :: rest.1, rest.2)
    | some false, none => (entry :: rest.1, some (.unplaced entry.id))
    | _, _ => (entry :: rest.1, rest.2)

/-- The group's one transaction: the records of every member that was not refused. -/
def recordGroup : List (List BatchEntry × Option Err) → Store → Except Err (List FlushOutcome × Store)
  | [], s => .ok ([], s)
  | (_, some _) :: members, s => (recordGroup members s).map fun r => (⟨0, 0⟩ :: r.1, r.2)
  | (entries, none) :: members, s =>
    match recordEntries entries ⟨0, 0⟩ s with
    | .error e => .error e
    | .ok (outcome, s) => (recordGroup members s).map fun r => (outcome :: r.1, r.2)

/-- `replay_alone` for every member that was not refused. -/
def replayAlone : List (List BatchEntry × Option Err) → StoreProg (List (Except Err FlushOutcome))
  | [] => .ret []
  | (_, some e) :: members => (replayAlone members).bind fun rest => .ret (.error e :: rest)
  | (entries, none) :: members => (transact (recordEntries entries ⟨0, 0⟩)).bind fun outcome =>
      (replayAlone members).bind fun rest => .ret (outcome :: rest)

/-- What the members of a committed group are told. -/
def groupReplies : List (List BatchEntry × Option Err) → List FlushOutcome → List (Except Err FlushOutcome)
  | (_, some e) :: members, _ :: outcomes => .error e :: groupReplies members outcomes
  | (_, none) :: members, outcome :: outcomes => .ok outcome :: groupReplies members outcomes
  | _, _ => []

/-- `close_group`: the close of a batch, generalized to several. -/
def closeGroup (members : List (List BatchEntry)) : StoreProg (List (Except Err FlushOutcome)) := do
  let live ← readLiveGroup (members.flatten.map BatchEntry.id) ∅
  let placed ← overtakeGroup live members.flatten ∅
  let landing := toLandGroup live members.flatten placed
  match ← landBatch landing.2 with
  | .error e => return members.map fun _ => .error e
  | .ok () =>
    let settled := members.map (settleDepths live landing.1)
    match ← transact (recordGroup settled) with
    | .ok outcomes => return groupReplies settled outcomes
    | .error _ => replayAlone settled

/-- Submit a sealed batch: its place in the queue and the slot its outcome will come in. -/
def submit (entries : List BatchEntry) : StoreProg ℕ :=
  Prog.step fun _ s =>
    some (s.nextTicket, { s with queue := s.queue ++ [⟨s.nextTicket, entries⟩], nextTicket := s.nextTicket + 1 })

/-- Parked until the committer has sent the outcome. -/
def awaitReply (ticket : ℕ) : StoreProg (Except Err FlushOutcome) :=
  Prog.step fun _ s => (s.replies.get ticket).map fun r => (r.2, { s with replies := s.replies.erase ticket })

/-- `CommitStation::close`. -/
def stationClose (entries : List BatchEntry) : StoreProg (Except Err FlushOutcome) :=
  (submit entries).bind awaitReply

/-- The committer takes a group: the first batch in the queue and up to `more` of the next
ones, whatever arrived before the deadline and fits under the cap. -/
def takeGroup (more : ℕ) : StoreProg (List SealedBatch) :=
  Prog.step fun _ s =>
    match s.queue with
    | [] => none
    | _ :: _ => some (s.queue.take (more + 1), { s with queue := s.queue.drop (more + 1) })

/-- The outcome of one member is sent. -/
def sendReply (member : SealedBatch) (outcome : Except Err FlushOutcome) : StoreProg Unit :=
  Prog.step fun _ s => some ((), { s with replies := s.replies.insert member.ticket (member.entries, outcome) })

/-- The outcomes of a group are sent, one after the other. -/
def sendReplies : List SealedBatch → List (Except Err FlushOutcome) → StoreProg Unit
  | member :: members, outcome :: outcomes => (sendReply member outcome).bind fun _ => sendReplies members outcomes
  | _, _ => .ret ()

/-- One round of the committer loop: `commit_group`. -/
def commitGroup (more : ℕ) : StoreProg Unit := do
  let group ← takeGroup more
  let ids := (group.map SealedBatch.entries).flatten.map BatchEntry.id
  lockBatch c.stripes ids
  let outcomes ← closeGroup (group.map SealedBatch.entries)
  unlockBatch c.stripes ids
  sendReplies group outcomes

/-! ## A whole body -/

/-- `BLOCK_SIZE`. -/
def blockSize : ℕ := 2 ^ 20

/-- The loop of `BufferedByteStream::poll_next` over a long piece: whole blocks come off the
front while more than one is left, what remains goes to the buffer. -/
def fullBlocks (bytes : Bytes) : List Bytes × Bytes :=
  if blockSize < bytes.length then
    let rest := fullBlocks (bytes.drop blockSize)
    (bytes.take blockSize :: rest.1, rest.2)
  else ([], bytes)
termination_by bytes.length
decreasing_by
  have hpos : 0 < blockSize := by decide
  rw [List.length_drop]
  omega

/-- `BufferedByteStream`: the pieces of a stream as chunks of a block each, the last one
shorter. An error of the stream is passed on, and nobody asks for more after it. -/
def buffered : List (Option Bytes) → Bytes → List (Option Bytes)
  | [], buffer => if buffer.isEmpty then [] else [some buffer]
  | none :: _, _ => [none]
  | some bytes :: pieces, buffer =>
    let remainder := blockSize - buffer.length
    if bytes.length < remainder then buffered pieces (buffer ++ bytes)
    else if bytes.length = remainder then some (buffer ++ bytes) :: buffered pieces []
    else
      let rest := fullBlocks (bytes.drop remainder)
      some (buffer ++ bytes.take remainder) :: (rest.1.map some ++ buffered pieces rest.2)

/-- `flush_batch`: temp files synced, then the batch is closed. -/
def flushBatch (batch : List BatchEntry) : StoreProg (Except Err Unit) :=
  if batch.isEmpty then .ret (.ok ())
  else attempt.andThen fun _ =>
    (if c.station then stationClose batch else closeAlone c batch).andThen fun _ => .ret (.ok ())

/-- The loop of `store_object` over the chunks of a body; `none` is an error of the
stream. A failure abandons what is staged, not the batches already committed. -/
def storeChunks : List (Option Bytes) → List BatchEntry → List BlockId → Bytes →
    StoreProg (Except Err (List BlockId × Bytes × ℕ))
  | [], batch, blocks, data => (flushBatch c batch).andThen fun _ =>
      .ret (.ok (blocks, c.md5 data, data.length))
  | none :: _, _, _, _ => .ret (.error .stream)
  | some bytes :: body, batch, blocks, data =>
    (accumulate batch (c.hash bytes) bytes).andThen fun batch =>
      if isFull c batch then
        (flushBatch c batch).andThen fun _ => storeChunks body [] (blocks ++ [c.hash bytes]) (data ++ bytes)
      else storeChunks body batch (blocks ++ [c.hash bytes]) (data ++ bytes)

/-- `store_object`: the blocks of a body in order, the content hash and the size. The body
comes in pieces as the stream delivers them. -/
def storeObject (body : List (Option Bytes)) : StoreProg (Except Err (List BlockId × Bytes × ℕ)) :=
  storeChunks c (buffered body []) [] [] []

end QssStorage
