import QssStorage.Proof.RecordTx
import QssStorage.Proof.WriteWalks

/-!
# What the block side leaves alone

Storing a body, closing batches and releasing references are steps over block records,
block files and the commit station. They never touch a bucket, an object record, an upload
or a part.

* `createObjectMeta_steps`, `deleteObject_steps`, `cloneObjectByReference_steps`: every step of
  these is of the one kind or the other.
-/

namespace QssStorage

open Conc Prog

/-- Events of the block side. -/
def Event.ofBlocks : Event → Bool
  | .landed _ _ => true
  | .wrote _ _ _ => true
  | .surveyed _ _ => true
  | .released .object _ => true
  | .released .undo _ => true
  | _ => false

/-- A step of the block side. -/
structure BlockStep (s s' : Store) : Prop where
  buckets : s'.buckets = s.buckets
  usage : s'.usage = s.usage
  trees : s'.trees = s.trees
  uploads : s'.uploads = s.uploads
  parts : s'.parts = s.parts
  log : ∃ evs, s'.log = s.log ++ evs ∧ ∀ ev ∈ evs, ev.ofBlocks = true

theorem BlockStep.refl (s : Store) : BlockStep s s := ⟨rfl, rfl, rfl, rfl, rfl, [], by simp, nofun⟩

/-- Only block records change. -/
def OnlyBlocks (s s' : Store) : Prop := ∃ blocks overran, s' = { s with blocks, overran }

theorem OnlyBlocks.refl (s : Store) : OnlyBlocks s s := ⟨s.blocks, s.overran, rfl⟩

theorem OnlyBlocks.trans {s s1 s2 : Store} (h : OnlyBlocks s s1) (h' : OnlyBlocks s1 s2) : OnlyBlocks s s2 := by
  obtain ⟨m, o, rfl⟩ := h
  obtain ⟨m', o', rfl⟩ := h'
  exact ⟨m', o', rfl⟩

theorem OnlyBlocks.blockStep {s s' : Store} (h : OnlyBlocks s s') : BlockStep s s' := by
  obtain ⟨m, o, rfl⟩ := h
  exact ⟨rfl, rfl, rfl, rfl, rfl, [], by simp, nofun⟩

/-- A step that takes a reference, or gives one back: the outcomes on their way stay. -/
structure RefStep (s s' : Store) : Prop where
  blockStep : BlockStep s s'
  replies : s'.replies = s.replies

theorem RefStep.refl (s : Store) : RefStep s s := ⟨.refl s, rfl⟩

theorem OnlyBlocks.refStep {s s' : Store} (h : OnlyBlocks s s') : RefStep s s' := by
  refine ⟨h.blockStep, ?_⟩
  obtain ⟨m, o, rfl⟩ := h
  rfl

/-- A step of a close: nor does the commit station change. -/
structure CloseStep (s s' : Store) : Prop where
  refStep : RefStep s s'
  queue : s'.queue = s.queue
  nextTicket : s'.nextTicket = s.nextTicket

theorem CloseStep.refl (s : Store) : CloseStep s s := ⟨.refl s, rfl, rfl⟩

theorem CloseStep.blockStep {s s' : Store} (h : CloseStep s s') : BlockStep s s' := h.refStep.blockStep

theorem OnlyBlocks.closeStep {s s' : Store} (h : OnlyBlocks s s') : CloseStep s s' := by
  have hstep := h.refStep
  obtain ⟨m, o, rfl⟩ := h
  exact ⟨hstep, rfl, rfl⟩

/-- A step that is noted. -/
theorem CloseStep.noted {s : Store} {files : OrdMap (BlockId ×ₗ ℕ) Bytes} {ev : Event} (hev : ev.ofBlocks = true) :
    CloseStep s { s with files, log := s.log ++ [ev] } :=
  ⟨⟨⟨rfl, rfl, rfl, rfl, rfl, [ev], rfl, List.forall_mem_singleton.2 hev⟩, rfl⟩, rfl, rfl⟩

/-! ## Transactions over block records -/

section Transactions

variable {s s' : Store} {id : BlockId}

theorem bumpBlockRc_only {r : Option Block} (h : bumpBlockRc id s = .ok (r, s')) : OnlyBlocks s s' := by
  unfold bumpBlockRc at h
  split at h
  · cases h; exact .refl _
  · cases h
  · split at h
    · cases h; exact .refl _
    · cases h; exact ⟨_, _, rfl⟩

theorem insertNewBlock_only {len depth : ℕ} {r : Block} (h : insertNewBlock id len depth s = .ok (r, s')) :
    OnlyBlocks s s' := by
  unfold insertNewBlock at h
  split at h
  · cases h; exact ⟨_, _, rfl⟩
  · cases h
  · cases h; exact ⟨_, _, rfl⟩

theorem decrementBlockRc_only {r : BlockDecrement} (h : decrementBlockRc id s = .ok (r, s')) :
    ∃ blocks, s' = { s with blocks } := by
  unfold decrementBlockRc at h
  split at h
  · cases h; exact ⟨_, rfl⟩
  · cases h
  · split at h
    · cases h; exact ⟨_, rfl⟩
    · cases h; exact ⟨_, rfl⟩

theorem onlyBlocks_books : Books OnlyBlocks fun _ => True :=
  ⟨.refl, fun h h' => h.trans h', bumpBlockRc_only, fun _ h => insertNewBlock_only h⟩

end Transactions

/-! ## Steps -/

section Steps

variable {G : Store → Store → Prop}
variable {α : Type} {body : Store → Except Err (α × Store)}

/-- The states a transaction can leave. -/
theorem transact_steps (hrefl : ∀ s, G s s) {Q : α → Prop} (hbody : ∀ s a s', body s = .ok (a, s') → G s s' ∧ Q a) :
    Steps G (transact body) fun r => ∀ a, r = .ok a → Q a :=
  (transact_confined hrefl fun s a s' _ h => ⟨trivial, hbody s a s' h⟩).steps

/-- A transaction, nothing being said of what it returns. -/
theorem transact_steps' (hrefl : ∀ s, G s s) (hbody : ∀ s a s', body s = .ok (a, s') → G s s') : Steps G (transact body) fun _ => True :=
  (transact_confined' hrefl fun s a s' _ h => ⟨trivial, hbody s a s' h⟩).steps

theorem readStore_steps (hrefl : ∀ s, G s s) {body : Store → Except Err α} :
    Steps G (readStore body) fun _ => True := (readStore_looks body).steps hrefl

theorem readClock_steps (hrefl : ∀ s, G s s) : Steps G readClock fun _ => True := readClock_looks.steps hrefl

/-- The part numbers a complete goes on with are those it was given. -/
theorem validateParts_steps (hrefl : ∀ s, G s s) (bucket key uploadId : Bytes) :
    ∀ (ns : List (Option ℤ)) (cnt : ℤ), Steps G (validateParts bucket key uploadId cnt ns)
      fun r => ∀ out, r = .ok out → ns = out.map some := by
  intro ns
  induction ns with
  | nil => intro cnt out h; cases h; rfl
  | cons n ns ih =>
    intro cnt
    cases n with
    | none => exact fun _ h => by cases h
    | some n =>
      unfold validateParts
      split
      · exact fun _ h => by cases h
      refine Steps.seq (readStore_steps hrefl) fun r => ?_
      split
      · refine Steps.andThen ((ih _).mono (fun _ _ h => h) fun r hr => ⟨fun rest hrest out hout => ?_, fun _ _ _ h => by cases h⟩)
        cases hout
        rw [hr rest hrest]
        rfl
      · exact fun _ h => by cases h

end Steps

/-! ## What never blocks -/

section Unblocked

/-- Any answer of the environment will do. -/
abbrev anyChoice : Choice → Prop := fun _ => True

theorem transact_unblocked {α : Type} (body : Store → Except Err (α × Store)) : Unblocked anyChoice (transact body) := by
  refine Unblocked.step fun e s => ?_
  rcases body s with err | ⟨a, s'⟩ <;> cases e.commit <;> rfl

theorem readStore_unblocked {α : Type} (body : Store → Except Err α) : Unblocked anyChoice (readStore body) := by
  refine Unblocked.step fun e s => ?_
  split <;> rfl

theorem writeBlock_unblocked (id : BlockId) (depth : ℕ) (bytes : Bytes) :
    Unblocked anyChoice (writeBlock id depth bytes) := by
  refine Unblocked.step fun e s => ?_
  cases e.write <;> rfl

theorem readLive_unblocked : ∀ es : List BatchEntry, Unblocked anyChoice (readLive es) := by
  intro es
  induction es with
  | nil => exact .ret _
  | cons e es ih => exact (readStore_unblocked _).andThen fun _ => ih.andThen fun _ => .ret _

theorem overtake_unblocked : ∀ rows : List (BatchEntry × Bool), Unblocked anyChoice (overtake rows) := by
  intro rows
  induction rows with
  | nil => exact .ret _
  | cons row rows ih =>
    unfold overtake
    split
    · exact (Unblocked.step fun e s => rfl).bind fun _ => (writeBlock_unblocked _ _ _).andThen fun _ =>
        ih.andThen fun _ => .ret _
    · exact ih.andThen fun _ => .ret _

theorem landBatch_unblocked : ∀ staged : List (BlockId × ℕ × Bytes), Unblocked anyChoice (landBatch staged) := by
  intro staged
  induction staged with
  | nil =>
    refine Unblocked.step fun e s => ?_
    split <;> rfl
  | cons entry staged ih =>
    refine Unblocked.andThen (Unblocked.step fun e s => ?_) fun _ => ih
    split <;> rfl

theorem closeAlone_unblocked (c : Config) (es : List BatchEntry) : Unblocked anyChoice (closeAlone c es) := by
  refine (Unblocked.lockAll _).bind fun _ => Unblocked.bind ?_ fun _ => (Unblocked.unlockAll _).bind fun _ => .ret _
  exact (readLive_unblocked es).andThen fun _ => (overtake_unblocked _).andThen fun _ =>
    (landBatch_unblocked _).andThen fun _ => transact_unblocked _

theorem readLiveGroup_unblocked : ∀ (ids : List BlockId) (live : OrdMap BlockId Bool),
    Unblocked anyChoice (readLiveGroup ids live) := by
  intro ids
  induction ids with
  | nil => exact fun _ => .ret _
  | cons id ids ih =>
    intro live
    unfold readLiveGroup
    split
    · exact ih live
    · refine Unblocked.bind (Unblocked.step fun e s => ?_) fun answer => ih _
      split <;> rfl

theorem overtakeGroup_unblocked (live : OrdMap BlockId Bool) : ∀ (es : List BatchEntry) (placed : OrdMap BlockId ℕ),
    Unblocked anyChoice (overtakeGroup live es placed) := by
  intro es
  induction es with
  | nil => exact fun _ => .ret _
  | cons entry es ih =>
    intro placed
    unfold overtakeGroup
    split
    · refine Unblocked.bind (Unblocked.step fun e s => rfl) fun depth =>
        (writeBlock_unblocked _ _ _).bind fun r => ?_
      split <;> exact ih _
    · exact ih placed

theorem replayAlone_unblocked :
    ∀ members : List (List BatchEntry × Option Err), Unblocked anyChoice (replayAlone members) := by
  intro members
  induction members with
  | nil => exact .ret _
  | cons member members ih =>
    obtain ⟨es, refused⟩ := member
    cases refused with
    | some e => exact ih.bind fun _ => .ret _
    | none => exact (transact_unblocked _).bind fun _ => ih.bind fun _ => .ret _

/-- The close of a group never waits. -/
theorem closeGroup_unblocked (members : List (List BatchEntry)) : Unblocked anyChoice (closeGroup members) := by
  refine (readLiveGroup_unblocked _ _).bind fun live => (overtakeGroup_unblocked _ _ _).bind fun placed =>
    (landBatch_unblocked _).bind fun r => ?_
  cases r with
  | error e => exact .ret _
  | ok _ =>
    refine (transact_unblocked _).bind fun outcomes => ?_
    cases outcomes with
    | ok outcomes => exact .ret _
    | error e => exact replayAlone_unblocked _

end Unblocked

/-! ## The write path -/

section WritePath

variable (c : Config)
variable {owner : Owner}

/-- The primitives of a close. -/
theorem closeStep_closes : Closes (fun _ => True) CloseStep fun _ _ _ => True where
  refl := .refl
  write depth _ := by
    refine confined_step fun e s r s' _ hf => ⟨trivial, ?_, trivial⟩
    split at hf <;> cases hf
    · exact .noted rfl
    · exact .refl _
    · exact .noted rfl
  land depth _ := by
    refine confined_step fun e s r s' _ hf => ⟨trivial, ?_, trivial⟩
    split at hf <;> cases hf
    · exact .noted rfl
    · exact .refl _
  survey id := by
    refine confined_step fun e s r s' _ hf => ⟨trivial, ?_, trivial⟩
    split at hf <;> cases hf <;> exact .noted rfl
  record hes := transact_confined' .refl fun _ _ _ _ h =>
    ⟨trivial, (books_recordEntries onlyBlocks_books (fun _ _ => trivial) h).closeStep⟩
  group hes := transact_confined' .refl fun _ _ _ _ h =>
    ⟨trivial, (books_recordGroup onlyBlocks_books (fun _ _ _ _ => trivial) h).closeStep⟩

theorem closeGroup_steps (members : List (List BatchEntry)) : Steps CloseStep (closeGroup members) fun _ => True :=
  (closes_closeGroup closeStep_closes fun _ _ _ _ => trivial).steps

/-- A step of the commit station. -/
theorem BlockStep.station (s : Store) (queue : List SealedBatch)
    (replies : OrdMap ℕ (List BatchEntry × Except Err FlushOutcome)) (nextTicket : ℕ) :
    BlockStep s { s with queue, replies, nextTicket } := ⟨rfl, rfl, rfl, rfl, rfl, [], by simp, nofun⟩

/-- The primitives of storing a body. -/
theorem blockStep_stores : Stores (fun _ => True) BlockStep fun _ _ _ => True where
  toCloses := closeStep_closes.mono fun _ _ h => h.blockStep
  submit _ := confined_step fun e s a s' _ h => by cases h; exact ⟨trivial, .station s _ _ _, trivial⟩
  await ticket := by
    refine confined_step fun e s a s' _ h => ?_
    obtain ⟨r, -, heq⟩ := Option.map_eq_some_iff.1 h
    cases heq
    exact ⟨trivial, .station s _ _ _, trivial⟩
  take more := by
    refine confined_step fun e s a s' _ h => ?_
    split at h
    · cases h
    · cases h; exact ⟨trivial, .station s _ _ _, fun _ _ _ _ => trivial⟩
  send member outcome := confined_step fun e s a s' _ h => by cases h; exact ⟨trivial, .station s _ _ _, trivial⟩

/-- Every step of a round of the committer. -/
theorem commitGroup_steps (more : ℕ) : Steps BlockStep (commitGroup c more) fun _ => True :=
  (stores_commitGroup blockStep_stores c more).steps

/-- Every step of storing a body; its blocks are those of the chunks it is cut into. -/
theorem storeObject_returns (body : List (Option Bytes)) : Steps BlockStep (storeObject c body) fun r =>
    ∀ v, r = .ok v → ∃ chunks : List Bytes, buffered body [] = chunks.map some ∧
      v = (chunks.map c.hash, c.md5 chunks.flatten, chunks.flatten.length) :=
  (stores_storeObject blockStep_stores c fun _ _ => trivial).steps

theorem storeObject_steps (body : List (Option Bytes)) : Steps BlockStep (storeObject c body) fun _ => True :=
  (storeObject_returns c body).mono (fun _ _ h => h) fun _ _ => trivial

/-! ## Releasing references -/

theorem unlinkBlock_steps (id : BlockId) (depth : ℕ) : Steps RefStep (unlinkBlock id depth) fun _ => True := by
  refine Steps.step fun e s r s' hf => ⟨?_, trivial⟩
  split at hf <;> cases hf
  · exact ⟨⟨rfl, rfl, rfl, rfl, rfl, [], by simp, nofun⟩, rfl⟩
  · exact .refl _

theorem decrementTx_only {id : BlockId} {s s' : Store} {r : BlockDecrement} (h : decrementTx owner id s = .ok (r, s')) :
    (r = .missing ∧ OnlyBlocks s s') ∨
      (r ≠ .missing ∧ ∃ blocks, s' = { s with blocks := blocks, log := s.log ++ [.released owner id] }) := by
  unfold decrementTx at h
  split at h
  · cases h
  · rename_i hd
    cases h
    obtain ⟨m, rfl⟩ := decrementBlockRc_only hd
    exact .inl ⟨rfl, m, _, rfl⟩
  · rename_i hmissing hd
    cases h
    obtain ⟨m, rfl⟩ := decrementBlockRc_only hd
    exact .inr ⟨hmissing, m, rfl⟩

/-- Every step of releasing references, if noting a release is one. -/
theorem releaseBlocks_steps {G : Store → Store → Prop} (hG : ∀ s s', RefStep s s' → G s s')
    (hnote : ∀ s id blocks, G s { s with blocks := blocks, log := s.log ++ [.released owner id] })
    (ids : List BlockId) : Steps G (releaseBlocks c owner ids) fun _ => True := by
  refine (releaseBlocks_confined c (fun id => transact_confined' (fun s => hG _ _ (.refl s)) fun s r s' _ h => ⟨trivial, ?_⟩)
    (fun id depth => (unlinkBlock_steps id depth).confined hG) ids).steps
  rcases decrementTx_only h with ⟨-, h⟩ | ⟨-, m, rfl⟩
  · exact hG _ _ h.refStep
  · exact hnote s id m

/-- The references of an object, or those an operation takes back. -/
theorem releaseOwn_steps (howner : ∀ id, Event.ofBlocks (.released owner id) = true) (ids : List BlockId) :
    Steps RefStep (releaseBlocks c owner ids) fun _ => True := by
  refine releaseBlocks_steps c (fun _ _ h => h) (fun s id blocks => ?_) ids
  exact ⟨⟨rfl, rfl, rfl, rfl, rfl, [_], rfl, by simpa using howner id⟩, rfl⟩

theorem acquireReferences_steps (ids taken : List BlockId) :
    Steps RefStep (acquireReferences c ids taken) fun _ => True := by
  refine (acquireReferences_confined .refl c (fun id => transact_confined' .refl fun s r s' _ h => ⟨trivial, ?_⟩)
    (fun ids => (releaseOwn_steps c (fun _ => rfl) ids).confined fun _ _ h => h) ids taken).steps
  split at h
  · cases h
  · rename_i hb; cases h; exact (bumpBlockRc_only hb).refStep
  · rename_i hb; cases h; exact (bumpBlockRc_only hb).refStep

end WritePath

/-! ## Object records -/

/-- A step that leaves the key alone. -/
def SameAt (bucket key : Bytes) (s s' : Store) : Prop := recordAt bucket key s' = recordAt bucket key s

theorem sameAt_of_trees {bucket key : Bytes} {s s' : Store} (h : s'.trees = s.trees) : SameAt bucket key s s' := by
  unfold SameAt recordAt Store.tree
  rw [h]

/-- What a step does to the object side: nothing, or one transaction on one record. -/
def RecordsMove (s s' : Store) : Prop :=
  (s'.buckets = s.buckets ∧ s'.usage = s.usage ∧ s'.trees = s.trees) ∨
  ∃ bucket key new noting, RecordTx bucket key new noting s s'

theorem BlockStep.recordsMove {s s' : Store} (h : BlockStep s s') : RecordsMove s s' := .inl ⟨h.buckets, h.usage, h.trees⟩

section Records

variable {s s' : Store} {bucket key : Bytes}

variable {G : Store → Store → Prop}

theorem replaceObjectRecord_steps (hrefl : ∀ s, G s s) {noting : List Event} {o : Object}
    (hrec : ∀ s s', RecordTx bucket key (some o) noting s s' → G s s') :
    Steps G (replaceObjectRecord bucket key o noting) fun _ => True :=
  transact_steps' hrefl fun s _ s' h => hrec s s' ⟨_, replaceObjectTx_ok h⟩

theorem deleteObjectTx_steps (hrefl : ∀ s, G s s) (hrec : ∀ s s', RecordTx bucket key none [] s s' → G s s') :
    Steps G (transact (deleteObjectTx bucket key)) fun _ => True :=
  transact_steps' hrefl fun s _ s' h => hrec s s' ⟨_, deleteObjectTx_ok h⟩

variable (c : Config) (hG : ∀ s s', BlockStep s s' → G s s')

include hG

/-- Every step of writing a record and releasing what it displaced. -/
theorem createObjectMeta_steps {noting : List Event} {size : ℕ} {hash : Bytes} {data : ObjectData}
    (hrec : ∀ now s s', RecordTx bucket key (some ⟨size, now, hash, data⟩) noting s s' → G s s') :
    Steps G (createObjectMeta c bucket key size hash data noting) fun _ => True :=
  (createObjectMeta_confined (fun s => hG _ _ (.refl s)) c
    (fun now => (replaceObjectRecord_steps (fun s => hG _ _ (.refl s)) (hrec now)).confined fun _ _ h => h)
    fun ids => (releaseOwn_steps c (fun _ => rfl) ids).confined fun _ _ h => hG _ _ h.blockStep).steps

variable (hrec : ∀ new s s', RecordTx bucket key new [] s s' → G s s')

include hrec

theorem storeInlinedObject_steps (data : Bytes) : Steps G (storeInlinedObject c bucket key data) fun _ => True :=
  createObjectMeta_steps c hG fun _ => hrec _

theorem storeSingleObjectAndMeta_steps (body : List (Option Bytes)) (len : ℕ) :
    Steps G (storeSingleObjectAndMeta c bucket key body len) fun _ => True := by
  refine Steps.thenTrue ?_ fun stored => Steps.seq (createObjectMeta_steps c hG fun _ => hrec _) fun r => ?_
  · split
    · exact (storeObject_steps c body).mono hG fun _ h => h
    · exact trivial
  · cases r <;> exact trivial

theorem deleteObject_steps : Steps G (deleteObject c bucket key) fun _ => True := by
  refine Steps.thenTrue (deleteObjectTx_steps (fun s => hG _ _ (.refl s)) (hrec none)) fun o => ?_
  cases o with
  | none => exact trivial
  | some o => exact Steps.seq ((releaseOwn_steps c (fun _ => rfl) _).mono (fun _ _ h => hG _ _ h.blockStep) fun _ h => h) fun _ => trivial

theorem cloneObjectByReference_steps (sourceBucket sourceKey : Bytes) :
    Steps G (cloneObjectByReference c sourceBucket sourceKey bucket key) fun _ => True :=
  (cloneObjectByReference_confined (P := fun _ => True) (fun s => hG _ _ (.refl s)) c (fun _ _ _ _ _ _ => trivial)
    (fun blocks => (acquireReferences_steps c blocks []).confined fun _ _ h => hG _ _ h.blockStep)
    fun _ _ => (createObjectMeta_steps c hG fun _ => hrec _).confined fun _ _ h => h).steps

end Records

/-! ## Uploads and parts -/

/-- A step that leaves buckets, counters and object records alone. -/
structure BesideObjects (s s' : Store) : Prop where
  buckets : s'.buckets = s.buckets
  usage : s'.usage = s.usage
  trees : s'.trees = s.trees

theorem BlockStep.besideObjects {s s' : Store} (h : BlockStep s s') : BesideObjects s s' := ⟨h.buckets, h.usage, h.trees⟩

theorem BesideObjects.refl (s : Store) : BesideObjects s s := ⟨rfl, rfl, rfl⟩

section Uploads

variable (c : Config)

theorem tryStore_steps {α : Type} {G : Store → Store → Prop} {p : StoreProg (Except Err α)}
    (h : Steps G p fun _ => True) : Steps G (tryStore p) fun _ => True :=
  Steps.seq h fun r => by cases r <;> exact trivial

theorem createUpload_steps (bucket key uploadId : Bytes) :
    Steps BesideObjects (createUpload bucket key uploadId) fun _ => True :=
  Steps.seq (readClock_steps .refl) fun now => transact_steps' .refl fun s _ s' h => by cases h; exact ⟨rfl, rfl, rfl⟩

theorem insertMultipartPart_steps (part : MultiPart) : Steps BesideObjects (insertMultipartPart part) fun _ => True :=
  transact_steps' .refl fun s _ s' h => by cases h; exact ⟨rfl, rfl, rfl⟩

theorem takeUpload_beside {k : Bytes} {s s' : Store} {u : Option UploadRecord} (h : takeUpload k s = .ok (u, s')) :
    BesideObjects s s' := by
  obtain ⟨-, rfl⟩ | ⟨record, -, -, rfl⟩ := takeUpload_cases h <;> exact ⟨rfl, rfl, rfl⟩

theorem reapPart_beside (k : Bytes) : Steps BesideObjects (reapPart c k) fun _ => True := by
  refine Steps.thenTrue (transact_steps' .refl fun s r s' h => ?_) fun r => ?_
  · obtain ⟨-, rfl⟩ | ⟨part, -, -, rfl⟩ := reapTx_cases h <;> exact ⟨rfl, rfl, rfl⟩
  · cases r with
    | none => exact trivial
    | some x => exact Steps.seq (releaseBlocks_steps c (fun _ _ h => h.blockStep.besideObjects) (fun s id blocks => ⟨rfl, rfl, rfl⟩) _) fun _ => trivial

theorem abortMultipartUpload_steps (fuel : ℕ) (bucket key uploadId : Bytes) :
    Steps BesideObjects (abortMultipartUpload c fuel bucket key uploadId) fun _ => True :=
  inherits_abortMultipartUpload (inherits_steps .refl) c
    (fun _ _ _ => transact_steps' .refl fun _ _ _ h => takeUpload_beside h) (reapPart_beside c) fuel bucket key uploadId

theorem uploadPart_steps (bucket key uploadId : Bytes) (partNumber : ℤ) (body : Option (List (Option Bytes)))
    (contentLength : Option ℤ) (contentMd5 : Option (Option Bytes)) :
    Steps BesideObjects (uploadPart c bucket key uploadId partNumber body contentLength contentMd5) fun _ => True :=
  inherits_uploadPart (inherits_steps .refl) c bucket key uploadId partNumber contentLength contentMd5
    (fun _ _ => (storeObject_steps c _).mono (fun _ _ h => h.besideObjects) fun _ h => h) insertMultipartPart_steps

end Uploads

end QssStorage
