import QssStorage.Proof.Chunks
import QssStorage.Proof.Frame

/-!
# What the blocks of a record spell

Block files, block records and the entries of a batch all come from chunks of the bodies that
were uploaded: `B` is a set that holds those chunks. A record spells a value if its blocks are
the addresses of chunks of `B` whose concatenation the value is.

* `StoreOp.filed`: **every operation whose chunks are in `B` keeps this.**
-/

namespace QssStorage

open Conc Prog OrdMap
open Confined (seq thenOk thenTrue)

/-- The blocks `ids` are the chunks of `v`, all of them in `B`. -/
def Spells (c : Config) (B : Set Bytes) (ids : List BlockId) (v : Bytes) : Prop :=
  ∃ chunks : List Bytes, (∀ chunk ∈ chunks, chunk ∈ B) ∧ ids = chunks.map c.hash ∧ v = chunks.flatten

/-- The record holds `v`, inline or in blocks. -/
def Object.Carries (c : Config) (B : Set Bytes) (o : Object) (v : Bytes) : Prop :=
  o.size = v.length ∧
    match o.inlined with
    | some data => v = data
    | none => Spells c B o.blocks v

/-- The part holds `v`. -/
def MultiPart.Carries (c : Config) (B : Set Bytes) (p : MultiPart) (v : Bytes) : Prop :=
  p.size = v.length ∧ Spells c B p.blocks v

section Values

variable {c : Config} {B : Set Bytes}

theorem Spells.nil : Spells c B [] [] := ⟨[], nofun, rfl, rfl⟩

theorem Spells.append {ids ids' : List BlockId} {v v' : Bytes} (h : Spells c B ids v) (h' : Spells c B ids' v') :
    Spells c B (ids ++ ids') (v ++ v') := by
  obtain ⟨chunks, hB, rfl, rfl⟩ := h
  obtain ⟨chunks', hB', rfl, rfl⟩ := h'
  refine ⟨chunks ++ chunks', fun chunk hc => ?_, (List.map_append ..).symm, (List.flatten_append ..).symm⟩
  exact (List.mem_append.1 hc).elim (hB chunk) (hB' chunk)

/-- Several parts, one after the other. -/
theorem spells_flatMap : ∀ {ps : List MultiPart} {vs : List Bytes}, List.Forall₂ (MultiPart.Carries c B) ps vs →
    Spells c B (ps.flatMap MultiPart.blocks) vs.flatten ∧ (ps.map MultiPart.size).sum = vs.flatten.length := by
  intro ps vs h
  induction h with
  | nil => exact ⟨Spells.nil, rfl⟩
  | @cons p v ps vs hp _ ih =>
    obtain ⟨hsize, hspells⟩ := hp
    refine ⟨?_, ?_⟩
    · rw [List.flatMap_cons, List.flatten_cons]
      exact hspells.append ih.1
    · rw [List.map_cons, List.sum_cons, List.flatten_cons, List.length_append, hsize, ih.2]

end Values

/-! ## The invariant -/

section Invariant

variable (c : Config) (B : Set Bytes)
variable {blocks : OrdMap BlockId (Cell Block)}

/-- The entry stands for a chunk of `B`. -/
def BatchEntry.Sound (e : BatchEntry) : Prop :=
  e.payload.bytes ∈ B ∧ c.hash e.payload.bytes = e.id ∧ e.len = e.payload.bytes.length

/-- Every block record has the size of a chunk. -/
def Sized (blocks : OrdMap BlockId (Cell Block)) : Prop :=
  ∀ id block, blocks.get id = some (.record block) → ∃ chunk ∈ B, c.hash chunk = id ∧ block.size = chunk.length

/-- Files, block records, objects, parts and queued batches all stand for chunks of `B`. -/
structure Filed (s : Store) : Prop where
  files : ∀ id depth bytes, s.files.get (toLex (id, depth)) = some bytes → bytes ∈ B ∧ c.hash bytes = id
  blocks : Sized c B s.blocks
  objects : ∀ bucket key o, (s.tree bucket).get key = some (.record o) → ∃ v, o.Carries c B v
  parts : ∀ key p, s.parts.get key = some (.record p) → ∃ v, p.Carries c B v
  queue : ∀ batch ∈ s.queue, ∀ e ∈ batch.entries, e.Sound c B

theorem filed_empty : Filed c B Store.empty := ⟨nofun, nofun, nofun, nofun, nofun⟩

variable {c B}

/-- A step on block records. -/
theorem Filed.withBlocks {s : Store} {log : List Event} {overran : Bool} (h : Filed c B s)
    (hb : Sized c B blocks) : Filed c B { s with blocks, log, overran } :=
  ⟨h.files, hb, h.objects, h.parts, h.queue⟩

/-- A file comes that holds a chunk. -/
theorem Filed.withFile {s : Store} (h : Filed c B s) {bytes : Bytes} (hB : bytes ∈ B) (depth : ℕ) (log : List Event) :
    Filed c B { s with files := s.files.insert (toLex (c.hash bytes, depth)) bytes, log := log } := by
  refine ⟨fun id d bytes' hget => ?_, h.blocks, h.objects, h.parts, h.queue⟩
  dsimp only at hget
  rw [get_insert] at hget
  split at hget
  · rename_i heq
    cases hget
    have hpair : (id, d) = (c.hash bytes, depth) := toLex.injective heq
    cases hpair
    exact ⟨hB, rfl⟩
  · exact h.files id d bytes' hget

/-- A tree changes where its new records hold values. -/
theorem Filed.withTree {s : Store} (h : Filed c B s) {bucket : Bytes} {t : OrdMap Bytes (Cell Object)}
    (ht : ∀ key o, t.get key = some (.record o) → ∃ v, o.Carries c B v) (usage : OrdMap Bytes (Cell ℕ))
    (log : List Event) : Filed c B { s with trees := s.trees.insert bucket t, usage := usage, log := log } := by
  refine ⟨h.files, h.blocks, fun b key o hget => ?_, h.parts, h.queue⟩
  unfold Store.tree at hget
  dsimp only at hget
  rw [get_insert] at hget
  split at hget
  · exact ht key o hget
  · exact h.objects b key o hget

/-- A transaction on one object record. -/
theorem Filed.recordTx {s s' : Store} (h : Filed c B s) {bucket key : Bytes} {new : Option Object} {noting : List Event}
    (hnew : ∀ o, new = some o → ∃ v, o.Carries c B v) (htx : RecordTx bucket key new noting s s') : Filed c B s' := by
  obtain ⟨old, usage, -, -, rfl⟩ := htx
  refine h.withTree (fun k o hget => ?_) usage _
  cases new with
  | none =>
    rw [Option.elim_none, get_erase] at hget
    split at hget
    · cases hget
    · exact h.objects bucket k o hget
  | some o' =>
    rw [Option.elim_some, get_insert] at hget
    split at hget
    · cases hget; exact hnew _ rfl
    · exact h.objects bucket k o hget

/-! ## Block records -/

theorem Sized.insert (h : Sized c B blocks) {id : BlockId} {block : Block}
    (hnew : ∃ chunk ∈ B, c.hash chunk = id ∧ block.size = chunk.length) :
    Sized c B (blocks.insert id (.record block)) := by
  intro j b hget
  rw [get_insert] at hget
  split at hget
  · rename_i hj; cases hget; exact hj ▸ hnew
  · exact h j b hget

theorem Sized.erase (h : Sized c B blocks) (id : BlockId) : Sized c B (blocks.erase id) := by
  intro j b hget
  rw [get_erase] at hget
  split at hget
  · cases hget
  · exact h j b hget

section Transactions

variable {s s' : Store} {id : BlockId}

theorem bumpBlockRc_sized (hs : Sized c B s.blocks) {r : Option Block} (h : bumpBlockRc id s = .ok (r, s')) :
    Sized c B s'.blocks := by
  unfold bumpBlockRc at h
  split at h
  · cases h; exact hs
  · cases h
  · rename_i block hget
    split at h
    · cases h; exact hs
    · cases h; exact hs.insert (hs id block hget)

theorem insertNewBlock_sized (hs : Sized c B s.blocks) {len depth : ℕ} {r : Block}
    (hlen : ∃ chunk ∈ B, c.hash chunk = id ∧ len = chunk.length) (h : insertNewBlock id len depth s = .ok (r, s')) :
    Sized c B s'.blocks := by
  unfold insertNewBlock at h
  split at h
  · cases h; exact hs.insert hlen
  · cases h
  · cases h; exact hs.insert hlen

theorem decrementBlockRc_sized (hs : Sized c B s.blocks) {r : BlockDecrement}
    (h : decrementBlockRc id s = .ok (r, s')) : Sized c B s'.blocks := by
  unfold decrementBlockRc at h
  split at h
  · cases h; exact hs
  · cases h
  · rename_i block hget
    split at h
    · cases h; exact hs.erase id
    · cases h; exact hs.insert (hs id block hget)

/-- What the transactions of a close do to block records. -/
theorem sized_books : Books (fun s s' => Sized c B s.blocks → Sized c B s'.blocks) (BatchEntry.Sound c B) where
  refl _ := id
  trans h h' hs := h' (h hs)
  bump h hs := bumpBlockRc_sized hs h
  insert he h hs := insertNewBlock_sized hs ⟨_, he.1, he.2.1, he.2.2⟩ h

end Transactions

end Invariant

/-! ## Steps -/

section Steps

variable {J : Store → Prop}
variable {α : Type} {Q : α → Prop}
variable {body : Store → Except Err (α × Store)} {p : StoreProg α}

/-- Everything is a step of the trivial relation. -/
abbrev Retains {α : Type} (J : Store → Prop) (p : StoreProg α) (Q : α → Prop) : Prop := Confined J (fun _ _ => True) p Q

theorem transact_retains (hbody : ∀ s a s', J s → body s = .ok (a, s') → J s' ∧ Q a) :
    Retains J (transact body) fun r => ∀ a, r = .ok a → Q a :=
  transact_confined (fun _ => trivial) fun s a s' hs h => ⟨(hbody s a s' hs h).1, trivial, (hbody s a s' hs h).2⟩

theorem transact_retains' (hbody : ∀ s a s', J s → body s = .ok (a, s') → J s') : Retains J (transact body) fun _ => True :=
  transact_confined' (fun _ => trivial) fun s a s' hs h => ⟨hbody s a s' hs h, trivial⟩

theorem readStore_retains {body : Store → Except Err α} (hbody : ∀ s a, J s → body s = .ok a → Q a) :
    Retains J (readStore body) fun r => ∀ a, r = .ok a → Q a := readStore_confined (fun _ => trivial) hbody

/-- A step that changes nothing the invariant speaks of. -/
theorem Retains.of_steps {G : Store → Store → Prop} (h : Steps G p Q) (hG : ∀ s s', J s → G s s' → J s') : Retains J p Q :=
  (Confined.of_steps hG h).mono (fun _ _ _ _ _ => trivial) fun _ h => h

theorem Retains.of_looks (h : Looks p) : Retains J p fun _ => True :=
  Confined.of_looks (fun _ => trivial) h

theorem inherits_retains : Inherits fun α (p : StoreProg α) => Retains J p fun _ => True := ⟨Retains.of_looks, seq⟩

end Steps

/-! ## The write path -/

section WritePath

variable {c : Config} {B : Set Bytes}
variable {J : Store → Prop}

/-- A read whose answer is not looked at here. -/
theorem readStore_retains' {α : Type} {body : Store → Except Err α} :
    Retains J (readStore body) fun _ => True := (readStore_retains fun _ _ _ _ => trivial).true (Q := fun _ => _)

theorem unlinkBlock_retains (id : BlockId) (depth : ℕ) : Retains (Filed c B) (unlinkBlock id depth) fun _ => True := by
  refine confined_step fun e s r s' hs hf => ⟨?_, trivial, trivial⟩
  split at hf <;> cases hf
  · refine ⟨fun i d bytes hget => ?_, hs.blocks, hs.objects, hs.parts, hs.queue⟩
    dsimp only at hget
    rw [get_erase] at hget
    split at hget
    · cases hget
    · exact hs.files i d bytes hget
  · exact hs

/-- The primitives of storing a body whose chunks are in `B`. -/
theorem filed_stores : Stores (Filed c B) (fun _ _ => True) fun id bytes len =>
    bytes ∈ B ∧ c.hash bytes = id ∧ len = bytes.length where
  refl _ := trivial
  write depth hF := by
    obtain ⟨hB, rfl, -⟩ := hF
    refine confined_step fun e s r s' hs hf => ⟨?_, trivial, trivial⟩
    split at hf <;> cases hf
    · exact hs.withFile hB _ _
    · exact hs
    · exact hs.withFile hB _ _
  land depth hF := by
    obtain ⟨hB, rfl, -⟩ := hF
    refine confined_step fun e s r s' hs hf => ⟨?_, trivial, trivial⟩
    split at hf <;> cases hf
    · exact hs.withFile hB _ _
    · exact hs
  survey id := by
    refine confined_step fun e s r s' hs hf => ⟨?_, trivial, trivial⟩
    split at hf <;> cases hf <;> exact ⟨hs.files, hs.blocks, hs.objects, hs.parts, hs.queue⟩
  record hes := transact_retains' fun s o s' hs ho => by
    obtain ⟨blocks, overran, rfl⟩ := books_recordEntries onlyBlocks_books (fun _ _ => trivial) ho
    exact hs.withBlocks (books_recordEntries sized_books hes ho hs.blocks)
  group hes := transact_retains' fun s o s' hs ho => by
    obtain ⟨blocks, overran, rfl⟩ := books_recordGroup onlyBlocks_books (fun _ _ _ _ => trivial) ho
    exact hs.withBlocks (books_recordGroup sized_books hes ho hs.blocks)
  submit hes := by
    refine confined_step fun e s a s' hs hf => ⟨?_, trivial, trivial⟩
    cases hf
    refine ⟨hs.files, hs.blocks, hs.objects, hs.parts, fun batch hb => ?_⟩
    rcases List.mem_append.1 hb with hb | hb
    · exact hs.queue batch hb
    · obtain rfl := List.mem_singleton.1 hb
      exact hes
  await ticket := by
    refine confined_step fun e s a s' hs hf => ⟨?_, trivial, trivial⟩
    obtain ⟨r, -, heq⟩ := Option.map_eq_some_iff.1 hf
    cases heq
    exact ⟨hs.files, hs.blocks, hs.objects, hs.parts, hs.queue⟩
  take more := by
    refine confined_step fun e s group s' hs hf => ?_
    split at hf
    · cases hf
    · cases hf
      refine ⟨⟨hs.files, hs.blocks, hs.objects, hs.parts, fun batch hb => ?_⟩, trivial, fun batch hb => ?_⟩
      · exact hs.queue batch (List.mem_of_mem_drop hb)
      · exact hs.queue batch (List.mem_of_mem_take hb)
  send member outcome := by
    refine confined_step fun e s a s' hs hf => ⟨?_, trivial, trivial⟩
    cases hf
    exact ⟨hs.files, hs.blocks, hs.objects, hs.parts, hs.queue⟩

/-- The chunks a stream is cut into are in `B`. -/
def Feeds (B : Set Bytes) (body : List (Option Bytes)) : Prop := ∀ bytes, some bytes ∈ buffered body [] → bytes ∈ B

/-- **The blocks of a stored body spell it.** -/
theorem storeObject_retains {body : List (Option Bytes)} (hB : Feeds B body) :
    Retains (Filed c B) (storeObject c body) fun r => ∀ v, r = .ok v → ∃ value, Spells c B v.1 value ∧
      v.2.2 = value.length := by
  refine (stores_storeObject filed_stores c fun bytes hb => ⟨hB bytes hb, rfl, rfl⟩).imp fun r hr v hv => ?_
  obtain ⟨chunks, hchunks, rfl⟩ := hr v hv
  refine ⟨chunks.flatten, ⟨chunks, fun chunk hc => hB chunk ?_, rfl, rfl⟩, rfl⟩
  rw [hchunks]
  exact List.mem_map_of_mem hc

end WritePath

/-! ## Objects -/

section Objects

variable {c : Config} {B : Set Bytes}

theorem releaseBlocks_retains (owner : Owner) (ids : List BlockId) :
    Retains (Filed c B) (releaseBlocks c owner ids) fun _ => True := by
  refine releaseBlocks_confined c (fun id => transact_retains' fun s r s' hs h => ?_) unlinkBlock_retains ids
  unfold decrementTx at h
  split at h
  · cases h
  · rename_i hd
    cases h
    obtain ⟨blocks, rfl⟩ := decrementBlockRc_only hd
    exact hs.withBlocks (decrementBlockRc_sized hs.blocks hd)
  · rename_i hd
    cases h
    obtain ⟨blocks, rfl⟩ := decrementBlockRc_only hd
    exact hs.withBlocks (decrementBlockRc_sized hs.blocks hd)

theorem createObjectMeta_retains (bucket key : Bytes) {size : ℕ} (hash : Bytes) {data : ObjectData} {v : Bytes}
    (noting : List Event) (hv : ∀ now, Object.Carries c B ⟨size, now, hash, data⟩ v) :
    Retains (Filed c B) (createObjectMeta c bucket key size hash data noting) fun _ => True := by
  refine createObjectMeta_confined (fun _ => trivial) c (fun now => ?_) (releaseBlocks_retains .object)
  refine Retains.of_steps (replaceObjectRecord_steps (G := fun s s' => Filed c B s → Filed c B s') (fun _ h => h) ?_)
    fun _ _ hs h => h hs
  intro s s' htx hs
  exact hs.recordTx (fun o ho => by cases ho; exact ⟨v, hv now⟩) htx

theorem storeInlinedObject_retains (bucket key data : Bytes) :
    Retains (Filed c B) (storeInlinedObject c bucket key data) fun _ => True :=
  createObjectMeta_retains bucket key _ [] fun _ => ⟨rfl, rfl⟩

theorem storeSingleObjectAndMeta_retains (bucket key : Bytes) {body : List (Option Bytes)} (hB : Feeds B body) (len : ℕ) :
    Retains (Filed c B) (storeSingleObjectAndMeta c bucket key body len) fun _ => True := by
  have hstore : Retains (Filed c B) (if 0 < len then storeObject c body else .ret (.ok ([], c.md5 [], 0))) fun r =>
      ∀ v, r = .ok v → ∃ value, Spells c B v.1 value ∧ v.2.2 = value.length := by
    split
    · exact storeObject_retains hB
    · intro v hv
      cases hv
      exact ⟨[], Spells.nil, rfl⟩
  refine thenOk (fun _ => trivial) hstore fun stored hstored => ?_
  obtain ⟨value, hspells, hlen⟩ := hstored
  refine seq (createObjectMeta_retains bucket key _ [] fun now => ⟨hlen, hspells⟩) fun r => ?_
  cases r <;> exact trivial

theorem deleteObject_retains (bucket key : Bytes) : Retains (Filed c B) (deleteObject c bucket key) fun _ => True := by
  refine thenTrue (Retains.of_steps (deleteObjectTx_steps (G := fun s s' => Filed c B s → Filed c B s')
    (fun _ h => h) ?_) fun _ _ hs h => h hs) fun o => ?_
  · intro s s' htx hs
    exact hs.recordTx (fun _ ho => by cases ho) htx
  · cases o with
    | none => exact trivial
    | some o => exact seq (releaseBlocks_retains .object _) fun _ => trivial

theorem acquireReferences_retains (ids taken : List BlockId) :
    Retains (Filed c B) (acquireReferences c ids taken) fun _ => True := by
  refine acquireReferences_confined (fun _ => trivial) c (fun id => transact_retains' fun s r s' hs h => ?_)
    (releaseBlocks_retains .undo) ids taken
  split at h
  · cases h
  · rename_i hb
    cases h
    obtain ⟨blocks, overran, rfl⟩ := bumpBlockRc_only hb
    exact hs.withBlocks (bumpBlockRc_sized hs.blocks hb)
  · rename_i hb
    cases h
    obtain ⟨blocks, overran, rfl⟩ := bumpBlockRc_only hb
    exact hs.withBlocks (bumpBlockRc_sized hs.blocks hb)

/-- A record that is read holds a value. -/
theorem getMeta_carries {bucket key : Bytes} {s : Store} {source : Option Object} (hs : Filed c B s)
    (h : getMeta bucket key s = .ok source) : ∀ o, source = some o → ∃ v, o.Carries c B v := by
  rintro o rfl
  unfold getMeta at h
  split at h
  · cases h
  · cases h
  · rename_i o' hget
    cases h
    exact hs.objects bucket key _ hget

/-- A copy holds what its source held. -/
theorem cloneObjectByReference_retains (sourceBucket sourceKey destBucket destKey : Bytes) :
    Retains (Filed c B) (cloneObjectByReference c sourceBucket sourceKey destBucket destKey) fun _ => True :=
  cloneObjectByReference_confined (fun _ => trivial) c (fun _ _ hs h => getMeta_carries hs h)
    (fun blocks => acquireReferences_retains blocks []) fun _ ho =>
      createObjectMeta_retains destBucket destKey _ [] fun _ => ho.choose_spec

end Objects

/-! ## Uploads -/

section Uploads

variable {c : Config} {B : Set Bytes}

theorem tryStore_retains {α : Type} {J : Store → Prop} {p : StoreProg (Except Err α)} {Q : α → Prop}
    (h : Retains J p fun r => ∀ a, r = .ok a → Q a) : Retains J (tryStore p) fun r => ∀ a, r = .ok a → Q a := by
  refine confined_bind (h.imp fun r hr => ?_)
  cases r with
  | ok a => exact fun a' ha => by cases ha; exact hr a rfl
  | error e => exact nofun

theorem tryStore_retains' {α : Type} {J : Store → Prop} {p : StoreProg (Except Err α)} (h : Retains J p fun _ => True) :
    Retains J (tryStore p) fun _ => True :=
  seq h fun r => by cases r <;> exact trivial

/-- Fewer parts, or other upload records. -/
theorem Filed.withParts {s : Store} (h : Filed c B s) {parts : OrdMap Bytes (Cell MultiPart)}
    (hparts : ∀ key p, parts.get key = some (.record p) → ∃ v, p.Carries c B v)
    (uploads : OrdMap Bytes (Cell UploadRecord)) (log : List Event) :
    Filed c B { s with parts := parts, uploads := uploads, log := log } :=
  ⟨h.files, h.blocks, h.objects, hparts, h.queue⟩

theorem createUpload_retains (bucket key uploadId : Bytes) :
    Retains (Filed c B) (createUpload bucket key uploadId) fun _ => True := by
  refine seq (Retains.of_looks readClock_looks) fun now => transact_retains' fun s r s' hs h => ?_
  cases h
  exact hs.withParts hs.parts _ _

theorem insertMultipartPart_retains {part : MultiPart} {v : Bytes} (hv : part.Carries c B v) :
    Retains (Filed c B) (insertMultipartPart part) fun _ => True := by
  refine transact_retains' fun s r s' hs h => ?_
  cases h
  refine hs.withParts (fun key p hget => ?_) _ _
  rw [get_insert] at hget
  split at hget
  · cases hget; exact ⟨v, hv⟩
  · exact hs.parts key p hget

theorem uploadPart_retains (bucket key uploadId : Bytes) (partNumber : ℤ) {body : Option (List (Option Bytes))}
    (contentLength : Option ℤ) (contentMd5 : Option (Option Bytes)) (hB : ∀ pieces, body = some pieces → Feeds B pieces) :
    Retains (Filed c B) (uploadPart c bucket key uploadId partNumber body contentLength contentMd5) fun _ => True := by
  refine thenTrue (tryStore_retains' readStore_retains') fun u => ?_
  cases u with
  | none => exact trivial
  | some u =>
    dsimp only
    split
    · exact trivial
    · exact trivial
    · exact trivial
    · rename_i pieces len hexpected
      have hstore : Retains (Filed c B) (storeObject c pieces) fun r => ∀ v, r = .ok v → ∃ value, Spells c B v.1 value ∧
          v.2.2 = value.length := storeObject_retains (hB pieces rfl)
      refine thenOk (fun _ => trivial) (tryStore_retains hstore) fun stored hstored => ?_
      obtain ⟨value, hspells, hlen⟩ := hstored
      split
      · exact trivial
      · split
        · exact trivial
        · exact tryStore_retains' (insertMultipartPart_retains ⟨hlen, hspells⟩)

theorem takeUpload_filed {s s' : Store} (hs : Filed c B s) {k : Bytes} {u : Option UploadRecord}
    (h : takeUpload k s = .ok (u, s')) : Filed c B s' := by
  obtain ⟨-, rfl⟩ | ⟨record, -, -, rfl⟩ := takeUpload_cases h
  · exact hs
  · exact hs.withParts hs.parts _ _

/-- A part goes. -/
theorem Filed.dropPart {s : Store} (h : Filed c B s) (k : Bytes) (log : List Event) :
    Filed c B { s with parts := s.parts.erase k, log := log } := by
  refine h.withParts (fun key p hp => ?_) _ _
  rw [get_erase] at hp
  split at hp
  · cases hp
  · exact h.parts key p hp

/-- The parts of a claim hold values. -/
theorem Taken.filed {bucket key uploadId : Bytes} {ns : List ℤ} {s s' : Store} {parts : List (PartInstance × MultiPart)}
    (h : Taken bucket key uploadId ns s parts s') : Filed c B s →
      Filed c B s' ∧ ∃ vs, List.Forall₂ (MultiPart.Carries c B) (parts.map Prod.snd) vs := by
  induction h with
  | nil s => exact fun hs => ⟨hs, [], .nil⟩
  | cons hget _ ih =>
    intro hs
    obtain ⟨v, hv⟩ := hs.parts _ _ hget
    obtain ⟨hs', vs, hvs⟩ := ih (hs.dropPart _ _)
    exact ⟨hs', v :: vs, .cons hv hvs⟩

theorem claimUploadWithParts_retains (bucket key uploadId : Bytes) (ns : List ℤ) :
    Retains (Filed c B) (claimUploadWithParts bucket key uploadId ns) fun r => ∀ claim, r = .ok claim →
      ∀ u parts, claim = .claimed u parts → ∃ vs, List.Forall₂ (MultiPart.Carries c B) (parts.map Prod.snd) vs := by
  refine transact_retains fun s claim s' hs h => ?_
  obtain ⟨hno, rfl⟩ | ⟨u, parts, s1, -, htaken, rfl, rfl⟩ := claimTx_cases h
  · exact ⟨hs, fun u parts heq => absurd heq (hno u parts)⟩
  · obtain ⟨hs1, hvs⟩ := htaken.filed (hs.withParts hs.parts _ _)
    refine ⟨hs1.withParts hs1.parts _ _, fun u' parts' heq => ?_⟩
    cases heq
    exact hvs

theorem completeMultipartUpload_retains (bucket key uploadId : Bytes) (upload : Option (List (Option ℤ))) :
    Retains (Filed c B) (completeMultipartUpload c bucket key uploadId upload) fun _ => True := by
  unfold completeMultipartUpload
  split
  · exact trivial
  · exact trivial
  refine thenTrue (tryStore_retains' readStore_retains') fun u => ?_
  cases u with
  | none => exact trivial
  | some u =>
    refine thenTrue (Retains.of_looks (validateParts_looks bucket key uploadId _ _)) fun numbers =>
      thenOk (fun _ => trivial) (tryStore_retains (claimUploadWithParts_retains bucket key uploadId numbers)) fun claim hclaim => ?_
    cases claim with
    | noUpload | missingPart n => exact trivial
    | claimed u' claimed =>
      obtain ⟨vs, hvs⟩ := hclaim u' claimed rfl
      obtain ⟨hspells, hsize⟩ := spells_flatMap hvs
      exact tryStore_retains' (createObjectMeta_retains bucket key _ _ fun now => ⟨hsize, hspells⟩)

theorem reapPart_retains (k : Bytes) : Retains (Filed c B) (reapPart c k) fun _ => True := by
  have htx : Retains (Filed c B) (transact (reapTx k)) fun _ => True := by
    refine transact_retains' fun s r s' hs h => ?_
    obtain ⟨-, rfl⟩ | ⟨part, -, -, rfl⟩ := reapTx_cases h
    · exact hs
    · exact hs.dropPart _ _
  refine thenTrue htx fun r => ?_
  cases r with
  | none => exact trivial
  | some x => exact seq (releaseBlocks_retains _ _) fun _ => trivial

theorem claimUpload_retains (bucket key uploadId : Bytes) :
    Retains (Filed c B) (claimUpload bucket key uploadId) fun _ => True :=
  (transact_retains (Q := fun _ => True) fun _ _ _ hs h => ⟨takeUpload_filed hs h, trivial⟩).true

theorem sweepStaleUploads_retains (fuel ttl : ℕ) : Retains (Filed c B) (sweepStaleUploads c fuel ttl) fun _ => True :=
  inherits_sweepStaleUploads inherits_retains c claimUpload_retains reapPart_retains fuel ttl

theorem abortMultipartUpload_retains (fuel : ℕ) (bucket key uploadId : Bytes) :
    Retains (Filed c B) (abortMultipartUpload c fuel bucket key uploadId) fun _ => True :=
  inherits_abortMultipartUpload inherits_retains c claimUpload_retains reapPart_retains fuel bucket key uploadId

end Uploads

/-- The chunks of an upload are in `B`. -/
def StoreOp.Feeds (B : Set Bytes) : StoreOp → Prop
  | put _ _ body _ => QssStorage.Feeds B body
  | uploadPart _ _ _ _ body _ _ => ∀ pieces, body = some pieces → QssStorage.Feeds B pieces
  | _ => True

/-- **Every operation whose chunks are in `B` keeps what is filed.** -/
theorem StoreOp.filed (c : Config) {B : Set Bytes} (o : StoreOp) (h : o.Feeds B) :
    Retains (Filed c B) (o.prog c) fun _ => True := by
  cases o with
  | put bucket key body len => exact seq (storeSingleObjectAndMeta_retains bucket key h len) fun _ => trivial
  | putInline bucket key data => exact seq (storeInlinedObject_retains bucket key data) fun _ => trivial
  | delete bucket key => exact seq (deleteObject_retains bucket key) fun _ => trivial
  | clone sb sk db dk => exact seq (cloneObjectByReference_retains sb sk db dk) fun _ => trivial
  | createUpload bucket key uploadId => exact seq (createUpload_retains bucket key uploadId) fun _ => trivial
  | uploadPart bucket key uploadId n body len md5 =>
    exact seq (uploadPart_retains bucket key uploadId n len md5 h) fun _ => trivial
  | complete bucket key uploadId upload =>
    exact seq (completeMultipartUpload_retains bucket key uploadId upload) fun _ => trivial
  | abort fuel bucket key uploadId =>
    exact seq (abortMultipartUpload_retains fuel bucket key uploadId) fun _ => trivial
  | sweep fuel ttl => exact seq (sweepStaleUploads_retains fuel ttl) fun _ => trivial
  | round more => exact stores_commitGroup filed_stores c more

end QssStorage
