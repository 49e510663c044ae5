import QssStorage.Conc.Rely
import QssStorage.Proof.UploadWalks

/-!
# Walks over the write path

Storing a body, closing batches and groups, taking references and giving them back: what the
steps of these keep they keep because their primitives do, so each is gone through once here.

* `stores_storeObject`: **the blocks a stored body returns are those of its chunks.**
-/

namespace QssStorage

open Conc Prog List

/-- The bytes a batch entry stands for. -/
def Payload.bytes : Payload → Bytes
  | .staged _ bytes => bytes
  | .deduped bytes => bytes

/-! ## Transactions -/

/-- A relation that the records of a batch go through; `E` is what is known of its entries. -/
structure Books (R : Store → Store → Prop) (E : BatchEntry → Prop) : Prop where
  refl : ∀ s, R s s
  trans : ∀ {s s1 s2}, R s s1 → R s1 s2 → R s s2
  bump : ∀ {id s r s'}, bumpBlockRc id s = .ok (r, s') → R s s'
  insert : ∀ {e depth s r s'}, E e → insertNewBlock e.id e.len depth s = .ok (r, s') → R s s'

section Books

variable {R : Store → Store → Prop} {E : BatchEntry → Prop} (h : Books R E) {s' : Store}
include h

theorem books_bumpRemaining {id : BlockId} : ∀ {n : ℕ} {s : Store}, bumpRemaining id n s = .ok s' → R s s' := by
  intro n
  induction n with
  | zero => intro s hok; cases hok; exact h.refl _
  | succ n ih =>
    intro s hok
    unfold bumpRemaining at hok
    split at hok
    · cases hok
    · rename_i hb; exact h.trans (h.bump hb) (ih hok)

theorem books_recordEntry {e : BatchEntry} (he : E e) {s : Store} {inserted : Bool}
    (hok : recordEntry e s = .ok (inserted, s')) : R s s' := by
  -- the first reference of an entry, then the others
  have hmore : ∀ {n : ℕ} {b : Bool} {s1 : Store}, R s s1 →
      (bumpRemaining e.id n s1).map (fun s => (b, s)) = .ok (inserted, s') → R s s' := by
    intro n b s1 h1 hok
    cases hb : bumpRemaining e.id n s1 with
    | error err => rw [hb] at hok; cases hok
    | ok s2 => rw [hb] at hok; cases hok; exact h.trans h1 (books_bumpRemaining h hb)
  unfold recordEntry at hok
  split at hok
  · cases hok
  · rename_i hb; exact hmore (h.bump hb) hok
  rename_i hb
  split at hok
  · cases hok
  · split at hok
    · cases hok
    · rename_i hi; exact hmore (h.trans (h.bump hb) (h.insert he hi)) hok

theorem books_recordEntries : ∀ {es : List BatchEntry} {o o' : FlushOutcome} {s : Store}, (∀ e ∈ es, E e) →
    recordEntries es o s = .ok (o', s') → R s s' := by
  intro es
  induction es with
  | nil => intro o o' s _ hok; cases hok; exact h.refl _
  | cons e es ih =>
    intro o o' s hes hok
    have hrest : ∀ e ∈ es, E e := fun x hx => hes x (mem_cons_of_mem _ hx)
    unfold recordEntries at hok
    split at hok
    · cases hok
    · rename_i hr; exact h.trans (books_recordEntry h (hes e mem_cons_self) hr) (ih hrest hok)
    · rename_i hr; exact h.trans (books_recordEntry h (hes e mem_cons_self) hr) (ih hrest hok)

theorem books_recordGroup : ∀ {members : List (List BatchEntry × Option Err)} {os : List FlushOutcome} {s : Store},
    (∀ m ∈ members, ∀ e ∈ m.1, E e) → recordGroup members s = .ok (os, s') → R s s' := by
  intro members
  induction members with
  | nil => intro os s _ hok; cases hok; exact h.refl _
  | cons member members ih =>
    intro os s hes hok
    obtain ⟨es, refused⟩ := member
    -- what the rest of the group does
    have hrest : ∀ {s1 : Store} {o : FlushOutcome}, R s s1 →
        (recordGroup members s1).map (fun r => (o :: r.1, r.2)) = .ok (os, s') → R s s' := by
      intro s1 o h1 hok
      cases hr : recordGroup members s1 with
      | error e => rw [hr] at hok; cases hok
      | ok r => rw [hr] at hok; cases hok; exact h.trans h1 (ih (fun m hm => hes m (mem_cons_of_mem _ hm)) hr)
    unfold recordGroup at hok
    split at hok
    · rename_i heq; cases heq
    · rename_i heq; cases heq; exact hrest (h.refl _) hok
    rename_i heq
    cases heq
    split at hok
    · cases hok
    · rename_i hr; exact hrest (books_recordEntries h (hes _ mem_cons_self) hr) hok

end Books

/-! ## Primitives -/

theorem attempt_looks : Looks attempt := by
  intro e s r s' h
  dsimp only at h
  split at h <;> cases h <;> exact ⟨rfl, trivial⟩

theorem chooseDepth_looks (id : BlockId) : Looks (chooseDepth id) := by
  intro e s r s' h
  cases h
  exact ⟨rfl, trivial⟩

section Primitives

variable {J : Store → Prop} {G : Store → Store → Prop} (hrefl : ∀ s, G s s) {α : Type} {Q : α → Prop}
variable {body : Store → Except Err (α × Store)}

include hrefl

/-- The states a transaction can leave. -/
theorem transact_confined (hbody : ∀ s a s', J s → body s = .ok (a, s') → J s' ∧ G s s' ∧ Q a) :
    Confined J G (transact body) fun r => ∀ a, r = .ok a → Q a := by
  refine confined_step fun e s r s' hs hf => ?_
  split at hf
  · cases hf; exact ⟨hs, hrefl _, nofun⟩
  · rename_i a s1 hb _
    cases hf
    obtain ⟨hs', hG, hQ⟩ := hbody _ _ _ hs hb
    exact ⟨hs', hG, fun a ha => by cases ha; exact hQ⟩
  · cases hf; exact ⟨hs, hrefl _, nofun⟩
  · rename_i a s1 hb _
    cases hf
    obtain ⟨hs', hG, -⟩ := hbody _ _ _ hs hb
    exact ⟨hs', hG, nofun⟩

/-- A transaction, nothing being said of what it returns. -/
theorem transact_confined' (hbody : ∀ s a s', J s → body s = .ok (a, s') → J s' ∧ G s s') : Confined J G (transact body) fun _ => True :=
  (transact_confined (Q := fun _ => True) hrefl fun s a s' hs h => ⟨(hbody s a s' hs h).1, (hbody s a s' hs h).2, trivial⟩).true

theorem readStore_confined {body : Store → Except Err α} (hbody : ∀ s a, J s → body s = .ok a → Q a) :
    Confined J G (readStore body) fun r => ∀ a, r = .ok a → Q a := by
  refine confined_step fun e s r s' hs hf => ?_
  split at hf
  · cases hf; exact ⟨hs, hrefl _, fun a ha => hbody s a hs ha⟩
  · cases hf; exact ⟨hs, hrefl _, nofun⟩

end Primitives

/-! ## Closing -/

/-- The entry stands for a chunk whose address, bytes and length `F` allows. -/
def EntryOf (F : BlockId → Bytes → ℕ → Prop) (e : BatchEntry) : Prop := F e.id e.payload.bytes e.len

/-- What the primitives of a close keep. -/
structure Closes (J : Store → Prop) (G : Store → Store → Prop) (F : BlockId → Bytes → ℕ → Prop) : Prop where
  refl : ∀ s, G s s
  write : ∀ {id bytes len} depth, F id bytes len → Confined J G (writeBlock id depth bytes) fun _ => True
  land : ∀ {id bytes len} depth, F id bytes len → Confined J G (landBlock id depth bytes) fun _ => True
  survey : ∀ id, Confined J G (surveyBlock id) fun _ => True
  record : ∀ {es}, (∀ e ∈ es, EntryOf F e) → Confined J G (transact (recordEntries es ⟨0, 0⟩)) fun _ => True
  group : ∀ {members : List (List BatchEntry × Option Err)}, (∀ m ∈ members, ∀ e ∈ m.1, EntryOf F e) →
    Confined J G (transact (recordGroup members)) fun _ => True

/-- What the steps of the commit station keep beside them. -/
structure Stores (J : Store → Prop) (G : Store → Store → Prop) (F : BlockId → Bytes → ℕ → Prop) : Prop
    extends Closes J G F where
  submit : ∀ {es}, (∀ e ∈ es, EntryOf F e) → Confined J G (submit es) fun _ => True
  await : ∀ ticket, Confined J G (awaitReply ticket) fun _ => True
  take : ∀ more, Confined J G (takeGroup more) fun group => ∀ batch ∈ group, ∀ e ∈ batch.entries, EntryOf F e
  send : ∀ member outcome, Confined J G (sendReply member outcome) fun _ => True

theorem Closes.mono {J : Store → Prop} {G G' : Store → Store → Prop} {F : BlockId → Bytes → ℕ → Prop} (h : Closes J G F)
    (hG : ∀ s s', G s s' → G' s s') : Closes J G' F where
  refl s := hG s s (h.refl s)
  write depth hF := (h.write depth hF).mono (fun s s' _ _ => hG s s') fun _ h => h
  land depth hF := (h.land depth hF).mono (fun s s' _ _ => hG s s') fun _ h => h
  survey id := (h.survey id).mono (fun s s' _ _ => hG s s') fun _ h => h
  record hes := (h.record hes).mono (fun s s' _ _ => hG s s') fun _ h => h
  group hes := (h.group hes).mono (fun s s' _ _ => hG s s') fun _ h => h

section Closing

variable {J : Store → Prop} {G : Store → Store → Prop} {F : BlockId → Bytes → ℕ → Prop}

/-- Only what an entry stands for matters. -/
theorem EntryOf.congr {e e' : BatchEntry} (h : EntryOf F e) (hid : e'.id = e.id) (hlen : e'.len = e.len)
    (hbytes : e'.payload.bytes = e.payload.bytes) : EntryOf F e' := by
  unfold EntryOf
  rw [hid, hlen, hbytes]
  exact h

theorem addOccurrence_entries {batch batch' : List BatchEntry} {id : BlockId} (h : ∀ e ∈ batch, EntryOf F e)
    (heq : addOccurrence batch id = some batch') : ∀ e ∈ batch', EntryOf F e := by
  unfold addOccurrence at heq
  split at heq
  swap; · cases heq
  cases heq
  intro e he
  obtain ⟨e', he', rfl⟩ := mem_map.1 he
  split
  · exact (h e' he').congr rfl rfl rfl
  · exact h e' he'

theorem toLand_files : ∀ {rows : List (BatchEntry × Bool)}, (∀ row ∈ rows, EntryOf F row.1) →
    ∀ f ∈ toLand rows, ∃ len, F f.1 f.2.2 len := by
  intro rows
  induction rows with
  | nil => exact fun _ => nofun
  | cons row rows ih =>
    intro h f hf
    obtain ⟨e, live⟩ := row
    have he : EntryOf F e := h _ mem_cons_self
    have hrest := ih fun x hx => h x (mem_cons_of_mem _ hx)
    unfold toLand at hf
    split at hf
    · rename_i hpayload
      rcases mem_cons.1 hf with rfl | hf
      · unfold EntryOf at he
        rw [hpayload] at he
        exact ⟨e.len, he⟩
      · exact hrest f hf
    · exact hrest f hf

theorem toLandGroup_files (live : OrdMap BlockId Bool) : ∀ {es : List BatchEntry} (placed : OrdMap BlockId ℕ),
    (∀ e ∈ es, EntryOf F e) → ∀ f ∈ (toLandGroup live es placed).2, ∃ len, F f.1 f.2.2 len := by
  intro es
  induction es with
  | nil => exact fun placed _ => nofun
  | cons e es ih =>
    intro placed h f hf
    have he : EntryOf F e := h _ mem_cons_self
    have hes : ∀ x ∈ es, EntryOf F x := fun x hx => h x (mem_cons_of_mem _ hx)
    unfold toLandGroup at hf
    split at hf
    · rename_i hpayload hlive hplaced
      rcases mem_cons.1 hf with rfl | hf
      · unfold EntryOf at he
        rw [hpayload] at he
        exact ⟨e.len, he⟩
      · exact ih _ hes f hf
    · exact ih _ hes f hf

theorem settleDepths_entries (live : OrdMap BlockId Bool) (placed : OrdMap BlockId ℕ) : ∀ {es : List BatchEntry},
    (∀ e ∈ es, EntryOf F e) → ∀ e ∈ (settleDepths live placed es).1, EntryOf F e := by
  intro es
  induction es with
  | nil => exact fun _ => nofun
  | cons e es ih =>
    intro h x hx
    have he : EntryOf F e := h _ mem_cons_self
    have hrest := ih fun x hx => h x (mem_cons_of_mem _ hx)
    unfold settleDepths at hx
    split at hx <;> rcases mem_cons.1 hx with rfl | hx
    · exact he.congr rfl rfl rfl
    · exact hrest x hx
    · exact he
    · exact hrest x hx
    · exact he
    · exact hrest x hx

variable (h : Closes J G F)
include h

theorem closes_landBatch : ∀ {files : List (BlockId × ℕ × Bytes)}, (∀ f ∈ files, ∃ len, F f.1 f.2.2 len) →
    Confined J G (landBatch files) fun _ => True := by
  intro files
  induction files with
  | nil => exact fun _ => .of_looks h.refl attempt_looks
  | cons f files ih =>
    intro hfiles
    obtain ⟨len, hF⟩ := hfiles f mem_cons_self
    exact .thenTrue (h.land _ hF) fun _ => ih fun f hf => hfiles f (mem_cons_of_mem _ hf)

theorem closes_readLive : ∀ {es : List BatchEntry}, (∀ e ∈ es, EntryOf F e) →
    Confined J G (readLive es) fun r => ∀ rows, r = .ok rows → ∀ row ∈ rows, EntryOf F row.1 := by
  intro es
  induction es with
  | nil => intro _ rows hrows; cases hrows; exact nofun
  | cons e es ih =>
    intro hes
    refine .thenOk nofun (readStore_confined (Q := fun _ => True) h.refl fun _ _ _ _ => trivial) fun live _ =>
      .thenOk nofun (ih fun x hx => hes x (mem_cons_of_mem _ hx)) fun rest hrest rows hrows => ?_
    cases hrows
    exact forall_mem_cons.2 ⟨hes e mem_cons_self, hrest⟩

theorem closes_overtake : ∀ {rows : List (BatchEntry × Bool)}, (∀ row ∈ rows, EntryOf F row.1) →
    Confined J G (overtake rows) fun r => ∀ rows', r = .ok rows' → ∀ row ∈ rows', EntryOf F row.1 := by
  intro rows
  induction rows with
  | nil => intro _ rows hrows; cases hrows; exact nofun
  | cons row rows ih =>
    intro hrows
    obtain ⟨e, live⟩ := row
    have he : EntryOf F e := hrows _ mem_cons_self
    -- the rest, behind an entry that still stands for its chunk
    have hcons : ∀ e' : BatchEntry, EntryOf F e' → Confined J G ((overtake rows).andThen fun rest =>
        .ret (.ok ((e', live) :: rest))) fun r => ∀ rows', r = .ok rows' → ∀ row ∈ rows', EntryOf F row.1 := by
      intro e' he'
      refine .thenOk nofun (ih fun x hx => hrows x (mem_cons_of_mem _ hx)) fun rest hrest rows' hrows' => ?_
      cases hrows'
      exact forall_mem_cons.2 ⟨he', hrest⟩
    unfold overtake
    split
    · rename_i bytes hpayload
      have hF : F _ _ _ := he
      rw [hpayload] at hF
      refine .seq (.of_looks h.refl (chooseDepth_looks _)) fun depth => ?_
      exact confined_andThen ((h.write depth hF).imp fun _ _ => ⟨fun _ _ => hcons _ (he.congr rfl rfl rfl), nofun⟩)
    · exact hcons e he

theorem closes_commitBatch {es : List BatchEntry} (hes : ∀ e ∈ es, EntryOf F e) :
    Confined J G (commitBatch es) fun _ => True :=
  .thenOk (fun _ => trivial) (closes_readLive h hes) fun _ hrows => .thenOk (fun _ => trivial) (closes_overtake h hrows) fun rows hrows =>
    .thenTrue (closes_landBatch h (toLand_files hrows)) fun _ => h.record fun e he => by
      obtain ⟨row, hrow, rfl⟩ := mem_map.1 he
      exact hrows row hrow

theorem closes_closeAlone (c : Config) {es : List BatchEntry} (hes : ∀ e ∈ es, EntryOf F e) :
    Confined J G (closeAlone c es) fun _ => True :=
  .seq (confined_lockAll _) fun _ => .seq (closes_commitBatch h hes) fun _ => .seq (confined_unlockAll _) fun _ => trivial

theorem closes_readLiveGroup : ∀ (ids : List BlockId) (live : OrdMap BlockId Bool),
    Confined J G (readLiveGroup ids live) fun _ => True := by
  intro ids
  induction ids with
  | nil => exact fun live => trivial
  | cons id ids ih =>
    intro live
    unfold readLiveGroup
    split
    · exact ih live
    · exact .seq (h.survey id) fun answer => ih _

theorem closes_overtakeGroup (live : OrdMap BlockId Bool) : ∀ {es : List BatchEntry} (placed : OrdMap BlockId ℕ),
    (∀ e ∈ es, EntryOf F e) → Confined J G (overtakeGroup live es placed) fun _ => True := by
  intro es
  induction es with
  | nil => exact fun placed _ => trivial
  | cons e es ih =>
    intro placed hes
    have hrest := fun placed => ih placed fun x hx => hes x (mem_cons_of_mem _ hx)
    unfold overtakeGroup
    split
    · rename_i bytes hlive hpayload hplaced
      have hF : F _ _ _ := hes _ mem_cons_self
      rw [hpayload] at hF
      refine .seq (.of_looks h.refl (chooseDepth_looks _)) fun depth => .seq (h.write depth hF) fun r => ?_
      split <;> exact hrest _
    · exact hrest placed

theorem closes_replayAlone : ∀ {members : List (List BatchEntry × Option Err)}, (∀ m ∈ members, ∀ e ∈ m.1, EntryOf F e) →
    Confined J G (replayAlone members) fun _ => True := by
  intro members
  induction members with
  | nil => exact fun _ => trivial
  | cons member members ih =>
    intro hes
    obtain ⟨es, refused⟩ := member
    have hrest := ih fun m hm => hes m (mem_cons_of_mem _ hm)
    cases refused with
    | some e => exact .seq hrest fun rest => trivial
    | none => exact .seq (h.record (hes _ mem_cons_self)) fun _ => .seq hrest fun rest => trivial

theorem closes_closeGroup {members : List (List BatchEntry)} (hes : ∀ es ∈ members, ∀ e ∈ es, EntryOf F e) :
    Confined J G (closeGroup members) fun _ => True := by
  have hflat : ∀ e ∈ members.flatten, EntryOf F e := by
    intro e he
    obtain ⟨es, hmem, he⟩ := mem_flatten.1 he
    exact hes es hmem e he
  refine .seq (closes_readLiveGroup h _ _) fun live => .seq (closes_overtakeGroup h _ _ hflat) fun placed =>
    .seq (closes_landBatch h (toLandGroup_files live placed hflat)) fun r => ?_
  cases r with
  | error e => exact trivial
  | ok _ =>
    have hsettled : ∀ m ∈ members.map (settleDepths live (toLandGroup live members.flatten placed).1), ∀ e ∈ m.1,
        EntryOf F e := by
      intro m hm
      obtain ⟨es, hmem, rfl⟩ := mem_map.1 hm
      exact settleDepths_entries live _ (hes es hmem)
    refine .seq (h.group hsettled) fun outcomes => ?_
    cases outcomes with
    | ok outcomes => exact trivial
    | error e => exact closes_replayAlone h hsettled

end Closing

/-! ## Storing -/

section Storing

variable {J : Store → Prop} {G : Store → Store → Prop} {F : BlockId → Bytes → ℕ → Prop} (h : Stores J G F) (c : Config)
include h

theorem stores_sendReplies : ∀ (members : List SealedBatch) (rs : List (Except Err FlushOutcome)),
    Confined J G (sendReplies members rs) fun _ => True := by
  intro members
  induction members with
  | nil => intro rs; exact trivial
  | cons member members ih =>
    intro rs
    cases rs with
    | nil => exact trivial
    | cons r rs => exact .seq (h.send member r) fun _ => ih rs

/-- A round of the committer. -/
theorem stores_commitGroup (more : ℕ) : Confined J G (commitGroup c more) fun _ => True := by
  refine confined_bind ((h.take more).imp fun group hgroup => ?_)
  have hmembers : ∀ es ∈ group.map SealedBatch.entries, ∀ e ∈ es, EntryOf F e := by
    intro es hes
    obtain ⟨batch, hb, rfl⟩ := mem_map.1 hes
    exact hgroup batch hb
  exact .seq (confined_lockAll _) fun _ => .seq (closes_closeGroup h.toCloses hmembers) fun outcomes =>
    .seq (confined_unlockAll _) fun _ => stores_sendReplies h _ _

theorem stores_flushBatch {batch : List BatchEntry} (hes : ∀ e ∈ batch, EntryOf F e) :
    Confined J G (flushBatch c batch) fun _ => True := by
  unfold flushBatch
  split
  · exact trivial
  · refine .thenTrue (.of_looks h.refl attempt_looks) fun _ => .thenTrue ?_ fun _ => trivial
    split
    · exact .seq (h.submit hes) h.await
    · exact closes_closeAlone h.toCloses c hes

theorem stores_accumulate {batch : List BatchEntry} (hes : ∀ e ∈ batch, EntryOf F e) {id : BlockId} {bytes : Bytes}
    (hF : F id bytes bytes.length) :
    Confined J G (accumulate batch id bytes) fun r => ∀ batch', r = .ok batch' → ∀ e ∈ batch', EntryOf F e := by
  have hresolve : Confined J G (resolveChunk id bytes) fun r => ∀ payload, r = .ok payload → payload.bytes = bytes := by
    refine .thenOk nofun (readStore_confined (Q := fun _ => True) h.refl fun _ _ _ _ => trivial) fun live _ => ?_
    split
    · intro payload hp; cases hp; rfl
    · refine .seq (.of_looks h.refl (chooseDepth_looks id)) fun depth => confined_andThen
        ((Confined.of_looks h.refl attempt_looks).imp fun _ _ => ⟨fun _ _ payload hp => ?_, nofun⟩)
      cases hp
      rfl
  unfold accumulate
  split
  · rename_i batch' hbatch
    intro b hb
    cases hb
    exact addOccurrence_entries hes hbatch
  refine .thenOk nofun hresolve fun payload hbytes b hb => ?_
  cases hb
  intro e he
  rcases mem_append.1 he with he | he
  · exact hes e he
  · obtain rfl := mem_singleton.1 he
    unfold EntryOf
    rw [hbytes]
    exact hF

/-- What storing chunks returns: their addresses, behind those so far. -/
theorem stores_storeChunks : ∀ {body : List (Option Bytes)} (batch : List BatchEntry) (blocks : List BlockId)
    (data : Bytes), (∀ bytes, some bytes ∈ body → F (c.hash bytes) bytes bytes.length) → (∀ e ∈ batch, EntryOf F e) →
    Confined J G (storeChunks c body batch blocks data) fun r => ∀ v, r = .ok v → ∃ chunks : List Bytes,
      body = chunks.map some ∧
        v = (blocks ++ chunks.map c.hash, c.md5 (data ++ chunks.flatten), (data ++ chunks.flatten).length) := by
  intro body
  induction body with
  | nil =>
    intro batch blocks data _ hes
    refine confined_andThen ((stores_flushBatch h c hes).imp fun _ _ => ⟨fun _ _ v hv => ?_, nofun⟩)
    cases hv
    exact ⟨[], rfl, by simp⟩
  | cons piece body ih =>
    intro batch blocks data hF hes
    cases piece with
    | none => exact nofun
    | some bytes =>
      -- the chunk and what follows it
      have hnext : ∀ batch, (∀ e ∈ batch, EntryOf F e) →
          Confined J G (storeChunks c body batch (blocks ++ [c.hash bytes]) (data ++ bytes)) fun r => ∀ v, r = .ok v →
            ∃ chunks : List Bytes, some bytes :: body = chunks.map some ∧
              v = (blocks ++ chunks.map c.hash, c.md5 (data ++ chunks.flatten), (data ++ chunks.flatten).length) := by
        intro batch hes
        refine (ih batch _ _ (fun bytes hb => hF bytes (mem_cons_of_mem _ hb)) hes).imp fun r hr v hv => ?_
        obtain ⟨chunks, rfl, rfl⟩ := hr v hv
        refine ⟨bytes :: chunks, rfl, ?_⟩
        simp only [map_cons, flatten_cons, append_assoc, cons_append, nil_append]
      refine .thenOk nofun (stores_accumulate h hes (hF bytes mem_cons_self)) fun batch' hbatch => ?_
      split
      · exact confined_andThen ((stores_flushBatch h c hbatch).imp fun _ _ => ⟨fun _ _ => hnext [] nofun, nofun⟩)
      · exact hnext batch' hbatch

/-- **The blocks of a stored body are those of its chunks.** -/
theorem stores_storeObject {body : List (Option Bytes)}
    (hF : ∀ bytes, some bytes ∈ buffered body [] → F (c.hash bytes) bytes bytes.length) :
    Confined J G (storeObject c body) fun r => ∀ v, r = .ok v → ∃ chunks : List Bytes,
      buffered body [] = chunks.map some ∧ v = (chunks.map c.hash, c.md5 chunks.flatten, chunks.flatten.length) :=
  stores_storeChunks h c [] [] [] hF nofun

end Storing

/-! ## References and records -/

section References

variable {J : Store → Prop} {G : Store → Store → Prop} (hrefl : ∀ s, G s s) (c : Config)

theorem releaseBlocks_confined {owner : Owner}
    (hdecrement : ∀ id, Confined J G (transact (decrementTx owner id)) fun _ => True)
    (hunlink : ∀ id depth, Confined J G (unlinkBlock id depth) fun _ => True) :
    ∀ ids : List BlockId, Confined J G (releaseBlocks c owner ids) fun _ => True := by
  intro ids
  induction ids with
  | nil => exact trivial
  | cons id ids ih =>
    refine .seq (p := Prog.lock _) trivial fun _ => .seq (p := decrementOneBlock owner id) ?_ fun _ =>
      .seq (p := Prog.unlock _) trivial fun _ => ih
    refine .thenTrue (hdecrement id) fun r => ?_
    cases r with
    | removed block => exact hunlink id block.depth
    | decremented block | missing => exact trivial

include hrefl

theorem acquireReferences_confined (hone : ∀ id, Confined J G (acquireOne id) fun _ => True)
    (hrelease : ∀ ids, Confined J G (releaseBlocks c .undo ids) fun _ => True) : ∀ ids taken : List BlockId,
    Confined J G (acquireReferences c ids taken) fun _ => True := by
  intro ids
  induction ids with
  | nil => intro taken; exact trivial
  | cons id ids ih =>
    intro taken
    refine .seq (p := Prog.lock _) trivial fun _ => .seq (.of_looks hrefl attempt_looks) fun r => ?_
    cases r with
    | error e => exact .seq (p := Prog.unlock _) trivial fun _ => .seq (hrelease taken) fun _ => trivial
    | ok _ =>
      refine .seq (hone id) fun bumped => .seq (p := Prog.unlock _) trivial fun _ => ?_
      split
      · exact trivial
      · exact .seq (hrelease taken) fun _ => trivial
      · exact ih _

/-- A record is written, and what it displaced is released. -/
theorem createObjectMeta_confined {bucket key hash : Bytes} {size : ℕ} {data : ObjectData} {noting : List Event}
    (hreplace : ∀ now, Confined J G (replaceObjectRecord bucket key ⟨size, now, hash, data⟩ noting) fun _ => True)
    (hrelease : ∀ ids, Confined J G (releaseBlocks c .object ids) fun _ => True) :
    Confined J G (createObjectMeta c bucket key size hash data noting) fun _ => True := by
  refine .seq (.of_looks hrefl readClock_looks) fun now => .thenTrue (hreplace now) fun old => ?_
  cases old with
  | none => exact trivial
  | some old => exact .seq (hrelease _) fun _ => trivial

/-- A copy is written like its source, of which `P` holds. -/
theorem cloneObjectByReference_confined {P : Object → Prop} {sourceBucket sourceKey bucket key : Bytes}
    (hread : ∀ s source, J s → getMeta sourceBucket sourceKey s = .ok source → ∀ o, source = some o → P o)
    (hacquire : ∀ blocks, Confined J G (acquireReferences c blocks []) fun _ => True)
    (hcreate : ∀ o, P o → Confined J G (createObjectMeta c bucket key o.size o.hash o.data []) fun _ => True) :
    Confined J G (cloneObjectByReference c sourceBucket sourceKey bucket key) fun _ => True := by
  refine .thenOk (fun _ => trivial) (readStore_confined hrefl hread) fun source hsource => ?_
  cases source with
  | none => exact trivial
  | some source =>
    have hcopy : Confined J G ((createObjectMeta c bucket key source.size source.hash source.data []).andThen
        fun o => .ret (.ok (some o))) fun _ => True := .thenTrue (hcreate source (hsource source rfl)) fun _ => trivial
    have hblocks : ∀ blocks, Confined J G ((acquireReferences c blocks []).andThen fun taken =>
        if taken then (createObjectMeta c bucket key source.size source.hash source.data []).andThen
          fun o => .ret (.ok (some o)) else .ret (.ok none)) fun _ => True := by
      intro blocks
      refine .thenTrue (hacquire blocks) fun taken => ?_
      split
      · exact hcopy
      · exact trivial
    dsimp only
    split
    · exact hcopy
    · exact hblocks _
    · exact hblocks _

end References

end QssStorage
