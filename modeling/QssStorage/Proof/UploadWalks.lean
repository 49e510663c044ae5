import QssStorage.Conc.Steps
import QssStorage.Spec.Reads
import QssStorage.Spec.S3

/-!
# Walks over uploads, parts and objects

The requests that abort, sweep, list or delete are walks: one look at a tree, then one call
for what it found, over and over. What such a walk inherits it inherits from the calls, so
each walk is gone through once here, for whatever is inherited.

* `inherits_handle`: **every request inherits from what it calls.**
-/

namespace QssStorage

open Conc Prog

theorem readStore_looks {α : Type} (body : Store → Except Err α) : Looks (readStore body) := by
  intro e s r s' h
  dsimp only at h
  split at h <;> cases h <;> exact ⟨rfl, trivial⟩

theorem readClock_looks : Looks readClock := by
  intro e s r s' h
  cases h
  exact ⟨rfl, trivial⟩

theorem bucketExists_looks (name : Bytes) : Looks (bucketExists name) := by
  intro e s r s' h
  cases h
  exact ⟨rfl, trivial⟩

/-- A walk that ran out of fuel. -/
theorem blocked_looks {α : Type} : Looks (Prog.step fun _ _ => none : StoreProg α) := by
  intro e s r s' h
  cases h

/-! ## Transactions -/

section Transactions

variable {s s' : Store} {k bucket key uploadId : Bytes} {ns : List ℤ}

theorem takeUpload_cases {u : Option UploadRecord} (h : takeUpload k s = .ok (u, s')) : (u = none ∧ s' = s) ∨
    ∃ record, u = some record ∧ s.uploads.get k = some (.record record) ∧
      s' = { s with uploads := s.uploads.erase k, log := s.log ++ [.uploadWon k] } := by
  unfold takeUpload at h
  split at h
  · cases h; exact .inl ⟨rfl, rfl⟩
  · cases h
  · rename_i record hget; cases h; exact .inr ⟨record, rfl, hget, rfl⟩

theorem takePart_record {part : MultiPart} (h : takePart k s = (some (.record part), s')) :
    s.parts.get k = some (.record part) ∧ s' = { s with parts := s.parts.erase k } := by
  unfold takePart at h
  split at h
  · cases h
  · rename_i raw hget; cases h; exact ⟨hget, rfl⟩

theorem reapTx_cases {r : Option (PartInstance × MultiPart)} (h : reapTx k s = .ok (r, s')) : (r = none ∧ s' = s) ∨
    ∃ part, s.parts.get k = some (.record part) ∧ r = some (s.partInstance k, part) ∧
      s' = { s with parts := s.parts.erase k, log := s.log ++ [.partReaped (s.partInstance k) part.blocks] } := by
  unfold reapTx at h
  split at h
  · cases h; exact .inl ⟨rfl, rfl⟩
  · cases h
  · rename_i part s1 htake
    cases h
    obtain ⟨hget, rfl⟩ := takePart_record htake
    exact .inr ⟨part, hget, rfl, rfl⟩

/-- The parts `ns` are all there, and are taken one after the other. -/
inductive Taken (bucket key uploadId : Bytes) : List ℤ → Store → List (PartInstance × MultiPart) → Store → Prop
  | nil (s : Store) : Taken bucket key uploadId [] s [] s
  | cons {n : ℤ} {ns : List ℤ} {s s' : Store} {part : MultiPart} {rest : List (PartInstance × MultiPart)}
      (hget : s.parts.get (partKey bucket key uploadId n) = some (.record part))
      (h : Taken bucket key uploadId ns { s with parts := s.parts.erase (partKey bucket key uploadId n) } rest s') :
      Taken bucket key uploadId (n :: ns) s ((s.partInstance (partKey bucket key uploadId n), part) :: rest) s'

theorem takeParts_taken : ∀ {ns : List ℤ} {s : Store} {parts : List (PartInstance × MultiPart)},
    takeParts bucket key uploadId ns s = .ok (.ok parts, s') → Taken bucket key uploadId ns s parts s' := by
  intro ns
  induction ns with
  | nil => intro s parts h; cases h; exact .nil _
  | cons n ns ih =>
    intro s parts h
    unfold takeParts at h
    dsimp only at h
    split at h
    · cases h
    · cases h
    rename_i part s1 htake
    obtain ⟨hget, rfl⟩ := takePart_record htake
    split at h
    · cases h
    · cases h
    · rename_i rest s2 hrest; cases h; exact .cons hget (ih hrest)

theorem Taken.takeParts {parts : List (PartInstance × MultiPart)} (h : Taken bucket key uploadId ns s parts s') :
    takeParts bucket key uploadId ns s = .ok (.ok parts, s') := by
  induction h with
  | nil s => rfl
  | cons hget _ ih => simp only [QssStorage.takeParts, takePart, hget, ih]

/-- A claim takes the upload and its parts, or leaves everything. -/
theorem claimTx_cases {claim : UploadClaim} (h : claimTx bucket key uploadId ns s = .ok (claim, s')) :
    ((∀ u parts, claim ≠ .claimed u parts) ∧ s' = s) ∨ ∃ u parts s1,
      s.uploads.get (uploadKey bucket key uploadId) = some (.record u) ∧
      Taken bucket key uploadId ns { s with
        uploads := s.uploads.erase (uploadKey bucket key uploadId)
        log := s.log ++ [.uploadWon (uploadKey bucket key uploadId)] } parts s1 ∧
      claim = .claimed u parts ∧ s' = { s1 with log := s1.log ++ [.partsClaimed (parts.map Prod.fst)] } := by
  unfold claimTx at h
  split at h
  · cases h
  · cases h; exact .inl ⟨nofun, rfl⟩
  rename_i hu
  obtain ⟨hnone, -⟩ | ⟨u, hsome, hget, rfl⟩ := takeUpload_cases hu
  · cases hnone
  cases hsome
  split at h
  · cases h
  · cases h; exact .inl ⟨nofun, rfl⟩
  · rename_i htake; cases h; exact .inr ⟨_, _, _, hget, takeParts_taken htake, rfl, rfl⟩

end Transactions

/-! ## Walks -/

section Requests

variable {Φ : (α : Type) → StoreProg α → Prop} (hΦ : Inherits Φ) {α : Type}

include hΦ

theorem inherits_tryStore {p : StoreProg (Except Err α)} (hp : Φ _ p) : Φ _ (tryStore p) :=
  hΦ.bind hp fun
    | .ok _ => hΦ.ret _
    | .error _ => hΦ.ret _

theorem inherits_whenBucket (bucket : Bytes) {p : StoreProg (Except S3Err α)} (hp : Φ _ p) : Φ _ (whenBucket bucket p) := by
  refine hΦ.bind (hΦ.looks (bucketExists_looks bucket)) fun found => ?_
  split
  · exact hp
  · exact hΦ.ret _

theorem inherits_orUnavailable {p : StoreProg (Except Err (Option α))} (f : α → S3Reply) (hp : Φ _ p) :
    Φ _ (orUnavailable p f) := by
  refine hΦ.bind hp fun r => ?_
  split <;> exact hΦ.ret _

end Requests

/-! ## Walks that only look -/

/-- The reads of the trees only look. -/
structure Reads.Looking (r : Reads) : Prop where
  nextPart : ∀ cursor, Looks (r.nextPart cursor)
  nextUpload : ∀ cursor, Looks (r.nextUpload cursor)
  getUpload : ∀ bucket key uploadId, Looks (r.getUpload bucket key uploadId)

theorem Reads.store_looking : Reads.store.Looking :=
  ⟨fun _ => readStore_looks _, fun _ => readStore_looks _, fun _ _ _ => readStore_looks _⟩

namespace Reads.Looking

variable {r : Reads} (h : r.Looking)

include h

theorem partsOf_looks (pre : Bytes) : ∀ (fuel : ℕ) (cursor : Option Bytes), Looks (r.partsOf pre fuel cursor) := by
  intro fuel
  induction fuel with
  | zero => exact fun _ => blocked_looks
  | succ fuel ih =>
    intro cursor
    refine (h.nextPart _).bind fun next => ?_
    split
    · exact ih cursor
    · exact trivial
    · split
      · refine (ih _).bind fun rest => ?_
        split <;> exact trivial
      · exact trivial

theorem listUploads_looks : ∀ (fuel : ℕ) (cursor : Option Bytes), Looks (r.listUploads fuel cursor) := by
  intro fuel
  induction fuel with
  | zero => exact fun _ => blocked_looks
  | succ fuel ih =>
    intro cursor
    refine inherits_looks.andThen (h.nextUpload _) fun next => ?_
    split
    · exact trivial
    · exact trivial
    · exact inherits_looks.andThen (ih _) fun _ => trivial

theorem orphanParts_looks : ∀ (fuel : ℕ) (cursor : Option Bytes) (stats : SweepStats),
    Looks (r.orphanParts fuel cursor stats) := by
  intro fuel
  induction fuel with
  | zero => exact fun _ _ => blocked_looks
  | succ fuel ih =>
    intro cursor stats
    refine (h.nextPart _).bind fun next => ?_
    split
    · exact ih _ _
    · exact trivial
    · exact ih _ _
    · refine (h.getUpload _ _ _).bind fun upload => ?_
      split
      · exact inherits_looks.bind (ih _ _) fun _ => inherits_looks.ret _
      · exact ih _ _
      · exact ih _ _

end Reads.Looking

theorem listUploads_looks (fuel : ℕ) (cursor : Option Bytes) : Looks (listUploads fuel cursor) :=
  Reads.store_looking.listUploads_looks fuel cursor

theorem uploadParts_looks (pre : Bytes) : ∀ (fuel : ℕ) (cursor : Option Bytes), Looks (uploadParts pre fuel cursor) := by
  intro fuel
  induction fuel with
  | zero => exact fun _ => blocked_looks
  | succ fuel ih =>
    intro cursor
    refine inherits_looks.andThen (readStore_looks _) fun next => ?_
    split
    · exact trivial
    split
    · split
      · exact trivial
      · exact inherits_looks.andThen (ih _) fun _ => trivial
    · exact trivial

theorem blockPaths_looks : ∀ ids : List BlockId, Looks (blockPaths ids) := by
  intro ids
  induction ids with
  | nil => exact trivial
  | cons id ids ih =>
    refine inherits_looks.andThen (readStore_looks _) fun found => ?_
    split
    · exact trivial
    · exact inherits_looks.andThen ih fun _ => inherits_looks.ret _

theorem validateParts_looks (bucket key uploadId : Bytes) : ∀ (numbers : List (Option ℤ)) (cnt : ℤ),
    Looks (validateParts bucket key uploadId cnt numbers) := by
  intro numbers
  induction numbers with
  | nil => exact fun _ => trivial
  | cons number numbers ih =>
    intro cnt
    cases number with
    | none => exact trivial
    | some n =>
      unfold validateParts
      split
      · exact trivial
      · refine (readStore_looks _).bind fun found => ?_
        split
        · exact inherits_looks.andThen (ih _) fun _ => trivial
        · exact trivial

/-! ## Walks that call -/

section Calls

variable {Φ : (α : Type) → StoreProg α → Prop} (hΦ : Inherits Φ) (c : Config)

include hΦ

section Reaping

variable {r : Reads} (hr : r.Looking)
variable (hclaim : ∀ bucket key uploadId, Φ _ (r.claimUpload bucket key uploadId)) (hreap : ∀ k, Φ _ (r.reapPart c k))

theorem Reads.inherits_reapAll (hreap : ∀ k, Φ _ (r.reapPart c k)) : ∀ ks : List Bytes, Φ _ (r.reapAll c ks) := by
  intro ks
  induction ks with
  | nil => exact hΦ.ret _
  | cons k ks ih =>
    refine hΦ.bind (hreap k) fun reaped => hΦ.bind ih fun rest => ?_
    split <;> exact hΦ.ret _

include hr hclaim hreap

theorem Reads.inherits_abortUpload (fuel : ℕ) (bucket key uploadId : Bytes) :
    Φ _ (r.abortUpload c fuel bucket key uploadId) :=
  hΦ.andThen (hclaim bucket key uploadId) fun
    | none => hΦ.ret _
    | some _ => hΦ.bind (hΦ.looks (hr.partsOf_looks _ fuel _)) fun _ => hΦ.bind (inherits_reapAll hΦ c hreap _) fun _ => hΦ.ret _

theorem Reads.inherits_abortAged (fuel : ℕ) (cutoff : ℤ) : ∀ (us : List UploadRecord) (stats : SweepStats),
    Φ _ (r.abortAged c fuel cutoff us stats) := by
  intro us
  induction us with
  | nil => exact fun _ => hΦ.ret _
  | cons u us ih =>
    intro stats
    unfold abortAged
    split
    · exact ih stats
    · refine hΦ.bind (inherits_abortUpload hΦ c hr hclaim hreap fuel _ _ _) fun reaped => ?_
      split <;> exact ih _

theorem Reads.inherits_sweepAgedUploads (fuel : ℕ) (cutoff : ℤ) (stats : SweepStats) :
    Φ _ (r.sweepAgedUploads c fuel cutoff stats) := by
  refine hΦ.bind (hΦ.looks (hr.listUploads_looks fuel none)) fun records => ?_
  split
  · exact hΦ.ret _
  · exact inherits_abortAged hΦ c hr hclaim hreap fuel _ _ _

theorem Reads.inherits_sweepStaleUploads (fuel ttl : ℕ) : Φ _ (r.sweepStaleUploads c fuel ttl) := by
  refine hΦ.bind (hΦ.looks readClock_looks) fun now =>
    hΦ.bind (inherits_sweepAgedUploads hΦ c hr hclaim hreap fuel _ _) fun stats => ?_
  refine hΦ.bind (hΦ.looks (hr.orphanParts_looks fuel none stats)) fun found => ?_
  exact hΦ.bind (inherits_reapAll hΦ c hreap _) fun _ => hΦ.ret _

end Reaping

section Sweeps

variable (hclaim : ∀ bucket key uploadId, Φ _ (claimUpload bucket key uploadId)) (hreap : ∀ k, Φ _ (reapPart c k))

include hclaim hreap

theorem inherits_abortMultipartUpload (fuel : ℕ) (bucket key uploadId : Bytes) :
    Φ _ (abortMultipartUpload c fuel bucket key uploadId) :=
  have habort := Reads.inherits_abortUpload hΦ c Reads.store_looking hclaim hreap fuel bucket key uploadId
  hΦ.andThen (inherits_tryStore hΦ habort) fun
    | none => hΦ.ret _
    | some _ => hΦ.ret _

theorem inherits_sweepStaleUploads (fuel ttl : ℕ) : Φ _ (sweepStaleUploads c fuel ttl) :=
  Reads.inherits_sweepStaleUploads hΦ c Reads.store_looking hclaim hreap fuel ttl

end Sweeps

theorem inherits_uploadPart (bucket key uploadId : Bytes) (partNumber : ℤ) {body : Option (List (Option Bytes))}
    (contentLength : Option ℤ) (contentMd5 : Option (Option Bytes))
    (hstore : ∀ pieces, body = some pieces → Φ _ (storeObject c pieces)) (hinsert : ∀ part, Φ _ (insertMultipartPart part)) :
    Φ _ (uploadPart c bucket key uploadId partNumber body contentLength contentMd5) := by
  refine hΦ.andThen (inherits_tryStore hΦ (hΦ.looks (readStore_looks _))) fun upload => ?_
  cases upload with
  | none => exact hΦ.ret _
  | some u =>
    dsimp only
    split
    · exact hΦ.ret _
    · exact hΦ.ret _
    · exact hΦ.ret _
    · refine hΦ.andThen (inherits_tryStore hΦ (hstore _ rfl)) fun stored => ?_
      split
      · exact hΦ.ret _
      · split
        · exact hΦ.ret _
        · exact inherits_tryStore hΦ (hinsert _)

section Objects

variable {bucket : Bytes} (hdelete : ∀ key, Φ _ (deleteObject c bucket key))

include hdelete

theorem inherits_deleteEach : ∀ (fuel : ℕ) (cursor : Option Bytes), Φ _ (deleteEach c bucket fuel cursor) := by
  intro fuel
  induction fuel with
  | zero => exact fun _ => hΦ.looks blocked_looks
  | succ fuel ih =>
    intro cursor
    refine hΦ.andThen (hΦ.looks (readStore_looks _)) fun entry => ?_
    cases entry with
    | none => exact hΦ.ret _
    | some entry => exact hΦ.andThen (hdelete _) fun _ => ih _

theorem inherits_deleteKeys : ∀ keys : List Bytes, Φ _ (deleteKeys c bucket keys) := by
  intro keys
  induction keys with
  | nil => exact hΦ.ret _
  | cons key keys ih =>
    refine hΦ.bind (hdelete key) fun r => hΦ.bind ih fun rest => ?_
    cases r <;> exact hΦ.ret _

/-- A put is refused at once, or writes when it found the bucket. -/
theorem putObject_cases (inlineMax : ℕ) {key : Bytes} (validClass : Bool) (contentMd5 : Option (Option Bytes))
    {body : Option (List (Option Bytes))} (contentLength : Option ℤ)
    (hinline : ∀ data, Φ _ (storeInlinedObject c bucket key data))
    (hsingle : ∀ pieces len, body = some pieces → Φ _ (storeSingleObjectAndMeta c bucket key pieces len)) :
    (∃ e, putObject c inlineMax bucket key validClass contentMd5 body contentLength = .ret (.error e)) ∨
      ∃ p, putObject c inlineMax bucket key validClass contentMd5 body contentLength = whenBucket bucket p ∧ Φ _ p := by
  unfold putObject
  split
  · exact .inl ⟨_, rfl⟩
  split
  · exact .inl ⟨_, rfl⟩
  · exact .inl ⟨_, rfl⟩
  refine .inr ⟨_, rfl, ?_⟩
  split
  · exact hΦ.ret _
  split
  · exact hΦ.ret _
  split
  · split
    · exact hΦ.ret _
    · split
      · exact hΦ.ret _
      · exact hΦ.andThen (inherits_tryStore hΦ (hinline _)) fun _ => hΦ.ret _
  · refine hΦ.andThen (inherits_tryStore hΦ (hsingle _ _ rfl)) fun o => ?_
    split
    · exact hΦ.andThen (inherits_tryStore hΦ (hdelete key)) fun _ => hΦ.ret _
    · exact hΦ.ret _

end Objects

/-- **A request inherits from what it calls.** -/
theorem inherits_handle (inlineMax : ℕ) (r : S3Request) (hopen : ∀ bucket, Φ _ (treeOpen bucket))
    (hcreate : ∀ bucket row, Φ _ (insertBucket bucket row)) (hrow : ∀ bucket, Φ _ (removeRow bucket))
    (hdrop : ∀ bucket, Φ _ (dropBucket bucket)) (hdelete : ∀ bucket key, Φ _ (deleteObject c bucket key))
    (hinline : ∀ bucket key data, Φ _ (storeInlinedObject c bucket key data))
    (hsingle : ∀ bucket key v md5 body len, r = .putObject bucket key v md5 body len → ∀ pieces n, body = some pieces →
      Φ _ (storeSingleObjectAndMeta c bucket key pieces n))
    (hupload : ∀ bucket key uploadId, Φ _ (createUpload bucket key uploadId))
    (hpart : ∀ bucket key uploadId n body len md5, r = .uploadPart bucket key uploadId n body len md5 →
      Φ _ (uploadPart c bucket key uploadId n body len md5))
    (hcomplete : ∀ bucket key uploadId upload, Φ _ (completeMultipartUpload c bucket key uploadId upload))
    (habort : ∀ fuel bucket key uploadId, Φ _ (abortMultipartUpload c fuel bucket key uploadId)) :
    Φ _ (r.handle c inlineMax) := by
  have hread : ∀ {α : Type} (body : Store → Except Err α), Φ _ (tryStore (readStore body)) := fun body =>
    inherits_tryStore hΦ (hΦ.looks (readStore_looks body))
  have hmeta : ∀ bucket key, Φ _ (getObjectMeta bucket key) := fun bucket key =>
    hΦ.andThen (hopen bucket) fun _ => hΦ.looks (readStore_looks _)
  have hquiet : ∀ {α : Type} {p : StoreProg (Except S3Err α)}, Φ _ p → Φ _ (quietly p) := fun hp =>
    hΦ.andThen hp fun _ => hΦ.ret _
  have hfound : ∀ bucket, Φ _ (headBucket bucket) := fun bucket => hΦ.looks ((bucketExists_looks bucket).bind fun found => by
    split <;> exact trivial)
  cases r with
  | createBucket bucket =>
    refine hquiet (hΦ.bind (hΦ.looks (bucketExists_looks bucket)) fun found => ?_)
    split
    · exact hΦ.ret _
    · exact hΦ.bind (hΦ.looks readClock_looks) fun now => inherits_tryStore hΦ (hcreate bucket _)
  | deleteBucket fuel bucket =>
    exact hquiet (inherits_tryStore hΦ (hΦ.andThen (hrow bucket) fun _ => hΦ.andThen (hopen bucket) fun _ =>
      hΦ.andThen (inherits_deleteEach hΦ c (hdelete bucket) fuel none) fun _ => hdrop bucket))
  | headBucket bucket | getBucketLocation bucket => exact hquiet (hfound bucket)
  | listBuckets => exact hΦ.andThen (hread _) fun _ => hΦ.ret _
  | listObjects bucket =>
    exact inherits_whenBucket hΦ bucket (hΦ.andThen (inherits_tryStore hΦ (hopen bucket)) fun _ =>
      hΦ.andThen (hread _) fun _ => hΦ.ret _)
  | listObjectsV2 bucket token =>
    refine inherits_whenBucket hΦ bucket (hΦ.andThen (inherits_tryStore hΦ (hopen bucket)) fun _ => ?_)
    split
    · exact hΦ.ret _
    · exact hΦ.andThen (hread _) fun _ => hΦ.ret _
  | getObject bucket key =>
    refine inherits_whenBucket hΦ bucket (inherits_orUnavailable hΦ _ (hΦ.andThen (hmeta bucket key) fun o => ?_))
    split
    · exact hΦ.ret _
    · exact hΦ.andThen (hΦ.looks (blockPaths_looks _)) fun _ => hΦ.ret _
  | headObject bucket key => exact inherits_whenBucket hΦ bucket (inherits_orUnavailable hΦ _ (hmeta bucket key))
  | putObject bucket key validClass md5 body len =>
    rcases putObject_cases hΦ c (hdelete bucket) inlineMax validClass md5 len (hinline bucket key)
      (hsingle bucket key validClass md5 body len rfl) with ⟨e, h⟩ | ⟨p, h, hp⟩
    · exact (congrArg (Φ _) h).mpr (hΦ.ret _)
    · exact (congrArg (Φ _) h).mpr (inherits_whenBucket hΦ bucket hp)
  | deleteObject bucket key =>
    refine hΦ.andThen (inherits_tryStore hΦ (hΦ.andThen (hopen bucket) fun _ => hΦ.looks (readStore_looks _))) fun found => ?_
    split
    · exact hΦ.andThen (inherits_tryStore hΦ (hdelete bucket key)) fun _ => hΦ.ret _
    · exact hΦ.ret _
  | deleteObjects bucket keys =>
    exact inherits_whenBucket hΦ bucket (hΦ.bind (inherits_deleteKeys hΦ c (hdelete bucket) keys) fun _ => hΦ.ret _)
  | copyObject => exact hΦ.ret _
  | createMultipartUpload bucket key uploadId =>
    exact inherits_whenBucket hΦ bucket (hquiet (inherits_tryStore hΦ (hupload bucket key uploadId)))
  | uploadPart bucket key uploadId n body len md5 => exact hquiet (hpart bucket key uploadId n body len md5 rfl)
  | completeMultipartUpload bucket key uploadId upload => exact hquiet (hcomplete bucket key uploadId upload)
  | abortMultipartUpload fuel bucket key uploadId => exact hquiet (habort fuel bucket key uploadId)
  | listParts fuel bucket key uploadId =>
    refine hΦ.andThen (hread _) fun u => ?_
    split
    · exact hΦ.ret _
    · exact hΦ.andThen (inherits_tryStore hΦ (hΦ.looks (uploadParts_looks _ fuel _))) fun _ => hΦ.ret _
  | listMultipartUploads fuel bucket =>
    exact inherits_whenBucket hΦ bucket
      (hΦ.andThen (inherits_tryStore hΦ (hΦ.looks (listUploads_looks fuel none))) fun _ => hΦ.ret _)

end Calls

end QssStorage
