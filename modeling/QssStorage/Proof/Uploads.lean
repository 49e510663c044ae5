import QssStorage.Proof.Body
import QssStorage.Proof.UploadWalks

/-!
# Multipart uploads on the ledger

A part record names the references its upload took. Claiming or reaping it brings them in
hand; the completed object names them from then on, or they are released. A part that is
uploaded again displaces the record of the first upload, whose references stay behind.

* `uploadPart_idle`, `completeMultipartUpload_idle`, `abortMultipartUpload_idle`,
  `sweepStaleUploads_idle`: **the operations on uploads keep the ledger.**
-/

namespace QssStorage

open Conc Hand

variable {n : ℕ} {m : Mode} {α β : Type}
variable {s s' : Store} {key : Bytes} {part : MultiPart} {r : Hand} (c : Config)
variable {ns : List ℤ} {claimed : List (PartInstance × MultiPart)}

/-! ## Programs that need nothing in hand -/

/-- From nothing in hand, the ledger is kept and no stripe is left. -/
def Idle (n : ℕ) (m : Mode) (p : StoreProg α) : Prop := wp (ledger n m) p (fun _ g => g.views = 0) 0

theorem Idle.ret (a : α) : Idle n m (.ret a : StoreProg α) := (rfl : (0 : Hand).views = 0)

/-- What the first program left in hand stays aside. -/
theorem Idle.after {q : StoreProg β} (h : Idle n m q) {x : Hand} (hx : x.views = 0) :
    wp (ledger n m) q (fun _ g => g.views = 0) x := by
  rw [← zero_add x]
  refine wp_framed h ?_
  intro _ g hg
  rw [add_views, hg, hx]
  rfl

theorem Idle.bind {p : StoreProg α} {q : α → StoreProg β} (hp : Idle n m p) (hq : ∀ a, Idle n m (q a)) :
    Idle n m (p.bind q) :=
  wp_bind (wp_mono (fun a _ hg => (hq a).after hg) hp)

theorem inherits_idle : Prog.Inherits fun α (p : StoreProg α) => Idle n m p :=
  ⟨fun h => wp_mono (fun _ _ hg => hg ▸ rfl) h.wp, Idle.bind⟩

/-! ## Uploads -/

/-- Upload records are no business of the ledger. -/
theorem Core.setUploads {g : Hand} (h : Core m s g) (u : OrdMap Bytes (Cell UploadRecord)) (l : List Event) :
    Core m { s with uploads := u, log := l } g :=
  h.rebuild rfl rfl rfl rfl rfl h.counts h.placed h.strays fun hm => (h.strict hm).congr rfl rfl rfl

theorem createUpload_idle (bucket key uploadId : Bytes) : Idle n m (createUpload bucket key uploadId) := by
  refine (inherits_idle.looks readClock_looks).bind fun now => wp_transact_free rfl ?_ (fun _ => rfl) ?_
  · intro s r _ err hb; cases hb
  · intro s r hc a s' hb
    cases hb
    exact ⟨SameBlock.refl _, 0, rfl, hc.setUploads _ _, rfl, fun _ => rfl⟩

theorem claimUpload_idle (bucket key uploadId : Bytes) : Idle n m (claimUpload bucket key uploadId) := by
  refine wp_transact_free rfl (fun _ _ _ _ _ => rfl) (fun _ => rfl) ?_
  intro s r hc a s' hb
  obtain ⟨-, rfl⟩ | ⟨u, -, -, rfl⟩ := takeUpload_cases hb
  · exact ⟨SameBlock.refl _, 0, rfl, hc, rfl, fun _ => rfl⟩
  · exact ⟨SameBlock.refl _, 0, rfl, hc.setUploads _ _, rfl, fun _ => rfl⟩

/-! ## Parts -/

/-- The part record under `key`, and in hand what it displaced. -/
theorem Core.storePart (hparts : m.parts = true) (hc : Core m s (ofRefs part.blocks + r)) (key : Bytes) :
    Core m { s with parts := s.parts.insert key (.record part) }
      (ofRefs (s.parts.share (fun _ => partCellRefs) key) + r) := by
  refine hc.setParts _ hparts ?_ rfl rfl rfl
  have hsum := OrdMap.sum_insert (fun _ => partCellRefs) s.parts key (.record part)
  simp only [partRefs, add_refs, ofRefs]
  rw [← add_assoc, hsum, add_assoc]
  rfl

/-- A part is stored with the references of its body; those of the part it displaces stay
in hand. -/
theorem insertMultipartPart_ok (hparts : m.parts = true) (part : MultiPart) :
    wp (ledger n m) (insertMultipartPart part) (fun _ g => g.views = 0) (ofRefs part.blocks) := by
  refine wp_transact_free rfl ?_ (fun _ => rfl) ?_
  · intro s r _ err hb; cases hb
  · intro s r hc a s' hb
    cases hb
    exact ⟨SameBlock.refl _, _, rfl, (hc.storePart hparts _).log _, rfl, fun _ => rfl⟩

theorem partRefs_take (h : s.parts.get key = some (.record part)) :
    partRefs { s with parts := s.parts.erase key } + part.blocks = partRefs s := by
  have hsum := OrdMap.sum_of_get (fun _ => partCellRefs) h
  unfold partRefs
  rw [hsum, add_comm]
  rfl

/-- The parts without `key`, and in hand what the record held. -/
theorem Core.dropPart (hparts : m.parts = true) (hc : Core m s (0 + r)) (h : s.parts.get key = some (.record part)) :
    Core m { s with parts := s.parts.erase key } (ofRefs part.blocks + r) := by
  refine hc.setParts _ hparts ?_ rfl rfl rfl
  simp only [add_refs, ofRefs, zero_add]
  rw [← add_assoc, partRefs_take h]

/-- What a claim took: the part records it named, and their references. -/
theorem Taken.refs {bucket key uploadId : Bytes} (h : Taken bucket key uploadId ns s claimed s') : (∃ parts, s' = { s with parts := parts }) ∧
      partRefs s' + (claimed.map Prod.snd).flatMap MultiPart.blocks = partRefs s := by
  induction h with
  | nil s => exact ⟨⟨s.parts, rfl⟩, add_zero _⟩
  | cons hget _ ih =>
    obtain ⟨⟨parts, rfl⟩, hrefs⟩ := ih
    refine ⟨⟨parts, rfl⟩, ?_⟩
    rw [List.map_cons, List.flatMap_cons, ← Multiset.coe_add, ← partRefs_take hget, ← hrefs]
    abel

theorem Taken.core {bucket key uploadId : Bytes} (h : Taken bucket key uploadId ns s claimed s')
    (hparts : m.parts = true) (hc : Core m s (0 + r)) :
    (∀ b, SameBlock s s' b) ∧ Core m s' (ofRefs ((claimed.map Prod.snd).flatMap MultiPart.blocks : List BlockId) + r) := by
  obtain ⟨⟨parts, rfl⟩, hrefs⟩ := h.refs
  refine ⟨SameBlock.refl _, hc.setParts parts hparts ?_ rfl rfl rfl⟩
  simp only [add_refs, ofRefs, zero_add]
  rw [← add_assoc]
  exact congrArg (· + r.refs) hrefs

theorem claimTx_ok {bucket key uploadId : Bytes} {claim : UploadClaim} (hparts : m.parts = true)
    (hc : Core m s (0 + r)) (h : claimTx bucket key uploadId ns s = .ok (claim, s')) :
    (∀ b, SameBlock s s' b) ∧ ((∀ u parts, claim ≠ .claimed u parts) ∧ Core m s' (0 + r) ∨
        ∃ u claimed, claim = .claimed u claimed ∧
          Core m s' (ofRefs ((claimed.map Prod.snd).flatMap MultiPart.blocks : List BlockId) + r)) := by
  obtain ⟨hno, rfl⟩ | ⟨u, claimed, s1, -, htaken, rfl, rfl⟩ := claimTx_cases h
  · exact ⟨SameBlock.refl _, .inl ⟨hno, hc⟩⟩
  obtain ⟨hsame, hcore⟩ := htaken.core hparts (hc.setUploads _ _)
  exact ⟨hsame, .inr ⟨u, claimed, rfl, hcore.log _⟩⟩

theorem claimUploadWithParts_ok (hparts : m.parts = true) (bucket key uploadId : Bytes) (ns : List ℤ) :
    wp (ledger n m) (claimUploadWithParts bucket key uploadId ns)
      (fun r g => g.views = 0 ∧ ∀ u claimed, r = .ok (.claimed u claimed) →
        g = ofRefs ((claimed.map Prod.snd).flatMap MultiPart.blocks : List BlockId)) 0 := by
  refine wp_transact_free rfl (fun _ _ _ _ _ => ⟨rfl, nofun⟩) (fun _ => ⟨rfl, nofun⟩) ?_
  intro s r hc claim s' hb
  obtain ⟨hsame, h⟩ := claimTx_ok hparts hc hb
  rcases h with ⟨hno, hcore⟩ | ⟨u, claimed, rfl, hcore⟩
  · exact ⟨hsame, 0, rfl, hcore, ⟨rfl, fun u claimed heq => absurd (Except.ok.inj heq) (hno u claimed)⟩,
      fun _ => ⟨rfl, nofun⟩⟩
  · refine ⟨hsame, _, rfl, hcore, ⟨rfl, ?_⟩, fun _ => ⟨rfl, nofun⟩⟩
    rintro u' claimed' heq
    cases heq
    rfl

theorem reapPart_idle (hparts : m.parts = true) (key : Bytes) : Idle c.stripes m (reapPart c key) := by
  refine wp_andThen (wp_transact_free rfl ?_ (fun _ => ⟨nofun, fun _ _ => rfl⟩) ?_)
  · exact fun _ _ _ err _ => ⟨nofun, fun _ _ => rfl⟩
  intro s r hc a s' hb
  obtain ⟨rfl, rfl⟩ | ⟨part, hget, rfl, rfl⟩ := reapTx_cases hb
  · refine ⟨SameBlock.refl _, 0, rfl, hc, ⟨?_, nofun⟩, fun _ => ⟨nofun, fun _ _ => rfl⟩⟩
    rintro v hv; cases hv; exact Idle.ret _
  refine ⟨SameBlock.refl _, _, rfl, (hc.dropPart hparts hget).log _, ⟨?_, nofun⟩, fun _ => ⟨nofun, fun _ _ => rfl⟩⟩
  rintro v hv
  cases hv
  refine wp_bind (wp_mono ?_ (releaseBlocks_ok c _ part.blocks))
  exact fun _ g hg => hg.1

/-- **The sweep of stale uploads.** -/
theorem sweepStaleUploads_idle (hparts : m.parts = true) (fuel ttl : ℕ) : Idle c.stripes m (sweepStaleUploads c fuel ttl) :=
  inherits_sweepStaleUploads inherits_idle c claimUpload_idle (reapPart_idle c hparts) fuel ttl

/-! ## The handlers -/

/-- **UploadPart**: the references of the body go into the part record, or stay behind. -/
theorem uploadPart_idle (hparts : m.parts = true) (bucket key uploadId : Bytes) (partNumber : ℤ)
    (body : Option (List (Option Bytes))) (contentLength : Option ℤ) (contentMd5 : Option (Option Bytes)) :
    Idle c.stripes m (uploadPart c bucket key uploadId partNumber body contentLength contentMd5) := by
  refine inherits_idle.andThen (inherits_tryStore inherits_idle (inherits_idle.looks (readStore_looks _))) fun upload => ?_
  cases upload with
  | none => exact Idle.ret _
  | some u =>
    dsimp only
    split
    · exact Idle.ret _
    · exact Idle.ret _
    · exact Idle.ret _
    · rename_i body contentLength _
      refine wp_andThen (wp_bind (wp_mono ?_ (storeObject_ok c body)))
      rintro r g ⟨hok, herr⟩
      cases r with
      | error e => exact ⟨nofun, fun _ _ => (herr e rfl).1⟩
      | ok stored =>
        obtain ⟨l, rfl, hl⟩ := hok stored rfl
        have hv : (ofRefs stored.1 + l).views = 0 := by rw [add_views, hl.1]; rfl
        refine ⟨?_, nofun⟩
        rintro v hv'
        cases hv'
        split
        · exact hv
        split
        · exact hv
        refine wp_bind (wp_framed (insertMultipartPart_ok hparts _) ?_)
        intro r g hg
        have hgl : (g + l).views = 0 := by rw [add_views, hg, hl.1]; rfl
        cases r with
        | ok a | error e => exact hgl

/-- **CompleteMultipartUpload**: the object names the references of the parts it claimed. -/
theorem completeMultipartUpload_idle (hparts : m.parts = true) (bucket key uploadId : Bytes)
    (upload : Option (List (Option ℤ))) : Idle c.stripes m (completeMultipartUpload c bucket key uploadId upload) := by
  match upload with
  | none => exact Idle.ret _
  | some [] => exact Idle.ret _
  | some (k :: ks) =>
    refine inherits_idle.andThen (inherits_tryStore inherits_idle (inherits_idle.looks (readStore_looks _))) fun found => ?_
    cases found with
    | none => exact Idle.ret _
    | some u =>
      refine inherits_idle.andThen (inherits_idle.looks (validateParts_looks bucket key uploadId _ 0)) fun ns => ?_
      refine wp_andThen (wp_bind (wp_mono ?_ (claimUploadWithParts_ok hparts bucket key uploadId ns)))
      rintro r g ⟨hv, hclaim⟩
      cases r with
      | error e => exact ⟨nofun, fun _ _ => hv⟩
      | ok claim =>
        refine ⟨?_, nofun⟩
        rintro v hv'
        cases hv'
        cases claim with
        | noUpload | missingPart k => exact hv
        | claimed u claimed =>
          rw [hclaim u claimed rfl]
          refine wp_bind (wp_mono ?_ (createObjectMeta_ok c bucket key _ _ _ _
            ((claimed.map Prod.snd).flatMap MultiPart.blocks) fun _ => rfl))
          intro o g hdone
          cases o with
          | ok o | error e => exact hdone.1.1

theorem abortMultipartUpload_idle (hparts : m.parts = true) (fuel : ℕ) (bucket key uploadId : Bytes) :
    Idle c.stripes m (abortMultipartUpload c fuel bucket key uploadId) :=
  inherits_abortMultipartUpload inherits_idle c claimUpload_idle (reapPart_idle c hparts) fuel bucket key uploadId

end QssStorage
