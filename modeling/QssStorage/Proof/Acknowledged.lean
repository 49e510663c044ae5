import QssStorage.Proof.Usage
import QssStorage.Proof.Versions

/-!
# What an acknowledgement says

The records behind the acknowledgement of an upload: that of a PUT holds the body or names its
chunks, a part names the chunks of its body, and the object of several parts names the chunks of
all of them. Each carries the hash its writer computed, of the bytes or of the hashes of the parts.

* `reach_onRecord`: **whatever else the server does, what was acknowledged was stored.**
-/

namespace QssStorage

open Conc Prog

section Uploading

variable {c : Config} {since : ℕ} {l : Timeline Store}
variable {α : Type} {l' : Timeline Store} (pieces : List Bytes)
variable {claimed : List (PartInstance × MultiPart)} {r : S3Request}

/-- Nothing is assumed of the others. -/
abbrev anything : Rely (Timeline Store) Choice := Timeline.rely Choice fun _ => True

/-- Programs whose answers do not depend on what they find. -/
theorem Safe.of_steps {G : Store → Store → Prop} {Q : α → Prop} {p : StoreProg α} (h : Steps G p Q)
    (l : Timeline Store) :
    Safe anything p.timed (fun a _ => Q a) l :=
  Safe.timed (Confined.of_steps (fun _ _ _ _ => trivial) h) l

/-- A transaction that succeeded, and the two moments it connects. -/
theorem transact_safe {body : Store → Except Err (α × Store)} {Q : α → Timeline Store → Prop}
    (h : ∀ s a s' t l', body s = .ok (a, s') → l.past.length ≤ t → l'.stateAt t = some s → l'.stateAt (t + 1) = some s' → Q a l') :
    Safe anything (transact body).timed (fun r l' => ∀ a, r = .ok a → Q a l') l := by
  refine safe_timed_step fun e r s s' t _ hf ht => ⟨trivial, fun l' _ _ hbefore hafter a ha => ?_⟩
  subst ha
  split at hf
  · cases hf
  · rename_i a' s1 hbody _
    cases hf
    exact h s a s' t l' hbody ht hbefore hafter
  · cases hf
  · cases hf

theorem tryStore_safe {p : StoreProg (Except Err α)} {Q : α → Timeline Store → Prop}
    (h : Safe anything p.timed (fun r l' => ∀ a, r = .ok a → Q a l') l) :
    Safe anything (tryStore p).timed (fun r l' => ∀ a, r = .ok a → Q a l') l := by
  unfold tryStore
  rw [timed_bind]
  refine safe_bind (h.stays.mono fun r l1 _ _ hr => ?_)
  cases r with
  | ok a => exact safe_ret fun l2 hl2 hi a' ha => by cases ha; exact hr l2 hl2 hi a rfl
  | error e => exact safe_ret fun l2 _ _ a' ha => by cases ha

/-- The record of a create that succeeded was stored. -/
theorem createObjectMeta_safe (bucket key : Bytes) (size : ℕ) (hash : Bytes) (data : ObjectData) (noting : List Event)
    (hsince : since ≤ l.past.length) :
    Safe anything (createObjectMeta c bucket key size hash data noting).timed (fun r l' => ∀ o, r = .ok o →
      (∃ now, o = ⟨size, now, hash, data⟩) ∧ Seen bucket key o since l') l := by
  unfold createObjectMeta
  rw [timed_bind]
  refine safe_bind ((Safe.of_steps (readClock_steps (G := Eq) fun _ => rfl) l).mono fun now l1 hl1 _ _ => ?_)
  dsimp only
  rw [timed_andThen]
  have hon : Safe anything (replaceObjectRecord bucket key ⟨size, now, hash, data⟩ noting).timed
      (fun r l' => ∀ old, r = .ok old → Seen bucket key ⟨size, now, hash, data⟩ since l') l1 := by
    refine transact_safe fun s old s' t l' hbody ht _ hafter => ⟨t + 1, s', ?_, hafter, ?_⟩
    · have := hl1.length_le; omega
    · exact RecordTx.recordAt_eq ⟨_, replaceObjectTx_ok hbody⟩
  refine safe_thenOk hon fun old l2 _ hseen => ?_
  cases old with
  | none => exact safe_ret fun l3 hl3 _ o ho => by cases ho; exact ⟨⟨now, rfl⟩, hseen.later hl3⟩
  | some old =>
    dsimp only
    rw [timed_bind]
    refine safe_bind ((Safe.of_steps (releaseOwn_steps c (fun _ => rfl) old.blocks) l2).mono
      fun _ l3 hl3 _ _ => safe_ret fun l4 hl4 _ o ho => ?_)
    cases ho
    exact ⟨⟨now, rfl⟩, hseen.later (hl3.trans hl4)⟩

theorem collectBody_pieces : collectBody (pieces.map some) = some pieces.flatten := by
  induction pieces with
  | nil => rfl
  | cons bytes pieces ih =>
    rw [List.map_cons, collectBody, ih]
    rfl

/-- What storing a whole stream answers. -/
theorem storeObject_pieces (l : Timeline Store) :
    Safe anything (storeObject c (pieces.map some)).timed (fun r _ => ∀ stored, r = .ok stored →
      stored = ((chunksOf pieces).map c.hash, c.md5 pieces.flatten, pieces.flatten.length)) l := by
  refine (Safe.of_steps (storeObject_returns c (pieces.map some)) l).mono fun r l' _ _ hr stored hok => ?_
  obtain ⟨chunks, hchunks, rfl⟩ := hr stored hok
  obtain ⟨hbuffered, hflat, -⟩ := chunksOf_spec pieces
  have hsame : chunks = chunksOf pieces :=
    List.map_injective_iff.2 (Option.some_injective _) (hchunks.symm.trans hbuffered)
  rw [hsame, hflat]

/-- A refusal acknowledges nothing. -/
theorem refused_safe {α ξ : Type} {Q : α → Timeline Store → Prop} (e : ξ) :
    Safe anything (.ret (.error e) : StoreProg (Except ξ α)).timed (fun r l' => ∀ a, r = .ok a → Q a l') l :=
  safe_ret fun _ _ _ _ h => by cases h

theorem whenBucket_safe {bucket : Bytes} {p : StoreProg (Except S3Err α)} {Q : α → Timeline Store → Prop}
    (h : ∀ l', l.Extends l' → Safe anything p.timed (fun r l' => ∀ a, r = .ok a → Q a l') l') :
    Safe anything (whenBucket bucket p).timed (fun r l' => ∀ a, r = .ok a → Q a l') l := by
  unfold whenBucket
  rw [timed_bind]
  refine safe_bind ((Safe.timed (bucketExists_retains bucket) l).mono fun found l1 hl1 _ _ => ?_)
  split
  · exact h l1 hl1
  · exact refused_safe _

/-- The record of a body that was put, inlined or in blocks. -/
def PutRecord (c : Config) (pieces : List Bytes) (o : Object) : Prop :=
  ∃ now, o = ⟨pieces.flatten.length, now, c.md5 pieces.flatten, .inline pieces.flatten⟩ ∨
    o = ⟨pieces.flatten.length, now, c.md5 pieces.flatten, .singlePart ((chunksOf pieces).map c.hash)⟩

/-- The record of a put was stored at some time from `since` on. -/
def PutSeen (c : Config) (bucket key : Bytes) (pieces : List Bytes) (since : ℕ) (l : Timeline Store) : Prop :=
  ∃ o, Seen bucket key o since l ∧ PutRecord c pieces o

theorem PutSeen.later {bucket key : Bytes} {pieces : List Bytes} (h : PutSeen c bucket key pieces since l)
    (hl : l.Extends l') : PutSeen c bucket key pieces since l' := by
  obtain ⟨o, hseen, hrecord⟩ := h
  exact ⟨o, hseen.later hl, hrecord⟩

/-- A body that is stored in blocks, and its record. -/
theorem storeSingle_safe (bucket key : Bytes) (pieces : List Bytes) {len : ℕ} (hlen : 0 < len)
    (hsince : since ≤ l.past.length) :
    Safe anything (storeSingleObjectAndMeta c bucket key (pieces.map some) len).timed
      (fun r l' => ∀ o, r = .ok o → PutSeen c bucket key pieces since l') l := by
  unfold storeSingleObjectAndMeta
  rw [if_pos hlen, timed_andThen]
  refine safe_thenOk (storeObject_pieces pieces l) fun stored l1 hl1 hon => ?_
  subst hon
  have hle := hl1.length_le
  rw [timed_bind]
  refine safe_bind ((createObjectMeta_safe bucket key _ _ _ [] (hsince.trans hle)).stays.mono fun r l2 _ _ hr => ?_)
  cases r with
  | error e => exact refused_safe _
  | ok o =>
    refine safe_ret fun l3 hl3 hi o' _ => ?_
    obtain ⟨⟨now, rfl⟩, hseen⟩ := hr l3 hl3 hi o rfl
    exact ⟨_, hseen, now, .inr rfl⟩

/-- **An acknowledged PUT**, whatever length it announced. -/
theorem putObject_safe (inlineMax : ℕ) (bucket key : Bytes) (validClass : Bool) (md5 : Option (Option Bytes))
    (pieces : List Bytes) (len : Option ℤ) (hsince : since ≤ l.past.length) :
    Safe anything (putObject c inlineMax bucket key validClass md5 (some (pieces.map some)) len).timed
      (fun r l' => ∀ reply, r = .ok reply → PutSeen c bucket key pieces since l') l := by
  unfold putObject
  split
  · exact refused_safe _
  split
  · exact refused_safe _
  · exact refused_safe _
  rename_i hbody
  cases hbody
  refine whenBucket_safe fun l1 hl1 => ?_
  have hsince1 := hsince.trans hl1.length_le
  split
  · exact refused_safe _
  split
  · exact refused_safe _
  split
  · -- small enough to go into the record
    rw [collectBody_pieces]
    dsimp only
    split
    · exact refused_safe _
    rw [timed_andThen]
    refine safe_thenOk (tryStore_safe (createObjectMeta_safe bucket key _ _ _ [] hsince1)) fun o l2 _ hon =>
      safe_ret fun l3 hl3 _ _ _ => ?_
    obtain ⟨⟨now, rfl⟩, hseen⟩ := hon
    exact ⟨_, hseen.later hl3, now, .inl rfl⟩
  · rw [timed_andThen]
    refine safe_thenOk (tryStore_safe (storeSingle_safe bucket key pieces (by omega) hsince1)) fun o l2 _ hup => ?_
    split
    · rw [timed_andThen]
      exact safe_thenOk (R := fun _ _ => True) ((Safe.timed (confined_true _) l2).mono fun _ _ _ _ _ _ _ => trivial)
        fun _ _ _ _ => refused_safe _
    · exact safe_ret fun l3 hl3 _ _ _ => hup.later hl3

/-- The part holds these bytes, by naming their chunks in order. -/
def MultiPart.Names (c : Config) (pieces : List Bytes) (p : MultiPart) : Prop :=
  p.size = pieces.flatten.length ∧ p.blocks = (chunksOf pieces).map c.hash

/-- A part record that was stored at some time from `since` on. -/
def PartSeen (storageKey : Bytes) (p : MultiPart) (since : ℕ) (l : Timeline Store) : Prop :=
  ∃ t s, since ≤ t ∧ l.stateAt t = some s ∧ s.parts.get storageKey = some (.record p)

/-- The record of a part: it names the chunks of the body and carries its hash. -/
def PartRecord (c : Config) (pieces : List Bytes) (p : MultiPart) : Prop := p.Names c pieces ∧ p.hash = c.md5 pieces.flatten

/-- **An acknowledged part.** -/
theorem uploadPart_safe (bucket key uploadId : Bytes) (n : ℤ) (pieces : List Bytes) (contentLength : Option ℤ)
    (md5 : Option (Option Bytes)) (hsince : since ≤ l.past.length) :
    Safe anything (uploadPart c bucket key uploadId n (some (pieces.map some)) contentLength md5).timed
      (fun r l' => ∀ a, r = .ok a → ∃ p, PartSeen (partKey bucket key uploadId n) p since l' ∧ PartRecord c pieces p) l := by
  unfold uploadPart
  rw [timed_andThen]
  refine safe_thenOk (R := fun _ _ => True) ((Safe.timed (confined_true _) l).mono fun _ _ _ _ _ _ _ => trivial)
    fun u l1 hl1 _ => ?_
  have hsince1 := hsince.trans hl1.length_le
  split
  · exact refused_safe _
  split
  · exact refused_safe _
  · exact refused_safe _
  · exact refused_safe _
  · rename_i hbody
    cases hbody
    rw [timed_andThen]
    refine safe_thenOk (tryStore_safe (storeObject_pieces pieces l1)) fun stored l2 hl2 hon => ?_
    subst hon
    have hsince2 := hsince1.trans hl2.length_le
    split
    · exact refused_safe _
    split
    · exact refused_safe _
    refine tryStore_safe (transact_safe fun s a s' t l' hbody ht _ hafter => ?_)
    cases hbody
    refine ⟨⟨pieces.flatten.length, n, bucket, key, uploadId, c.md5 pieces.flatten, (chunksOf pieces).map c.hash⟩,
      ⟨t + 1, _, by omega, hafter, ?_⟩, ⟨rfl, rfl⟩, rfl⟩
    rw [OrdMap.get_insert, if_pos rfl]

/-- The parts of a claim are those that were stored. -/
theorem Taken.found {bucket key uploadId : Bytes} {ns : List ℤ} {s s' : Store}
    (h : Taken bucket key uploadId ns s claimed s') :
    List.Forall₂ (fun n p => s.parts.get (partKey bucket key uploadId n) = some (.record p)) ns (claimed.map Prod.snd) := by
  induction h with
  | nil s => exact .nil
  | cons hget _ ih =>
    refine .cons hget (ih.imp fun n p hp => ?_)
    -- what is left after the first part was taken was there before
    dsimp only at hp
    rw [OrdMap.get_erase] at hp
    split at hp
    · cases hp
    · exact hp

theorem claimTx_found {bucket key uploadId : Bytes} {ns : List ℤ} {s s' : Store} {u : UploadRecord}
    (h : claimTx bucket key uploadId ns s = .ok (.claimed u claimed, s')) :
    List.Forall₂ (fun n p => s.parts.get (partKey bucket key uploadId n) = some (.record p)) ns (claimed.map Prod.snd) := by
  obtain ⟨hno, -⟩ | ⟨u, parts, s1, -, htaken, heq, -⟩ := claimTx_cases h
  · exact absurd rfl (hno _ _)
  · cases heq
    exact htaken.found

/-- The parts of an upload at some time from `since` on. -/
def PartsSeen (bucket key uploadId : Bytes) (numbers : List ℤ) (ps : List MultiPart) (since : ℕ) (l : Timeline Store) :
    Prop :=
  ∃ t s, since ≤ t ∧ l.stateAt t = some s ∧
    List.Forall₂ (fun n p => s.parts.get (partKey bucket key uploadId n) = some (.record p)) numbers ps

theorem PartsSeen.later {bucket key uploadId : Bytes} {numbers : List ℤ} {ps : List MultiPart}
    (h : PartsSeen bucket key uploadId numbers ps since l) (hl : l.Extends l') :
    PartsSeen bucket key uploadId numbers ps since l' := by
  obtain ⟨t, s, ht, hs, hparts⟩ := h
  exact ⟨t, s, ht, hl.stateAt hs, hparts⟩

/-- The record of several parts. -/
def JoinedRecord (c : Config) (ps : List MultiPart) (o : Object) : Prop :=
  ∃ now, o = ⟨(ps.map MultiPart.size).sum, now, c.md5 (ps.flatMap MultiPart.hash),
    .multiPart (ps.flatMap MultiPart.blocks) ps.length⟩

/-- **An acknowledged complete.** -/
theorem completeMultipartUpload_safe (bucket key uploadId : Bytes) (numbers : List ℤ) (hsince : since ≤ l.past.length) :
    Safe anything (completeMultipartUpload c bucket key uploadId (some (numbers.map some))).timed (fun r l' =>
      ∀ a, r = .ok a → ∃ ps o, PartsSeen bucket key uploadId numbers ps since l' ∧ Seen bucket key o since l' ∧
        JoinedRecord c ps o) l := by
  unfold completeMultipartUpload
  split
  · rename_i heq; cases heq
  · exact refused_safe _
  rename_i n ns heq
  rw [← Option.some.inj heq, timed_andThen]
  refine safe_thenOk (R := fun _ _ => True) ((Safe.timed (confined_true _) l).mono fun _ _ _ _ _ _ _ => trivial)
    fun u l1 hl1 _ => ?_
  have hsince1 := hsince.trans hl1.length_le
  split
  · exact refused_safe _
  rw [timed_andThen]
  refine safe_thenOk (Safe.of_steps (validateParts_steps (fun _ => rfl) bucket key uploadId _ 0) l1) fun ns' l2 hl2 hns => ?_
  obtain rfl := List.map_injective_iff.2 (Option.some_injective _) hns
  have hsince2 := hsince1.trans hl2.length_le
  have hclaim : Safe anything (claimUploadWithParts bucket key uploadId numbers).timed (fun r l' => ∀ claim, r = .ok claim →
      ∀ u claimed, claim = .claimed u claimed →
        PartsSeen bucket key uploadId numbers (claimed.map Prod.snd) since l') l2 := by
    refine transact_safe fun s claim s' t l' hbody ht hbefore _ u claimed hclaim => ?_
    subst hclaim
    exact ⟨t, s, by omega, hbefore, claimTx_found hbody⟩
  rw [timed_andThen]
  refine safe_thenOk (tryStore_safe hclaim) fun claim l3 hl3 hclaimed => ?_
  have hsince3 := hsince2.trans hl3.length_le
  cases claim with
  | noUpload | missingPart n => exact refused_safe _
  | claimed u claimed =>
    have hparts := hclaimed u claimed rfl
    refine tryStore_safe ((createObjectMeta_safe bucket key _ _ _ _ hsince3).mono fun r l4 hl4 _ hr a ha => ?_)
    obtain ⟨⟨now, rfl⟩, hseen⟩ := hr a ha
    exact ⟨_, _, hparts.later hl4, hseen, now, rfl⟩

/-! ## Requests and runs -/

/-- What is said of the records that an acknowledged upload stored. -/
structure Testimony where
  put : Bytes → Bytes → Option ℤ → List Bytes → Object → Prop
  part : List Bytes → MultiPart → Prop
  joined : Bytes → Bytes → List MultiPart → Object → Prop

/-- What the acknowledgement of an upload says, of moments between `since` and `till`: its record was there, and `V` holds
of it. The parts of a complete are those that were stored when it claimed them. -/
def Attests (V : Testimony) (since till : ℕ) (l : Timeline Store) : S3Request → Prop
  | .putObject bucket key _ _ body len => ∀ pieces : List Bytes, body = some (pieces.map some) →
      ∃ m s o, since ≤ m ∧ m ≤ till ∧ l.stateAt m = some s ∧ (s.tree bucket).get key = some (.record o) ∧
        V.put bucket key len pieces o
  | .uploadPart bucket key uploadId n body _ _ => ∀ pieces : List Bytes, body = some (pieces.map some) →
      ∃ m s p, since ≤ m ∧ m ≤ till ∧ l.stateAt m = some s ∧
        s.parts.get (partKey bucket key uploadId n) = some (.record p) ∧ V.part pieces p
  | .completeMultipartUpload bucket key uploadId upload => ∀ numbers : List ℤ, upload = some (numbers.map some) →
      ∃ m s ps m' s' o, since ≤ m ∧ m ≤ till ∧ l.stateAt m = some s ∧
        List.Forall₂ (fun n p => s.parts.get (partKey bucket key uploadId n) = some (.record p)) numbers ps ∧
        since ≤ m' ∧ m' ≤ till ∧ l.stateAt m' = some s' ∧ (s'.tree bucket).get key = some (.record o) ∧
        V.joined bucket key ps o
  | _ => True

/-- What was said once is said later, of wider times, and with what follows from it. -/
theorem Attests.imp {V V' : Testimony} {till till' : ℕ} (h : Attests V since till l r)
    (hput : ∀ {bucket key len pieces o}, V.put bucket key len pieces o → V'.put bucket key len pieces o)
    (hpart : ∀ {pieces p}, V.part pieces p → V'.part pieces p)
    (hjoined : ∀ {bucket key ps o}, V.joined bucket key ps o → V'.joined bucket key ps o)
    (hl : l.Extends l') (hle : till ≤ till') : Attests V' since till' l' r := by
  cases r with
  | putObject bucket key validClass md5 body len =>
    intro pieces hbody
    obtain ⟨m, s, o, hm, hm', hs, hget, hV⟩ := h pieces hbody
    exact ⟨m, s, o, hm, hm'.trans hle, hl.stateAt hs, hget, hput hV⟩
  | uploadPart bucket key uploadId n body len md5 =>
    intro pieces hbody
    obtain ⟨m, s, p, hm, hm', hs, hget, hV⟩ := h pieces hbody
    exact ⟨m, s, p, hm, hm'.trans hle, hl.stateAt hs, hget, hpart hV⟩
  | completeMultipartUpload bucket key uploadId upload =>
    intro numbers hnumbers
    obtain ⟨m, s, ps, m', s', o, hm, hmt, hs, hparts, hm', hmt', hs', hget, hV⟩ := h numbers hnumbers
    exact ⟨m, s, ps, m', s', o, hm, hmt.trans hle, hl.stateAt hs, hparts, hm', hmt'.trans hle, hl.stateAt hs', hget, hjoined hV⟩
  | _ => trivial

/-- The records are those of what was sent. -/
def OnRecord (c : Config) (since till : ℕ) (l : Timeline Store) (r : S3Request) : Prop :=
  Attests ⟨fun _ _ _ => PutRecord c, PartRecord c, fun _ _ => JoinedRecord c⟩ since till l r

theorem OnRecord.later {till till' : ℕ} (h : OnRecord c since till l r) (hl : l.Extends l') (hle : till ≤ till') :
    OnRecord c since till' l' r := Attests.imp h id id id hl hle

/-- What is said of a list that was sent: nothing, if an element of it did not come. -/
theorem safe_sent {β : Type} {p : StoreProg (Except S3Err α)} {sent : Option (List (Option β))}
    {Q : List β → Timeline Store → Prop}
    (h : ∀ xs : List β, sent = some (xs.map some) → Safe anything p.timed (fun r l' => ∀ a, r = .ok a → Q xs l') l) :
    Safe anything p.timed (fun r l' => ∀ a, r = .ok a → ∀ xs : List β, sent = some (xs.map some) → Q xs l') l := by
  by_cases hsent : ∃ xs : List β, sent = some (xs.map some)
  · obtain ⟨xs, hxs⟩ := hsent
    refine (h xs hxs).mono fun r l' _ _ hr a ha xs' hxs' => ?_
    have hsame := Option.some.inj (hxs.symm.trans hxs')
    obtain rfl : xs = xs' := List.map_injective_iff.2 (Option.some_injective _) hsame
    exact hr a ha
  · exact (Safe.timed (confined_true _) l).mono fun _ _ _ _ _ _ _ xs hxs => absurd ⟨xs, hxs⟩ hsent

/-- Every request says so. -/
theorem S3Request.onRecord (c : Config) (inlineMax : ℕ) (r : S3Request) (l : Timeline Store) :
    Safe anything (r.handle c inlineMax).timed (fun reply l' => ∀ a, reply = .ok a →
      OnRecord c l.past.length l'.past.length l' r) l := by
  -- an answer that is put in other words
  have hquietly : ∀ {α : Type} {p : StoreProg (Except S3Err α)} (r : S3Request),
      Safe anything p.timed (fun x l' => ∀ a, x = .ok a → OnRecord c l.past.length l'.past.length l' r) l →
      Safe anything (quietly p).timed (fun x l' => ∀ a, x = .ok a → OnRecord c l.past.length l'.past.length l' r) l := by
    intro α p r h
    unfold quietly
    rw [timed_andThen]
    exact safe_thenOk h fun _ l1 _ hon => safe_ret fun l2 hl2 _ _ _ => hon.later hl2 hl2.length_le
  cases r with
  | putObject bucket key validClass md5 body len =>
    refine safe_sent fun pieces hbody => ?_
    subst hbody
    refine (putObject_safe inlineMax bucket key validClass md5 pieces len (le_refl _)).mono fun reply l' _ _ hr a ha => ?_
    obtain ⟨o, ⟨m, s, hm, hs, hget⟩, hrecord⟩ := hr a ha
    exact ⟨m, s, o, hm, Timeline.le_of_stateAt hs, hs, hget, hrecord⟩
  | uploadPart bucket key uploadId n body len md5 =>
    refine hquietly _ (safe_sent fun pieces hbody => ?_)
    subst hbody
    refine (uploadPart_safe bucket key uploadId n pieces len md5 (le_refl _)).mono fun r l' _ _ hr a ha => ?_
    obtain ⟨p, ⟨m, s, hm, hs, hget⟩, hrecord⟩ := hr a ha
    exact ⟨m, s, p, hm, Timeline.le_of_stateAt hs, hs, hget, hrecord⟩
  | completeMultipartUpload bucket key uploadId upload =>
    refine hquietly _ (safe_sent fun numbers hupload => ?_)
    subst hupload
    refine (completeMultipartUpload_safe bucket key uploadId numbers (le_refl _)).mono fun r l' _ _ hr a ha => ?_
    obtain ⟨ps, o, ⟨m, s, hm, hs, hparts⟩, ⟨m', s', hm', hs', hget⟩, hrecord⟩ := hr a ha
    exact ⟨m, s, ps, m', s', o, hm, Timeline.le_of_stateAt hs, hs, hparts, hm', Timeline.le_of_stateAt hs', hs', hget, hrecord⟩
  | _ => exact (Safe.timed (confined_true _) l).mono fun _ _ _ _ _ _ _ => trivial

variable {ρ : Type}

/-- What an answer says of an upload. -/
def S3Answer.OnRecord (c : Config) : S3Answer ρ → Timeline Store → Prop
  | replied since r reply till, l => ∀ a, reply = .ok a → QssStorage.OnRecord c since till l r
  | _, _ => True

theorem S3Task.onRecord (c : Config) (inlineMax : ℕ) (verifyOnRead : Bool) (k : RangeCheck ρ) (task : S3Task ρ)
    (l : Timeline Store) : Safe anything (task.prog c inlineMax verifyOnRead k) (S3Answer.OnRecord c) l := by
  cases task with
  | request r =>
    have hclocked : Safe anything (r.handle c inlineMax).clocked (fun a l => ∀ x, a.2.1 = .ok x →
        QssStorage.OnRecord c a.1 a.2.2 l r) l :=
      safe_clocked (fun _ _ _ hl h x hx => (h x hx).later hl (le_refl _)) fun l0 _ => r.onRecord c inlineMax l0
    exact safe_bind (hclocked.mono fun a l1 _ _ ha => safe_ret fun l2 hl2 _ x hx => (ha x hx).later hl2 (le_refl _))
  | get fuel bucket key range =>
    refine safe_bind ((safe_clocked (Q := fun _ _ => True) (fun _ _ _ _ h => h) fun l0 _ =>
      Safe.timed (confined_true _) l0).mono fun _ _ _ _ _ => safe_ret fun _ _ _ => trivial)
  | store o =>
    exact safe_bind ((Safe.timed (confined_true _) l).mono fun _ _ _ _ _ => safe_ret fun _ _ _ => trivial)

/-- **What was acknowledged was stored**, whatever else the server does. -/
theorem reach_onRecord {inlineMax : ℕ} {verifyOnRead : Bool} {k : RangeCheck ρ} {s0 : Store}
    {w : Pool (Timeline Store) Choice ℕ (S3Answer ρ)}
    (hw : Pool.Reach (s3System c inlineMax verifyOnRead k) (fun _ _ => True) (Pool.start (Timeline.start s0)) w)
    {t : Thread (Timeline Store) Choice ℕ (S3Answer ρ)} (ht : t ∈ w.threads) {since till : ℕ} {reply : S3Reply}
    (hacked : t.result = some (.replied since r (.ok reply) till)) :
    OnRecord c since till w.st r := by
  let start : Pool (Timeline Store) Choice ℕ (S3Answer ρ) := Pool.start (Timeline.start s0)
  have hnone : ∀ t ∈ start.threads, Pool.SafeFrom anything (S3Answer.OnRecord c) start.st t :=
    fun t ht => absurd ht List.not_mem_nil
  have hinv : anything.inv start.st := trivial
  obtain ⟨hinv, hsafe⟩ := Pool.Reach.safe (S := s3System c inlineMax verifyOnRead k)
    (fun w task _ _ => task.onRecord c inlineMax verifyOnRead k w.st) (fun _ _ _ _ _ _ => trivial)
    (fun _ _ _ => trivial) hinv hnone hw
  exact (hsafe t ht).returned hinv hacked reply rfl

end Uploading

end QssStorage
