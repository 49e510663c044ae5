import QssStorage.Proof.Names
import QssStorage.Proof.Parts
import QssStorage.Proof.Objects

/-!
# Which buckets exist

A bucket exists when its tree does, and opening a tree creates it. Most handlers look
before they open. Two do not: a delete of an object looks for the key in a tree it opens,
and a complete writes its record into the tree of a bucket that may have been deleted
since the upload began.

* `exists_iff_live`: **in every sequence of requests of which none does, a bucket exists
  exactly when it was created and not deleted since; after one that does, not.**
-/

namespace QssStorage

open Conc Prog OrdMap

variable (c : Config) (inlineMax : ℕ)

/-! ## Histories -/

/-- What an answered request does to the standing of a bucket. -/
def S3Request.mark : S3Request → Bool → Bytes → Bool → Bool
  | createBucket b', true, b, before => b' = b || before
  | deleteBucket _ b', true, b, before => b' ≠ b && before
  | _, _, _, before => before

/-- Some create of the bucket succeeded and no delete of it has completed since. The newest
request comes first, with whether it succeeded. -/
def live (b : Bytes) : List (S3Request × Bool) → Bool
  | [] => false
  | (req, ok) :: earlier => req.mark ok b (live b earlier)

/-- The store after requests, each `allowed` in the state it found and run to its end, nothing
failing. -/
inductive Served (allowed : S3Request → Store → Prop) : List (S3Request × Bool) → Store → Prop
  | start : Served allowed [] Store.empty
  | step {hist : List (S3Request × Bool)} {s s' : Store} {req : S3Request} {r : Except S3Err S3Reply}
      (earlier : Served allowed hist s) (ok : allowed req s) (run : Runs Choice.Fine (req.handle c inlineMax) s r s') :
      Served allowed ((req, r.isOk) :: hist) s'

/-- The part numbers run upwards from `cnt + 1`. -/
def Numbered : ℤ → List ℤ → Prop
  | _, [] => True
  | cnt, n :: ns => n = cnt + 1 ∧ Numbered (cnt + 1) ns

/-- A complete that goes through: the parts it names are numbered from 1, and the records of
its upload and of these parts are there. -/
structure Completable (bucket key uploadId : Bytes) (upload : Option (List (Option ℤ))) (s : Store) : Prop where
  began : ∃ u, s.uploads.get (uploadKey bucket key uploadId) = some (.record u)
  named : ∃ ns, ns ≠ [] ∧ upload = some (ns.map some) ∧ Numbered 0 ns ∧ (ns.map (partKey bucket key uploadId)).Nodup ∧
    ∀ n ∈ ns, ∃ part, s.parts.get (partKey bucket key uploadId n) = some (.record part)

/-- **The requests that bring an absent bucket into existence.** -/
def Conjures : S3Request → Store → Prop
  | .deleteObject bucket _, s => s.hasTree bucket = false
  | .completeMultipartUpload bucket key uploadId upload, s =>
    s.hasTree bucket = false ∧ Completable bucket key uploadId upload s
  | _, _ => False

/-! ## Steps -/

/-- Every counter decodes. -/
def Counted (s : Store) : Prop := ∀ b, s.usage.get b ≠ some .garbage

/-- A step of a request on a bucket: if the bucket exists, the same buckets exist. -/
structure Quiet (bucket : Bytes) (s s' : Store) : Prop where
  trees : s.hasTree bucket = true → ∀ b, s'.hasTree b = s.hasTree b
  counted : Counted s → Counted s'

section Steps

variable {bucket key : Bytes} {s s' : Store}
variable {t : OrdMap Bytes (Cell Object)}

theorem Quiet.refl (s : Store) : Quiet bucket s s := ⟨fun _ _ => rfl, id⟩

theorem BesideObjects.quiet (h : BesideObjects s s') : Quiet bucket s s' := by
  refine ⟨fun _ b => ?_, fun hc b => ?_⟩
  · unfold Store.hasTree; rw [h.trees]
  · rw [h.usage]; exact hc b

theorem hasTree_insert {b : Bytes} {trees : OrdMap Bytes (OrdMap Bytes (Cell Object))} :
    ((trees.insert bucket t).get b).isSome = (decide (b = bucket) || (trees.get b).isSome) := by
  rw [get_insert]
  split
  · rename_i h; rw [decide_eq_true h]; rfl
  · rename_i h; rw [decide_eq_false h]; rfl

/-- The buckets after one tree was written. -/
theorem hasTree_of_insert {b : Bytes} (h : s'.trees = s.trees.insert bucket t) :
    s'.hasTree b = (decide (b = bucket) || s.hasTree b) := by
  unfold Store.hasTree
  rw [h, hasTree_insert]

theorem quiet_of_insert (h : s'.trees = s.trees.insert bucket t) (hc : Counted s → Counted s') : Quiet bucket s s' := by
  refine ⟨fun hb b => ?_, hc⟩
  rw [hasTree_of_insert h]
  by_cases hbb : b = bucket
  · rw [hbb, hb, decide_eq_true rfl]; rfl
  · rw [decide_eq_false hbb]; rfl

theorem counted_insert {n : ℕ} (hc : Counted s) (h : s'.usage = s.usage.insert bucket (.record n)) : Counted s' := by
  intro b
  rw [h, get_insert]
  split
  · exact nofun
  · exact hc b

theorem RecordTx.quiet {new : Option Object} {noting : List Event} (h : RecordTx bucket key new noting s s') :
    Quiet bucket s s' := by
  obtain ⟨old, usage, -, hcharged, rfl⟩ := h
  refine quiet_of_insert rfl fun hc => ?_
  rcases hcharged with ⟨-, -, rfl⟩ | ⟨current, -, rfl⟩
  · exact hc
  · exact counted_insert hc rfl

theorem treeOpen_quiet : Steps (Quiet bucket) (treeOpen bucket) fun _ => True :=
  write_steps .refl fun _ => quiet_of_insert rfl fun hc => hc

end Steps

/-- The program runs with nothing beside it and nothing failing. -/
abbrev Smoothly {α : Type} (p : StoreProg α) (Q : α → Store → Prop) (s : Store) : Prop :=
  Alone Choice.Fine (fun _ _ => True) p Q s

/-! ## Requests that create no bucket -/

/-- The same buckets exist. -/
structure Unmoved (s s' : Store) : Prop where
  trees : ∀ b, s'.hasTree b = s.hasTree b
  counted : Counted s → Counted s'

section Unmoved

variable {α β : Type} {bucket key : Bytes} {s : Store}

theorem Unmoved.refl (s : Store) : Unmoved s s := ⟨fun _ => rfl, id⟩

theorem quiet_alone {p : StoreProg α} (hp : Steps (Quiet bucket) p fun _ => True) (hs : s.hasTree bucket = true) :
    Smoothly p (fun _ => Unmoved s) s := by
  refine (alone_of_steps (I := Unmoved s) (fun s1 s2 h hI => ?_) hp (.refl s)).weaken (fun _ _ _ => trivial) fun _ _ h => h.2
  have hs1 : s1.hasTree bucket = true := by rw [hI.trees, hs]
  exact ⟨fun b => (h.trees hs1 b).trans (hI.trees b), fun hc => h.counted (hI.counted hc)⟩

theorem whenBucket_alone {p : StoreProg (Except S3Err S3Reply)} (hp : Steps (Quiet bucket) p fun _ => True) :
    Smoothly (whenBucket bucket p) (fun _ => Unmoved s) s := by
  refine alone_bind (alone_bucketExists trivial ?_)
  split
  · rename_i hfound; exact quiet_alone hp hfound
  · exact .refl s

theorem beside_alone {p : StoreProg α} (hp : Steps BesideObjects p fun _ => True) :
    Smoothly p (fun _ => Unmoved s) s := by
  refine (alone_of_steps (I := Unmoved s) (fun s1 s2 h hI => ?_) hp (.refl s)).weaken (fun _ _ _ => trivial) fun _ _ h => h.2
  have hquiet : Quiet [] s1 s2 := h.quiet
  refine ⟨fun b => ?_, fun hc => hquiet.counted (hI.counted hc)⟩
  unfold Store.hasTree
  rw [h.trees]
  exact hI.trees b

theorem quietly_alone {p : StoreProg (Except S3Err α)} {Q : Bool → Store → Prop}
    (h : Smoothly p (fun r => Q r.isOk) s) :
    Smoothly (quietly p) (fun r => Q r.isOk) s := by
  refine alone_andThen (h.mono fun r s' hr => ⟨fun a ha => ?_, fun e he => ?_⟩)
  · rw [ha] at hr; exact hr
  · rw [he] at hr; exact hr

theorem getObjectMeta_quiet : Steps (Quiet bucket) (getObjectMeta bucket key) fun _ => True :=
  Steps.thenTrue treeOpen_quiet fun _ => readStore_steps .refl

theorem getObjectPaths_quiet : Steps (Quiet bucket) (getObjectPaths bucket key) fun _ => True := by
  refine Steps.thenTrue getObjectMeta_quiet fun o => ?_
  cases o with
  | none => exact trivial
  | some o => exact Steps.thenTrue ((blockPaths_looks _).steps .refl) fun _ => trivial

theorem deleteObject_quiet : Steps (Quiet bucket) (deleteObject c bucket key) fun _ => True :=
  deleteObject_steps c (fun _ _ h => h.besideObjects.quiet) fun _ _ _ h => h.quiet

/-- A put looks before it writes. -/
theorem putObject_alone (validClass : Bool) (contentMd5 : Option (Option Bytes)) (body : Option (List (Option Bytes)))
    (contentLength : Option ℤ) :
    Smoothly (putObject c inlineMax bucket key validClass contentMd5 body contentLength)
      (fun _ => Unmoved s) s := by
  have hblk : ∀ s s', BlockStep s s' → Quiet bucket s s' := fun _ _ h => h.besideObjects.quiet
  have hrec : ∀ new s s', RecordTx bucket key new [] s s' → Quiet bucket s s' := fun _ _ _ h => h.quiet
  rcases putObject_cases (inherits_steps .refl) c (fun _ => deleteObject_quiet c) inlineMax validClass contentMd5 contentLength
    (storeInlinedObject_steps c hblk hrec) (fun _ _ _ => storeSingleObjectAndMeta_steps c hblk hrec _ _)
    with ⟨e, h⟩ | ⟨p, h, hp⟩
  · rw [h]; exact .refl s
  · rw [h]; exact whenBucket_alone hp

end Unmoved

/-! ## Creating and deleting buckets -/

section Buckets

variable {bucket : Bytes} {s : Store}

/-- The buckets are those the request and its answer say. -/
structure Moves (req : S3Request) (s : Store) (ok : Bool) (s' : Store) : Prop where
  trees : ∀ b, s'.hasTree b = req.mark ok b (s.hasTree b)
  counted : Counted s → Counted s'

/-- A create that succeeds adds its bucket, any other adds nothing. -/
theorem createBucket_moves :
    Smoothly (createBucket bucket) (fun r => Moves (.createBucket bucket) s r.isOk) s := by
  refine alone_bind (alone_bucketExists trivial ?_)
  split
  · exact ⟨fun _ => rfl, id⟩
  refine alone_bind (alone_step fun e now s' _ h => ⟨trivial, ?_⟩)
  cases h
  refine alone_tryStore ?_
  unfold insertBucket
  split
  · exact ⟨fun _ => rfl, id⟩
  refine alone_andThen (alone_write trivial trivial ⟨fun _ _ => ?_, nofun⟩)
  refine alone_andThen (alone_write trivial trivial ⟨fun _ _ => ?_, nofun⟩)
  refine alone_write trivial trivial ⟨fun b => ?_, fun hc => counted_insert hc rfl⟩
  change ((s.trees.insert bucket _).get b).isSome = (decide (bucket = b) || s.hasTree b)
  rw [hasTree_insert, decide_eq_decide.2 (eq_comm (a := b))]
  rfl

/-- Over a bucket that holds nothing it succeeds at once. -/
theorem deleteEach_empty (fuel : ℕ) (hempty : s.tree bucket = ∅) :
    Smoothly (deleteEach c bucket fuel none) (fun r s' => r = .ok () ∧ s' = s) s := by
  cases fuel with
  | zero => exact fun e v s' _ h => by cases h
  | succ fuel =>
    refine alone_andThen (alone_readStore trivial ⟨fun entry hentry => ?_, nofun⟩)
    rw [hempty] at hentry
    cases hentry
    exact ⟨rfl, rfl⟩

/-- A drop always succeeds, and takes one bucket. -/
theorem dropBucket_moves : Smoothly (dropBucket bucket)
      (fun r s' => r = .ok () ∧ (∀ b, s'.hasTree b = (decide (bucket ≠ b) && s.hasTree b)) ∧ (Counted s → Counted s')) s := by
  have hcounted : ∀ usage : OrdMap Bytes (Cell ℕ), (∀ b, usage.get b ≠ some .garbage) →
      ∀ b, (usage.erase bucket).get b ≠ some .garbage := by
    intro usage h b
    rw [get_erase]
    split
    · exact nofun
    · exact h b
  refine alone_andThen (alone_write trivial trivial ⟨fun _ _ => ?_, nofun⟩)
  refine alone_andThen (alone_write trivial trivial ⟨fun _ _ => ?_, nofun⟩)
  refine alone_bind (alone_bucketExists trivial ?_)
  split
  · refine alone_write trivial trivial ⟨rfl, fun b => ?_, fun hc => hcounted _ hc⟩
    change ((s.trees.erase bucket).get b).isSome = _
    rw [get_erase]
    by_cases hb : b = bucket
    · rw [if_pos hb, decide_eq_false (fun h => h hb.symm)]; rfl
    · rw [if_neg hb, decide_eq_true (Ne.symm hb)]; rfl
  rename_i hfound
  have habsent : s.hasTree bucket = false := Bool.eq_false_iff.2 hfound
  refine ⟨rfl, fun b => ?_, fun hc => hcounted _ hc⟩
  change s.hasTree b = _
  by_cases hb : bucket = b
  · rw [← hb, habsent, Bool.and_false]
  · rw [decide_eq_true hb, Bool.true_and]

/-- **A delete that completes takes its bucket, one that fails leaves the buckets as they were.** -/
theorem deleteBucket_moves (fuel : ℕ) :
    Smoothly (deleteBucket c fuel bucket) (fun r => Moves (.deleteBucket fuel bucket) s r.isOk) s := by
  refine alone_tryStore ?_
  refine alone_andThen (alone_write trivial trivial ⟨fun _ _ => ?_, nofun⟩)
  refine alone_andThen (alone_write trivial trivial ⟨fun _ _ => ?_, nofun⟩)
  -- the tree is open now, and what existed besides it exists
  set s1 := Store.setTree { s with buckets := s.buckets.erase bucket } bucket
    (Store.tree { s with buckets := s.buckets.erase bucket } bucket) with hs1
  have hopen : ∀ b, s1.hasTree b = (decide (b = bucket) || s.hasTree b) := fun b => hasTree_of_insert rfl
  have hthere : s1.hasTree bucket = true := by rw [hopen, decide_eq_true rfl]; rfl
  -- what a drop makes of that
  have hdrop : ∀ {s2 s3 : Store}, Unmoved s1 s2 → (∀ b, s3.hasTree b = (decide (bucket ≠ b) && s2.hasTree b)) →
      ∀ b, s3.hasTree b = (decide (bucket ≠ b) && s.hasTree b) := by
    intro s2 s3 h2 h3 b
    rw [h3, h2.trees, hopen]
    by_cases hb : bucket = b
    · rw [decide_eq_false (fun h => h hb)]; rfl
    · rw [decide_eq_false (Ne.symm hb)]; rfl
  cases hexists : s.hasTree bucket with
  | false =>
    have hempty : s1.tree bucket = ∅ := by
      have hnone : s.trees.get bucket = none := Option.not_isSome_iff_eq_none.1 (Bool.eq_false_iff.1 hexists)
      simp [hs1, Store.tree, Store.setTree, hnone]
    refine alone_andThen ((deleteEach_empty c fuel hempty).mono fun r s2 h => ?_)
    obtain ⟨rfl, rfl⟩ := h
    refine ⟨fun _ _ => dropBucket_moves.mono fun r s3 h => ?_, nofun⟩
    obtain ⟨rfl, htrees, hcounted⟩ := h
    exact ⟨hdrop (.refl _) htrees, hcounted⟩
  | true =>
    refine alone_andThen ((quiet_alone (inherits_deleteEach (inherits_steps .refl) c
      (fun _ => deleteObject_quiet c) fuel none) hthere).mono fun r s2 h => ⟨fun _ _ => ?_, fun e _ => ?_⟩)
    · refine dropBucket_moves.mono fun r s3 h3 => ?_
      obtain ⟨rfl, htrees, hcounted⟩ := h3
      exact ⟨hdrop h htrees, fun hc => hcounted (h.counted hc)⟩
    refine ⟨fun b => ?_, h.counted⟩
    rw [h.trees, hopen]
    by_cases hb : b = bucket
    · rw [hb, decide_eq_true rfl]; exact hexists.symm
    · rw [decide_eq_false hb]; rfl

end Buckets

/-! ## Completing an upload -/

section Complete

variable {bucket key uploadId : Bytes} {s : Store}

/-- The validation of a complete changes nothing, and passes exactly the parts that are there
and numbered in order. -/
theorem validateParts_alone : ∀ (named : List (Option ℤ)) (cnt : ℤ),
    Smoothly (validateParts bucket key uploadId cnt named)
      (fun r s' => s' = s ∧ ∀ ns, r = .ok ns ↔ named = ns.map some ∧ Numbered cnt ns ∧
        ∀ n ∈ ns, ∃ part, s.parts.get (partKey bucket key uploadId n) = some (.record part)) s := by
  intro named
  induction named with
  | nil =>
    refine fun cnt => ⟨rfl, fun ns => ⟨fun h => ?_, fun h => ?_⟩⟩
    · cases h; exact ⟨rfl, trivial, fun _ h => by cases h⟩
    · rw [List.map_eq_nil_iff.1 h.1.symm]
  | cons n named ih =>
    intro cnt
    cases n with
    | none =>
      refine ⟨rfl, fun ns => ⟨fun h => (by cases h), fun h => ?_⟩⟩
      cases ns with
      | nil | cons n ns => cases h.1
    | some n =>
      unfold validateParts
      split
      · rename_i hn
        refine ⟨rfl, fun ns => ⟨fun h => (by cases h), fun h => ?_⟩⟩
        cases ns with
        | nil => cases h.1
        | cons m ns =>
          obtain ⟨hnames, ⟨hm, -⟩, -⟩ := h
          cases hnames
          exact absurd hm hn
      rename_i hn
      have hn' : n = cnt + 1 := not_not.1 hn
      refine alone_bind (alone_readStore trivial ?_)
      -- the part is there and decodes, or the complete is refused
      have hrefused : (∀ part, s.parts.get (partKey bucket key uploadId n) ≠ some (.record part)) →
          ∀ ns, some n :: named = ns.map some ∧ Numbered cnt ns ∧
            (∀ n ∈ ns, ∃ part, s.parts.get (partKey bucket key uploadId n) = some (.record part)) → False := by
        intro habsent ns h
        cases ns with
        | nil => cases h.1
        | cons m ns =>
          obtain ⟨hnames, -, hparts⟩ := h
          cases hnames
          obtain ⟨part, hpart⟩ := hparts n List.mem_cons_self
          exact habsent part hpart
      unfold getMultipartPart
      split
      · rename_i part hr
        split at hr
        · cases hr
        · cases hr
        rename_i part' hpart
        cases hr
        refine alone_andThen ((ih (cnt + 1)).mono fun r s' h => ?_)
        obtain ⟨rfl, h⟩ := h
        refine ⟨fun rest hrest => ⟨rfl, fun ns => ⟨fun hns => ?_, fun hns => ?_⟩⟩, fun e he => ⟨rfl, fun ns => ⟨fun h => (by cases h), fun hns => ?_⟩⟩⟩
        · cases hns
          obtain ⟨hnames, hnum, hparts⟩ := (h rest).1 hrest
          refine ⟨by rw [hnames]; rfl, ⟨hn', hnum⟩, fun m hm => ?_⟩
          rcases List.mem_cons.1 hm with rfl | hm
          · exact ⟨_, hpart⟩
          · exact hparts m hm
        · cases ns with
          | nil => cases hns.1
          | cons m ns =>
            obtain ⟨hnames, ⟨-, hnum⟩, hparts⟩ := hns
            injection hnames with hm hnames
            cases hm
            have hok := (h ns).2 ⟨hnames, hnum, fun n hn => hparts n (List.mem_cons_of_mem _ hn)⟩
            cases hrest.symm.trans hok
            rfl
        · cases ns with
          | nil => cases hns.1
          | cons m ns =>
            obtain ⟨hnames, ⟨-, hnum⟩, hparts⟩ := hns
            injection hnames with hm hnames
            have hok := (h ns).2 ⟨hnames, hnum, fun n hn => hparts n (List.mem_cons_of_mem _ hn)⟩
            cases he.symm.trans hok
      · rename_i hr
        refine ⟨rfl, fun ns => ⟨fun h => (by cases h), fun h => (hrefused (fun part hpart => ?_) ns h).elim⟩⟩
        rw [hpart] at hr
        exact hr part rfl

/-- Taking parts succeeds when each is there, and no key comes twice. -/
theorem exists_taken : ∀ (ns : List ℤ) (s : Store), (ns.map (partKey bucket key uploadId)).Nodup →
    (∀ n ∈ ns, ∃ part, s.parts.get (partKey bucket key uploadId n) = some (.record part)) →
      ∃ parts s', Taken bucket key uploadId ns s parts s' := by
  intro ns
  induction ns with
  | nil => exact fun s _ _ => ⟨[], s, .nil s⟩
  | cons n ns ih =>
    intro s hnodup hthere
    obtain ⟨hnot, hnodup⟩ := List.nodup_cons.1 hnodup
    obtain ⟨part, hget⟩ := hthere n List.mem_cons_self
    have hrest : ∀ m ∈ ns, ∃ part, (s.parts.erase (partKey bucket key uploadId n)).get (partKey bucket key uploadId m) =
        some (.record part) := by
      intro m hm
      rw [get_erase_of_ne _ fun heq => hnot (List.mem_map.2 ⟨m, hm, heq⟩)]
      exact hthere m (List.mem_cons_of_mem _ hm)
    obtain ⟨parts, s', h⟩ := ih { s with parts := s.parts.erase (partKey bucket key uploadId n) } hnodup hrest
    exact ⟨_, s', .cons hget h⟩

/-- A record written into a bucket that does not exist: it does afterwards. -/
theorem createObjectMeta_conjures {size : ℕ} {hash : Bytes} {data : ObjectData} {noting : List Event}
    (habsent : s.hasTree bucket = false) (hcounted : Counted s) :
    Smoothly (createObjectMeta c bucket key size hash data noting)
      (fun _ s' => s'.hasTree bucket = true) s := by
  have htree : s.tree bucket = ∅ := by
    unfold Store.tree
    rw [Option.not_isSome_iff_eq_none.1 (Bool.eq_false_iff.1 habsent)]
    rfl
  refine alone_bind (alone_step fun e now s' _ h => ⟨trivial, ?_⟩)
  cases h
  refine alone_andThen (alone_transact trivial (fun old s' h => ⟨trivial, ?_⟩) fun err h => ?_)
  · obtain ⟨usage, hget, -, rfl⟩ := replaceObjectTx_ok h
    refine ⟨fun old hold => ?_, nofun⟩
    cases hold
    rw [htree] at hget
    cases old with
    | some o => cases hget
    | none =>
      change ((s.trees.insert bucket _).get bucket).isSome = true
      rw [get_insert_self]
      rfl
  · rcases replaceObjectTx_error h with hg | hg
    · rw [htree] at hg
      cases hg
    · exact absurd hg (hcounted bucket)

/-- **A complete of an upload to a bucket that does not exist** creates the bucket if it goes
through, and changes no bucket otherwise. -/
theorem completeMultipartUpload_absent (upload : Option (List (Option ℤ))) (habsent : s.hasTree bucket = false)
    (hcounted : Counted s) :
    Smoothly (completeMultipartUpload c bucket key uploadId upload)
      (fun _ s' => (¬ Completable bucket key uploadId upload s → Unmoved s s') ∧
        (Completable bucket key uploadId upload s → s'.hasTree bucket = true)) s := by
  -- a complete that cannot go through leaves the store as it is
  have hstop : ¬ Completable bucket key uploadId upload s → (¬ Completable bucket key uploadId upload s → Unmoved s s) ∧
        (Completable bucket key uploadId upload s → s.hasTree bucket = true) :=
    fun hnot => ⟨fun _ => .refl s, fun h => absurd h hnot⟩
  unfold completeMultipartUpload
  split
  · refine hstop fun h => ?_
    obtain ⟨ns, -, hnames, -⟩ := h.named
    cases hnames
  · refine hstop fun h => ?_
    obtain ⟨ns, hne, hnames, -⟩ := h.named
    injection hnames with hnames
    exact hne (List.map_eq_nil_iff.1 hnames.symm)
  rename_i m ms
  -- what completable amounts to once the upload and the parts were found
  have hparts : ∀ {ns : List ℤ}, Completable bucket key uploadId (some (m :: ms)) s → m :: ms = ns.map some →
      (ns.map (partKey bucket key uploadId)).Nodup := by
    intro ns h hnames
    obtain ⟨ns', -, hnames', -, hnodup, -⟩ := h.named
    injection hnames' with hnames'
    rw [hnames'] at hnames
    rwa [List.map_injective_iff.2 (Option.some_injective _) hnames] at hnodup
  refine alone_andThen (alone_tryStore (alone_readStore trivial ?_))
  cases hu : s.uploads.get (uploadKey bucket key uploadId) with
  | none =>
    have hget : getUpload bucket key uploadId s = .ok none := by unfold getUpload; rw [hu]
    rw [hget]
    refine ⟨fun u h => ?_, nofun⟩
    cases h
    refine hstop fun h => ?_
    obtain ⟨u, hrec⟩ := h.began
    cases hu.symm.trans hrec
  | some raw =>
    cases raw with
    | garbage =>
      have hget : getUpload bucket key uploadId s = .error .undecodable := by unfold getUpload; rw [hu]
      rw [hget]
      refine ⟨nofun, fun e _ => hstop fun h => ?_⟩
      obtain ⟨u, hrec⟩ := h.began
      cases hu.symm.trans hrec
    | record u =>
      have hget : getUpload bucket key uploadId s = .ok (some u) := by unfold getUpload; rw [hu]
      rw [hget]
      refine ⟨fun u' h => ?_, nofun⟩
      cases h
      refine alone_andThen ((validateParts_alone (m :: ms) 0).mono fun r s' h => ?_)
      obtain ⟨rfl, hvalid⟩ := h
      refine ⟨fun ns hns => ?_, fun e he => hstop fun h => ?_⟩
      swap
      · obtain ⟨ns, -, hnames, hnum, -, hthere⟩ := h.named
        have hok := (hvalid ns).2 ⟨Option.some.inj hnames, hnum, hthere⟩
        cases he.symm.trans hok
      obtain ⟨hnames, hnum, hthere⟩ := (hvalid ns).1 hns
      have htakes : Completable bucket key uploadId (some (m :: ms)) s' → ∃ parts s2, takeParts bucket key uploadId ns
          { s' with uploads := s'.uploads.erase (uploadKey bucket key uploadId)
                    log := s'.log ++ [.uploadWon (uploadKey bucket key uploadId)] } = .ok (.ok parts, s2) := by
        intro h
        obtain ⟨parts, s2, htaken⟩ := exists_taken ns { s' with
          uploads := s'.uploads.erase (uploadKey bucket key uploadId)
          log := s'.log ++ [.uploadWon (uploadKey bucket key uploadId)] } (hparts h hnames) hthere
        exact ⟨parts, s2, htaken.takeParts⟩
      refine alone_andThen (alone_tryStore (alone_transact trivial (fun claim s1 hclaim => ⟨trivial, ?_⟩) fun e he => ?_))
      · unfold claimTx takeUpload at hclaim
        simp only [hu] at hclaim
        split at hclaim
        · cases hclaim
        · -- a part is missing although it was found: two numbers share a key
          rename_i hr
          cases hclaim
          refine ⟨fun claim hc => ?_, nofun⟩
          cases hc
          refine hstop fun h => ?_
          obtain ⟨parts, s2, hok⟩ := htakes h
          cases hok.symm.trans hr
        · rename_i parts s2 hr
          cases hclaim
          refine ⟨fun claim hc => ?_, nofun⟩
          cases hc
          have htaken := takeParts_taken hr
          have hnodup := htaken.there.1
          obtain ⟨rfl, -⟩ := htaken.eq
          have hcompletable : Completable bucket key uploadId (some (m :: ms)) s' := by
            refine ⟨⟨u, hu⟩, ns, ?_, by rw [hnames], hnum, hnodup, hthere⟩
            rintro rfl
            cases hnames
          refine alone_tryStore ((createObjectMeta_conjures c ?_ ?_).mono fun _ s3 h3 => ⟨fun h => absurd hcompletable h, fun _ => h3⟩)
          · exact habsent
          · exact hcounted
      · unfold claimTx takeUpload at he
        simp only [hu] at he
        split at he
        · rename_i hr
          refine ⟨nofun, fun e _ => hstop fun h => ?_⟩
          obtain ⟨parts, s2, hok⟩ := htakes h
          cases hok.symm.trans hr
        · cases he
        · cases he

end Complete

/-! ## Every request -/

section Requests

variable {s : Store}

/-- **A request that does not conjure** leaves the buckets its answer says. -/
theorem handle_moves (req : S3Request) (hreq : ¬ Conjures req s) (hcounted : Counted s) :
    Smoothly (req.handle c inlineMax) (fun r => Moves req s r.isOk) s := by
  have hkept : ∀ {p : StoreProg (Except S3Err S3Reply)}, Smoothly p (fun _ => Unmoved s) s →
      (∀ ok b before, req.mark ok b before = before) → Smoothly p (fun r => Moves req s r.isOk) s := by
    intro p hp hmark
    refine hp.mono fun r s' h => ⟨fun b => ?_, h.counted⟩
    rw [hmark, h.trees]
  cases req with
  | createBucket bucket => exact quietly_alone createBucket_moves
  | deleteBucket fuel bucket => exact quietly_alone (deleteBucket_moves c fuel)
  | headBucket bucket | getBucketLocation bucket =>
    refine hkept (beside_alone (Steps.thenTrue (Steps.seq (bucketExists_steps .refl) fun found => trivial) fun _ => trivial))
      fun _ _ _ => rfl
  | listBuckets =>
    exact hkept (beside_alone (Steps.thenTrue (tryStore_steps (readStore_steps .refl)) fun _ => trivial)) fun _ _ _ => rfl
  | listObjects bucket =>
    exact hkept (whenBucket_alone (Steps.thenTrue (tryStore_steps treeOpen_quiet) fun _ =>
      Steps.thenTrue (tryStore_steps (readStore_steps .refl)) fun _ => trivial)) fun _ _ _ => rfl
  | listObjectsV2 bucket token =>
    refine hkept (whenBucket_alone (Steps.thenTrue (tryStore_steps treeOpen_quiet) fun _ => ?_)) fun _ _ _ => rfl
    split
    · exact trivial
    · exact Steps.thenTrue (tryStore_steps (readStore_steps .refl)) fun _ => trivial
  | getObject bucket key => exact hkept (whenBucket_alone (inherits_orUnavailable (inherits_steps .refl) _ getObjectPaths_quiet)) fun _ _ _ => rfl
  | headObject bucket key => exact hkept (whenBucket_alone (inherits_orUnavailable (inherits_steps .refl) _ getObjectMeta_quiet)) fun _ _ _ => rfl
  | putObject bucket key validClass contentMd5 body contentLength =>
    exact hkept (putObject_alone c inlineMax validClass contentMd5 body contentLength) fun _ _ _ => rfl
  | deleteObject bucket key =>
    have hthere : s.hasTree bucket = true := by
      unfold Conjures at hreq
      exact Bool.eq_true_of_not_eq_false hreq
    refine hkept (quiet_alone (Steps.thenTrue (tryStore_steps (Steps.thenTrue treeOpen_quiet fun _ =>
      readStore_steps .refl)) fun found => ?_) hthere) fun _ _ _ => rfl
    split
    · exact Steps.thenTrue (tryStore_steps (deleteObject_quiet c)) fun _ => trivial
    · exact trivial
  | deleteObjects bucket keys =>
    exact hkept (whenBucket_alone (Steps.seq (inherits_deleteKeys (inherits_steps .refl) c
      (fun _ => deleteObject_quiet c) keys) fun _ => trivial)) fun _ _ _ => rfl
  | copyObject => exact hkept (Unmoved.refl s) fun _ _ _ => rfl
  | createMultipartUpload bucket key uploadId =>
    exact hkept (whenBucket_alone (Steps.thenTrue (tryStore_steps ((createUpload_steps bucket key uploadId).mono
      (fun _ _ h => h.quiet) fun _ h => h)) fun _ => trivial)) fun _ _ _ => rfl
  | uploadPart bucket key uploadId partNumber body contentLength contentMd5 =>
    exact hkept (beside_alone (Steps.thenTrue (uploadPart_steps c _ _ _ _ _ _ _) fun _ => trivial)) fun _ _ _ => rfl
  | completeMultipartUpload bucket key uploadId upload =>
    cases hthere : s.hasTree bucket with
    | true =>
      refine hkept (quiet_alone (Steps.thenTrue (completeMultipartUpload_steps c bucket key uploadId upload
        (fun _ _ h => h.besideObjects.quiet) (fun _ _ _ _ h => h.quiet) fun ns s1 s2 _ h => ?_) fun _ => trivial) hthere)
        fun _ _ _ => rfl
      obtain ⟨-, -, -, rfl⟩ := h
      exact BesideObjects.quiet ⟨rfl, rfl, rfl⟩
    | false =>
      have hnot : ¬ Completable bucket key uploadId upload s := fun h => hreq ⟨hthere, h⟩
      refine hkept ?_ fun _ _ _ => rfl
      exact alone_andThen ((completeMultipartUpload_absent c upload hthere hcounted).mono fun r s' h =>
        ⟨fun _ _ => h.1 hnot, fun _ _ => h.1 hnot⟩)
  | abortMultipartUpload fuel bucket key uploadId =>
    exact hkept (beside_alone (Steps.thenTrue (abortMultipartUpload_steps c fuel bucket key uploadId) fun _ => trivial))
      fun _ _ _ => rfl
  | listParts fuel bucket key uploadId =>
    refine hkept (beside_alone (Steps.thenTrue (tryStore_steps (readStore_steps .refl)) fun u => ?_)) fun _ _ _ => rfl
    cases u with
    | none => exact trivial
    | some u => exact Steps.thenTrue (tryStore_steps ((uploadParts_looks _ _ _).steps .refl)) fun _ => trivial
  | listMultipartUploads fuel bucket =>
    exact hkept (whenBucket_alone (Steps.thenTrue (tryStore_steps ((listUploads_looks _ _).steps .refl)) fun _ => trivial))
      fun _ _ _ => rfl

/-- **A request that conjures** leaves a bucket that nobody created. -/
theorem handle_conjures (req : S3Request) (hreq : Conjures req s) (hcounted : Counted s) :
    Smoothly (req.handle c inlineMax)
      (fun r s' => ∃ b, s'.hasTree b ≠ req.mark r.isOk b (s.hasTree b)) s := by
  cases req with
  | deleteObject bucket key =>
    have habsent : s.hasTree bucket = false := hreq
    have hnone : s.trees.get bucket = none := Option.not_isSome_iff_eq_none.1 (Bool.eq_false_iff.1 habsent)
    refine alone_andThen (alone_tryStore (alone_andThen (alone_write trivial trivial ⟨fun _ _ => ?_, fun _ h => by cases h⟩)))
    refine alone_readStore trivial ⟨fun found hfound => ?_, fun _ h => by cases h⟩
    -- the tree is there now, and the key is not in it
    have hkey : found = false := by
      have h : found = (((s.setTree bucket (s.tree bucket)).tree bucket).get key).isSome := by cases hfound; rfl
      rw [h]
      simp [Store.tree, Store.setTree, hnone]
    rw [hkey]
    refine ⟨bucket, ?_⟩
    change ((s.trees.insert bucket _).get bucket).isSome ≠ s.hasTree bucket
    rw [get_insert_self, habsent]
    exact Bool.noConfusion
  | completeMultipartUpload bucket key uploadId upload =>
    obtain ⟨habsent, hcompletable⟩ := hreq
    have hmoved : ∀ (r : Except S3Err S3Reply) (s' : Store), s'.hasTree bucket = true →
        ∃ b, s'.hasTree b ≠ (S3Request.completeMultipartUpload bucket key uploadId upload).mark r.isOk b (s.hasTree b) := by
      intro r s' h
      refine ⟨bucket, ?_⟩
      change s'.hasTree bucket ≠ s.hasTree bucket
      rw [h, habsent]
      exact Bool.noConfusion
    exact alone_andThen ((completeMultipartUpload_absent c upload habsent hcounted).mono fun r s' h =>
      ⟨fun _ _ => hmoved _ _ (h.2 hcompletable), fun _ _ => hmoved _ _ (h.2 hcompletable)⟩)
  | _ => exact hreq.elim

end Requests

theorem live_cons (req : S3Request) (ok : Bool) (hist : List (S3Request × Bool)) (b : Bytes) :
    live b ((req, ok) :: hist) = req.mark ok b (live b hist) := rfl

/-- **A bucket exists exactly when it was created and not deleted since**, after every sequence
of requests of which none conjures; and a request that conjures breaks that. -/
theorem exists_iff_live {hist : List (S3Request × Bool)} {s : Store}
    (h : Served c inlineMax (fun req s => ¬ Conjures req s) hist s) :
    (∀ b, s.hasTree b = live b hist) ∧
      ∀ req r s', Conjures req s → Runs Choice.Fine (req.handle c inlineMax) s r s' →
        ∃ b, s'.hasTree b ≠ live b ((req, r.isOk) :: hist) := by
  have hinv : (∀ b, s.hasTree b = live b hist) ∧ Counted s := by
    induction h with
    | start => exact ⟨fun _ => rfl, fun _ => nofun⟩
    | step earlier ok run ih =>
      obtain ⟨hmoved, hcounted⟩ := (handle_moves c inlineMax _ ok ih.2).of_runs run
      refine ⟨fun b => ?_, hcounted ih.2⟩
      rw [hmoved, ih.1, live_cons]
  refine ⟨hinv.1, fun req r s' hreq hrun => ?_⟩
  obtain ⟨b, hb⟩ := (handle_conjures c inlineMax req hreq hinv.2).of_runs hrun
  refine ⟨b, ?_⟩
  rwa [live_cons, ← hinv.1]

/-- One more request, run to its end. -/
theorem Served.eval {allowed : S3Request → Store → Prop} {hist : List (S3Request × Bool)} {s s' : Store}
    {r : Except S3Err S3Reply} (h : Served c inlineMax allowed hist s) (req : S3Request) (ok : allowed req s)
    (heval : (req.handle c inlineMax).eval steady s = some (r, s')) :
    Served c inlineMax allowed ((req, r.isOk) :: hist) s' :=
  .step h ok (eval_runs steady_fine heval)

/-- A bucket is created, an object is put into it and deleted. -/
def createPutDelete : List (S3Request × Bool) :=
  [(.deleteObject [98] [107], true), (.putObject [98] [107] true none (some [some abc]) (some 3), true),
    (.createBucket [98], true)]

/-- The bucket is the one there is. -/
theorem live_after_delete : ∃ s, Served abcConfig 4096 (fun req s => ¬ Conjures req s) createPutDelete s ∧
    ∀ b, s.hasTree b = live b createPutDelete := by
  have h0 : Served abcConfig 4096 (fun req s => ¬ Conjures req s) [] Store.empty := .start
  have h1 := h0.eval abcConfig 4096 (.createBucket [98]) not_false rfl
  have h2 := h1.eval abcConfig 4096 (.putObject [98] [107] true none (some [some abc]) (some 3)) not_false rfl
  have h3 := h2.eval abcConfig 4096 (.deleteObject [98] [107]) nofun rfl
  exact ⟨_, h3, (exists_iff_live abcConfig 4096 h3).1⟩

/-- A delete of an object in a store without buckets answers that there is no such key, and
the bucket exists. -/
theorem conjured_bucket : ∃ s, Served abcConfig 4096 (fun _ _ => True) [(.deleteObject [98] [107], false)] s ∧
    s.hasTree [98] = true ∧ live [98] [(.deleteObject [98] [107], false)] = false := by
  have h0 : Served abcConfig 4096 (fun _ _ => True) [] Store.empty := .start
  have h1 := h0.eval abcConfig 4096 (.deleteObject [98] [107]) trivial rfl
  exact ⟨_, h1, rfl, rfl⟩

end QssStorage
