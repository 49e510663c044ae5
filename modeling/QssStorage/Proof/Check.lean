import QssStorage.Proof.Balance
import QssStorage.Proof.RoundTrip
import QssStorage.Proof.VerifiedReads
import QssStorage.Spec.Check

/-!
# What a check finds

A check that passes has found every block file in order, so it never passes on bytes that were not
uploaded. Whether it passes on an object whose files are all in order is decided by the content hash
alone: the writers of a single PUT store the hash of the bytes, but the object of several parts
carries the hash of the hashes of its parts, which the check compares with the hash of the bytes.

* `check_right_iff`: **objects of a single PUT are checked rightly; an object of several parts that is
  in order passes only if the two hashes happen to agree.**
-/

namespace QssStorage

open Conc Prog List

variable {c : Config} {s : Store} {bucket key : Bytes} {o : Object} {chunks : List Bytes}

/-! ## An object in order -/

theorem readWhole_ends {path : BlockId ×ₗ ℕ} {Q : Option Bytes → Store → Prop} (h : Q (s.files.get path) s) :
    Ends Choice.Fine (readWhole path) Q s :=
  ends_step fun e he => ⟨_, s, by rw [if_pos he.2.2.1], h⟩

theorem verifyBlocks_found {paths : List (BlockId × Block)} (h : List.Forall₂ (FoundAt c s) paths chunks) :
    Ends Choice.Fine (verifyBlocks c (chunks.map c.hash) (blockFiles paths)) (fun r s' => s' = s ∧ r = []) s := by
  induction h with
  | nil => exact ⟨rfl, rfl⟩
  | @cons p chunk paths chunks hp _ ih =>
    refine ends_bind (readWhole_ends ?_)
    rw [hp.2.2]
    refine ends_bind (ih.mono ?_)
    rintro _ _ ⟨rfl, rfl⟩
    exact ⟨rfl, if_pos rfl⟩

/-- The paths of a record whose chunks are there. -/
theorem getObjectPaths_ends (hget : (s.tree bucket).get key = some (.record o)) (hblocks : o.blocks = chunks.map c.hash)
    (hintact : Intact c chunks s) : Ends Choice.Fine (getObjectPaths bucket key)
      (fun r s' => ∃ paths, r = .ok (some (o, paths)) ∧ List.Forall₂ (FoundAt c s') paths chunks) s := by
  refine ends_andThen ((getObjectMeta_ends hget).mono ?_)
  rintro _ s1 ⟨rfl, rfl⟩
  refine ⟨some o, rfl, ?_⟩
  dsimp only
  rw [hblocks]
  refine ends_andThen ((blockPaths_ends (s := s.setTree bucket (s.tree bucket)) hintact).mono ?_)
  rintro _ _ ⟨rfl, paths, rfl, hpaths⟩
  exact ⟨paths, rfl, paths, rfl, hpaths⟩

/-- How a check of an object in order ends. -/
def intactOutcome (c : Config) (o : Object) (v : Bytes) : Except CheckErr CheckReply :=
  if c.md5 v = o.hash then .ok (.passed o.blocks.length) else .error (.failed [] o.blocks.length false)

/-- The verdict on bytes that were assembled, without a fault in the blocks. -/
theorem verdict_intact {v : Bytes} {s' : Store} : Ends Choice.Fine
    (if ([] : List BlockFault) = [] ∧ c.md5 v = o.hash then .ret (.ok (.passed o.blocks.length))
      else .ret (.error (.failed [] o.blocks.length (c.md5 v = o.hash))) : StoreProg (Except CheckErr CheckReply))
    (fun r _ => r = intactOutcome c o v) s' := by
  unfold intactOutcome
  by_cases hhash : c.md5 v = o.hash
  · rw [if_pos ⟨rfl, hhash⟩, if_pos hhash]
    rfl
  · rw [if_neg (fun h => hhash h.2), if_neg hhash, decide_eq_false hhash]
    rfl

/-- **An object in order** passes if its content hash is that of its bytes. -/
theorem check_intact (hnames : o.Names c chunks) (hget : (s.tree bucket).get key = some (.record o))
    (hintact : o.inlined = none → Intact c chunks s) {fuel : ℕ} (hfuel : passes chunks < fuel) :
    Ends Choice.Fine (checkIntegrity c fuel bucket key) (fun r _ => r = intactOutcome c o chunks.flatten) s := by
  obtain ⟨-, hsmall, hinline | ⟨hnone, hblocks⟩⟩ := hnames
  · -- the bytes come out of the record, and there is no block to verify
    have hblocks : o.blocks = List.map c.hash [] := Object.blocks_of_inlined hinline
    refine ends_bind ((getObjectPaths_ends hget hblocks nofun).mono ?_)
    rintro _ s1 ⟨paths, rfl, hfound⟩
    have hverify := verifyBlocks_found hfound
    rw [← hblocks] at hverify
    refine ends_bind (hverify.mono ?_)
    rintro _ _ ⟨rfl, rfl⟩
    unfold readObject
    rw [hinline]
    exact verdict_intact
  · refine ends_bind ((getObjectPaths_ends hget hblocks (hintact hnone)).mono ?_)
    rintro _ s1 ⟨paths, rfl, hfound⟩
    have hverify := verifyBlocks_found hfound
    rw [← hblocks] at hverify
    refine ends_bind (hverify.mono ?_)
    rintro _ _ ⟨rfl, rfl⟩
    unfold readObject
    rw [hnone]
    have hstream := blockStream_ends hsmall hblocks hfound .all false hfuel
    refine ends_bind (hstream.mono ?_)
    rintro _ _ ⟨rfl, rfl⟩
    have hwhole : window chunks 0 chunks.flatten.length = chunks.flatten := by
      rw [window, Nat.sub_zero, drop_zero, take_length]
    rw [hwhole]
    exact verdict_intact

/-! ## Any state -/

/-- The file of a block, at the depth its record says. -/
def Store.fileOf (s : Store) (id : BlockId) : Option Bytes :=
  match s.blocks.get id with
  | some (.record block) => s.files.get (toLex (id, diskDepth id block.depth))
  | _ => none

/-- Every block file of the object hashes to its address. -/
def AllMatch (c : Config) (s : Store) (o : Object) : Prop :=
  ∀ id ∈ o.blocks, ∃ content, s.fileOf id = some content ∧ c.hash content = id

/-- How far a stream that does not verify has to go. -/
def BlockStream.toGo (b : BlockStream) : ℕ :=
  (b.size - b.processed) + 2 * (b.paths.length - b.fp) + if b.file.isSome then 1 else 0

/-- Whatever the files hold, the body comes to an end. -/
theorem collect_answers (c : Config) : ∀ (fuel : ℕ) {b : BlockStream} (body : Bytes), b.range = .all → b.verify = none →
    b.toGo < fuel → Ends (fun _ => True) (b.collect c fuel body) (fun _ s' => s' = s) s := by
  intro fuel
  induction fuel with
  | zero => intro b body _ _ h; exact absurd h (Nat.not_lt_zero _)
  | succ fuel ih =>
    intro b body hrange hverify hfuel
    refine ends_bind ?_
    rw [poll_whole c hrange]
    split
    · rfl
    rename_i hmore
    split
    · rename_i file hfile
      unfold BlockStream.toGo at hfuel
      rw [hfile, Option.isSome_some, if_pos rfl] at hfuel
      unfold BlockStream.pollFile
      split
      · rename_i ids hids
        cases hverify.symm.trans hids
      refine ends_bind (ends_step fun e _ => ?_)
      by_cases he : e.read = true
      · rw [if_pos he]
        refine ⟨_, s, rfl, ?_⟩
        generalize (file.content.drop file.pos).take (min (max e.amount 1) (min (b.size - b.processed) 4096)) = bytes
        cases bytes with
        | nil =>
          refine ih body hrange hverify ?_
          unfold BlockStream.toGo
          dsimp only
          rw [Option.isSome_none, if_neg Bool.false_ne_true]
          omega
        | cons x bytes =>
          refine ih _ hrange hverify ?_
          unfold BlockStream.toGo
          dsimp only
          rw [Option.isSome_some, if_pos rfl, length_cons]
          omega
      · rw [if_neg he]
        exact ⟨_, s, rfl, rfl⟩
    · rename_i hfile
      unfold BlockStream.toGo at hfuel
      rw [hfile, Option.isSome_none, if_neg Bool.false_ne_true] at hfuel
      split
      · rfl
      rename_i entry hentry
      have hlt : b.fp < b.paths.length := (List.getElem?_eq_some_iff.1 hentry).1
      refine ends_bind (ends_step fun e _ => ?_)
      by_cases he : e.read = true
      · rw [if_pos he]
        cases s.files.get entry.1 with
        | none => exact ⟨_, s, rfl, rfl⟩
        | some content =>
          refine ⟨_, s, rfl, ih body hrange hverify ?_⟩
          unfold BlockStream.toGo
          dsimp only
          rw [Option.isSome_some, if_pos rfl]
          omega
      · rw [if_neg he]
        exact ⟨_, s, rfl, rfl⟩

/-- The block records that were found. -/
def PathsFound (s : Store) (ids : List BlockId) (paths : List (BlockId × Block)) : Prop :=
  List.Forall₂ (fun id p => p.1 = id ∧ s.blocks.get id = some (.record p.2)) ids paths

theorem blockPaths_answers : ∀ ids : List BlockId, Ends (fun _ => True) (blockPaths ids)
    (fun r s' => s' = s ∧ ∀ paths, r = .ok paths → PathsFound s ids paths) s := by
  intro ids
  induction ids with
  | nil => exact ⟨rfl, fun paths h => by cases h; exact .nil⟩
  | cons id ids ih =>
    refine ends_bind (ends_step fun e _ => ?_)
    by_cases he : e.read = true
    swap
    · rw [if_neg he]
      exact ⟨_, s, rfl, rfl, nofun⟩
    rw [if_pos he]
    refine ⟨_, s, rfl, ?_⟩
    dsimp only
    cases hblock : s.blocks.get id with
    | none => exact ⟨rfl, nofun⟩
    | some cell =>
      cases cell with
      | garbage => exact ⟨rfl, nofun⟩
      | record block =>
        refine ends_bind (ih.mono ?_)
        rintro r _ ⟨rfl, hrest⟩
        cases r with
        | error e => exact ⟨rfl, nofun⟩
        | ok rest =>
          refine ⟨rfl, fun paths h => ?_⟩
          cases h
          exact .cons ⟨rfl, hblock⟩ (hrest rest rfl)

/-- A verification without a fault. -/
theorem verifyBlocks_answers : ∀ {ids : List BlockId} {paths : List (BlockId × Block)}, PathsFound s ids paths →
    Ends (fun _ => True) (verifyBlocks c ids (blockFiles paths)) (fun r s' => s' = s ∧
      (r = [] → ∀ id ∈ ids, ∃ content, s.fileOf id = some content ∧ c.hash content = id)) s := by
  intro ids
  induction ids with
  | nil => intro paths h; cases h; exact ⟨rfl, fun _ => nofun⟩
  | cons id ids ih =>
    intro paths h
    cases h with
    | @cons _ p _ paths hp hrest =>
      obtain ⟨rfl, hblock⟩ := hp
      refine ends_bind (ends_step fun e _ => ⟨_, s, rfl, ends_bind ((ih hrest).mono ?_)⟩)
      rintro faults s ⟨rfl, hfaults⟩
      by_cases he : e.read = true
      swap
      · rw [if_neg he]
        exact ⟨rfl, nofun⟩
      rw [if_pos he]
      have hfileOf : s.fileOf p.1 = s.files.get (toLex (p.1, diskDepth p.1 p.2.depth)) := by
        unfold Store.fileOf
        rw [hblock]
      cases hfile : s.files.get (toLex (p.1, diskDepth p.1 p.2.depth)) with
      | none => exact ⟨rfl, nofun⟩
      | some bytes =>
        refine ⟨rfl, fun hnone => ?_⟩
        split at hnone
        · rename_i hhash
          exact forall_mem_cons.2 ⟨⟨bytes, hfileOf.trans hfile, hhash⟩, hfaults hnone⟩
        · cases hnone

/-- The record is read, or an error comes first. -/
theorem getObjectMeta_answers (hget : (s.tree bucket).get key = some (.record o)) :
    Ends (fun _ => True) (getObjectMeta bucket key) (fun r s' => (s'.blocks = s.blocks ∧ s'.files = s.files) ∧
      ∀ found, r = .ok found → found = some o) s := by
  refine ends_bind (ends_step fun e _ => ?_)
  have htree : ((s.setTree bucket (s.tree bucket)).tree bucket).get key = some (.record o) := by
    rw [tree_setTree, if_pos rfl]
    exact hget
  cases e.commit with
  | failed => exact ⟨_, s, rfl, ⟨rfl, rfl⟩, nofun⟩
  | applied => exact ⟨_, _, rfl, ⟨rfl, rfl⟩, nofun⟩
  | ok =>
    refine ⟨_, _, rfl, ends_step fun e _ => ?_⟩
    by_cases he : e.read = true
    · refine ⟨_, _, if_pos he, ⟨rfl, rfl⟩, fun found hfound => ?_⟩
      unfold getMeta at hfound
      rw [htree] at hfound
      exact (Except.ok.inj hfound).symm
    · exact ⟨_, _, if_neg he, ⟨rfl, rfl⟩, nofun⟩

/-- What a check says of an object with this record: an error, unless every block file matches. -/
def Spoken (c : Config) (s : Store) (o : Object) (r : Except CheckErr CheckReply) : Prop :=
  (∃ e, r = .error e) ∨ (∃ n, r = .ok (.passed n)) ∧ AllMatch c s o

/-- The bytes the block records of an object speak of. -/
def Store.recordedSize (s : Store) (ids : List BlockId) : ℕ :=
  (ids.map fun id => match s.blocks.get id with
    | some (.record block) => block.size
    | _ => 0).sum

theorem PathsFound.sizes : ∀ {ids : List BlockId} {paths : List (BlockId × Block)}, PathsFound s ids paths →
    ((blockFiles paths).map Prod.snd).sum = s.recordedSize ids ∧ (blockFiles paths).length = ids.length := by
  intro ids
  induction ids with
  | nil => intro paths h; cases h; exact ⟨rfl, rfl⟩
  | cons id ids ih =>
    intro paths h
    cases h with
    | @cons _ p _ paths hp hrest =>
      obtain ⟨hsum, hlen⟩ := ih hrest
      have hcons : blockFiles (p :: paths) = (toLex (p.1, diskDepth p.1 p.2.depth), p.2.size) :: blockFiles paths := rfl
      rw [hcons, map_cons, sum_cons, length_cons, hsum, hlen]
      unfold Store.recordedSize
      rw [map_cons, sum_cons, hp.2]
      exact ⟨rfl, rfl⟩

/-- **In every state a check comes to an end**, and passes only if every block file matches. -/
theorem check_answers (hget : (s.tree bucket).get key = some (.record o)) {fuel : ℕ}
    (hfuel : s.recordedSize o.blocks + 2 * o.blocks.length < fuel) :
    Ends (fun _ => True) (checkIntegrity c fuel bucket key) (fun r _ => Spoken c s o r) s := by
  have hpaths : Ends (fun _ => True) (getObjectPaths bucket key) (fun r s' => (s'.blocks = s.blocks ∧ s'.files = s.files) ∧
      ∀ found, r = .ok found → ∃ paths, found = some (o, paths) ∧ PathsFound s' o.blocks paths) s := by
    refine ends_bind ((getObjectMeta_answers hget).mono ?_)
    rintro r s' ⟨hsame, hfound⟩
    cases r with
    | error e => exact ⟨hsame, nofun⟩
    | ok found =>
      obtain rfl := hfound found rfl
      refine ends_bind ((blockPaths_answers o.blocks).mono ?_)
      rintro r s'' ⟨rfl, hblocks⟩
      cases r with
      | error e => exact ⟨hsame, nofun⟩
      | ok paths =>
        refine ⟨hsame, fun found hfound => ⟨paths, ?_, hblocks paths rfl⟩⟩
        exact (Except.ok.inj hfound).symm
  refine ends_bind (hpaths.mono ?_)
  rintro r s' ⟨⟨hblocks, hfiles⟩, hfound⟩
  have hfileOf : ∀ id, s'.fileOf id = s.fileOf id := by
    intro id
    unfold Store.fileOf
    rw [hblocks, hfiles]
  cases r with
  | error e => exact .inl ⟨_, rfl⟩
  | ok found =>
    obtain ⟨paths, rfl, hpaths⟩ := hfound found rfl
    obtain ⟨hsum, hlen⟩ := hpaths.sizes
    have hsize : s'.recordedSize o.blocks = s.recordedSize o.blocks := by
      unfold Store.recordedSize
      rw [hblocks]
    refine ends_bind ((verifyBlocks_answers hpaths).mono ?_)
    rintro faults s'' ⟨rfl, hmatch⟩
    have hread : Ends (fun _ => True) (readObject c fuel o (blockFiles paths)) (fun _ s' => s' = s'') s'' := by
      unfold readObject
      split
      · exact rfl
      refine collect_answers c fuel [] rfl rfl ?_
      unfold BlockStream.toGo BlockStream.new
      dsimp only
      rw [hsum, hlen, hsize, Option.isSome_none, if_neg Bool.false_ne_true]
      omega
    refine ends_bind (hread.mono ?_)
    rintro r s' rfl
    cases r with
    | error e => exact .inl ⟨_, rfl⟩
    | ok data =>
      dsimp only
      split
      · rename_i hgood
        refine .inr ⟨⟨_, rfl⟩, fun id hid => ?_⟩
        obtain ⟨content, hcontent, hhash⟩ := hmatch hgood.1 id hid
        exact ⟨content, (hfileOf id).symm.trans hcontent, hhash⟩
      · exact .inl ⟨_, rfl⟩

/-! ## Objects that were uploaded -/

/-- The bytes of the files of some blocks, one after the other. -/
def Store.joined (s : Store) : List BlockId → Option Bytes
  | [] => some []
  | id :: ids => (s.fileOf id).bind fun content => (s.joined ids).map fun rest => content ++ rest

/-- The bytes of an object, as they are stored now. -/
def Store.assembled (s : Store) (o : Object) : Option Bytes :=
  match o.inlined with
  | some data => some data
  | none => s.joined o.blocks

/-- No file in the store has the address of a chunk without being the chunk. -/
def NoCollision (c : Config) (chunks : List Bytes) (s : Store) : Prop :=
  ∀ path content, s.files.get path = some content → ∀ chunk ∈ chunks, c.hash content = c.hash chunk → content = chunk

theorem joined_of_match (hfree : NoCollision c chunks s)
    (h : ∀ id ∈ chunks.map c.hash, ∃ content, s.fileOf id = some content ∧ c.hash content = id) :
    s.joined (chunks.map c.hash) = some chunks.flatten := by
  induction chunks with
  | nil => rfl
  | cons chunk chunks ih =>
    obtain ⟨content, hfile, hhash⟩ := h _ mem_cons_self
    have hcontent : content = chunk := by
      have hstored := hfile
      unfold Store.fileOf at hstored
      split at hstored
      · exact hfree _ content hstored chunk mem_cons_self hhash
      · cases hstored
    have hrest := ih (fun path content hget x hx => hfree path content hget x (mem_cons_of_mem _ hx))
      fun id hid => h id (mem_cons_of_mem _ hid)
    rw [map_cons, Store.joined, hfile, hrest, hcontent]
    rfl

/-- Files that all match hold what was uploaded. -/
theorem assembled_of_match (hnames : o.Names c chunks) (hfree : NoCollision c chunks s) (h : AllMatch c s o) :
    s.assembled o = some chunks.flatten := by
  unfold Store.assembled
  obtain ⟨-, -, hinline | ⟨hnone, hblocks⟩⟩ := hnames
  · rw [hinline]
  · unfold AllMatch at h
    rw [hblocks] at h
    rw [hnone, hblocks]
    exact joined_of_match hfree h

/-- **A check is right about an object**: it passes if all block files hold the chunks that were written, and it fails if
the file of a block does not hash to its address or the bytes are not the uploaded ones. -/
structure ChecksRight (c : Config) (bucket key : Bytes) (o : Object) (chunks : List Bytes) (v : Bytes) (s : Store) : Prop where
  passes : (o.inlined = none → Intact c chunks s) → ∃ bound, ∀ fuel, bound < fuel →
    Ends Choice.Fine (checkIntegrity c fuel bucket key) (fun r _ => ∃ n, r = .ok (.passed n)) s
  fails : ¬ AllMatch c s o ∨ s.assembled o ≠ some v → ∃ bound, ∀ fuel, bound < fuel →
    Ends (fun _ => True) (checkIntegrity c fuel bucket key) (fun r _ => ∃ e, r = .error e) s

/-- For a record that names its chunks, the content hash decides. -/
theorem checksRight_iff (hnames : o.Names c chunks) (hget : (s.tree bucket).get key = some (.record o))
    (hfree : NoCollision c chunks s) : ChecksRight c bucket key o chunks chunks.flatten s ↔
      ((o.inlined = none → Intact c chunks s) → c.md5 chunks.flatten = o.hash) := by
  constructor
  · intro h hintact
    by_contra hhash
    obtain ⟨bound, hpass⟩ := h.passes hintact
    have hends := check_intact hnames hget hintact (show passes chunks < bound + passes chunks + 1 by omega)
    obtain ⟨r, s', hrun, n, rfl⟩ := (hpass (bound + passes chunks + 1) (by omega)).eval steady_fine
    obtain ⟨r', s'', hrun', hr'⟩ := hends.eval steady_fine
    have hsame := Option.some.inj (hrun.symm.trans hrun')
    rw [← (Prod.mk.inj hsame).1, intactOutcome, if_neg hhash] at hr'
    cases hr'
  · intro h
    refine ⟨fun hintact => ⟨passes chunks, fun fuel hfuel => ?_⟩, fun hbad =>
      ⟨s.recordedSize o.blocks + 2 * o.blocks.length, fun fuel hfuel => ?_⟩⟩
    · refine (check_intact hnames hget hintact hfuel).mono fun r s' hr => ?_
      rw [hr, intactOutcome, if_pos (h hintact)]
      exact ⟨_, rfl⟩
    refine (check_answers hget hfuel).mono fun r s' hr => ?_
    rcases hr with herr | ⟨-, hmatch⟩
    · exact herr
    · rcases hbad with hno | hother
      · exact absurd hmatch hno
      · exact absurd (assembled_of_match hnames hfree hmatch) hother

/-- What the acknowledgement of an upload says about later checks. -/
def Checkable (c : Config) (since till : ℕ) (l : Timeline Store) (r : S3Request) : Prop :=
  Attests {
    put := fun bucket key _ pieces o =>
      ∀ s', (s'.tree bucket).get key = some (.record o) → NoCollision c (chunksOf pieces) s' →
        ChecksRight c bucket key o (chunksOf pieces) pieces.flatten s'
    part := PartRecord c
    joined := fun bucket key ps o => ∀ bodies : List (List Bytes), List.Forall₂ (PartRecord c) bodies ps →
      ∀ s'', (s''.tree bucket).get key = some (.record o) → NoCollision c (bodies.flatMap chunksOf) s'' →
        (ChecksRight c bucket key o (bodies.flatMap chunksOf) (bodies.flatMap List.flatten) s'' ↔
          (Intact c (bodies.flatMap chunksOf) s'' →
            c.md5 (bodies.flatMap List.flatten) = c.md5 (bodies.flatMap fun pieces => c.md5 pieces.flatten)))
  } since till l r

theorem PutRecord.hash {pieces : List Bytes} (h : PutRecord c pieces o) : o.hash = c.md5 pieces.flatten := by
  obtain ⟨now, rfl | rfl⟩ := h <;> rfl

theorem hashes_of_parts {bodies : List (List Bytes)} {ps : List MultiPart} (h : List.Forall₂ (PartRecord c) bodies ps) :
    ps.flatMap MultiPart.hash = bodies.flatMap fun pieces => c.md5 pieces.flatten := by
  induction h with
  | nil => rfl
  | cons hp _ ih => rw [flatMap_cons, flatMap_cons, ih, hp.2]

theorem OnRecord.checkable {since till : ℕ} {l : Timeline Store} {r : S3Request} (h : OnRecord c since till l r) :
    Checkable c since till l r := by
  refine Attests.imp h (fun {_ _ _ pieces _} hrecord s' hget hfree => ?_) id (fun {_ _ ps _} hrecord bodies hbodies s' hget hfree => ?_)
    (Timeline.extends_refl l) (le_refl till)
  · have hiff := checksRight_iff hrecord.names hget hfree
    rw [(chunksOf_spec pieces).2.1] at hiff
    exact hiff.2 fun _ => hrecord.hash.symm
  obtain ⟨now, rfl⟩ := hrecord
  have hnamed : List.Forall₂ (MultiPart.Names c) bodies ps := hbodies.imp fun _ _ hp => hp.1
  have hiff := checksRight_iff (names_multiPart hnamed) hget hfree
  rw [flatten_flatMap_chunksOf] at hiff
  rw [hiff, ← hashes_of_parts hbodies]
  exact ⟨fun h hintact => h fun _ => hintact, fun h hintact => h (hintact rfl)⟩

variable {ρ : Type}

/-- **What a check says of an uploaded object**, whatever else the server did before: an object of a single PUT is checked
rightly in every state in which its record stands; an object of several parts is, unless its files are all in order and the
hash of its bytes is not the hash of the hashes of its parts. -/
theorem check_right_iff (c : Config) (inlineMax : ℕ) (verifyOnRead : Bool) (k : RangeCheck ρ) (s0 : Store)
    (w : Pool (Timeline Store) Choice ℕ (S3Answer ρ))
    (hw : Pool.Reach (s3System c inlineMax verifyOnRead k) (fun _ _ => True) (Pool.start (Timeline.start s0)) w)
    (t : Thread (Timeline Store) Choice ℕ (S3Answer ρ)) (ht : t ∈ w.threads) (since till : ℕ) (r : S3Request)
    (reply : S3Reply) (hacked : t.result = some (.replied since r (.ok reply) till)) : Checkable c since till w.st r :=
  (reach_onRecord hw ht hacked).checkable

/-- A store that knows the MD5 of `abc` and of that digest. -/
def twiceConfig : Config :=
  { abcConfig with
    md5 := fun bytes => if bytes = abc then abcConfig.md5 abc else
      [175, 93, 169, 244, 90, 247, 163, 0, 227, 173, 237, 151, 47, 143, 246, 135] }

/-- An upload of `abc` in one part, by requests that are all acknowledged. -/
def uploadInParts : StoreProg (Except S3Err S3Reply) :=
  (S3Request.handle twiceConfig 0 (.createBucket [98])).andThen fun _ =>
    (S3Request.handle twiceConfig 0 (.createMultipartUpload [98] [107] [1])).andThen fun _ =>
      (S3Request.handle twiceConfig 0 (.uploadPart [98] [107] [1] 1 (some [some abc]) (some 3) none)).andThen fun _ =>
        S3Request.handle twiceConfig 0 (.completeMultipartUpload [98] [107] [1] (some [some 1]))

/-- The file of the one block is in order, and the check says that nothing but the object hash is wrong. -/
def partsChecked (s : Store) : Bool :=
  s.blocks.get abcId = some (.record (Block.new 3 1)) && s.files.get (toLex (abcId, 1)) = some abc &&
    ((checkIntegrity twiceConfig 20 [98] [107]).eval steady s).map Prod.fst = some (.error (.failed [] 1 false))

/-- An object of one part whose block file is in order does not pass. -/
theorem multipart_check_fails : ∃ s r s', uploadInParts.eval steady Store.empty = some (.ok .done, s) ∧
    Intact twiceConfig [abc] s ∧ (checkIntegrity twiceConfig 20 [98] [107]).eval steady s = some (r, s') ∧
    r = .error (.failed [] 1 false) := by
  have hrun : (uploadInParts.eval steady Store.empty).map (fun r => (r.1, partsChecked r.2)) = some (.ok .done, true) := by
    decide +kernel
  obtain ⟨⟨reply, s⟩, heval, hdone⟩ := Option.map_eq_some_iff.1 hrun
  obtain ⟨rfl, hchecked⟩ := Prod.mk.inj hdone
  simp only [partsChecked, Bool.and_eq_true, decide_eq_true_eq] at hchecked
  obtain ⟨⟨hblock, hfile⟩, hcheck⟩ := hchecked
  obtain ⟨⟨r, s'⟩, hcheck, hr⟩ := Option.map_eq_some_iff.1 hcheck
  refine ⟨s, r, s', heval, fun chunk hchunk => ?_, hcheck, hr⟩
  obtain rfl := mem_singleton.1 hchunk
  exact ⟨Block.new 3 1, hblock, rfl, hfile⟩

theorem check_right_iff_put : ∃ w,
    (Pool.start (Timeline.start Store.empty)).exec (s3System abcConfig 0 false firstLast) putInPieces = some w ∧
    ChecksRight abcConfig [98] [107] abcRecord [abc] abc w.st.now := by
  have hrun : ((Pool.start (Timeline.start Store.empty)).exec (s3System abcConfig 0 false firstLast) putInPieces).map
      (fun w => (putInPiecesDone w, w.st.now.files.entries.all fun e => e.2 = abc)) = some (true, true) := by decide +kernel
  obtain ⟨w, hw, hdone⟩ := Option.map_eq_some_iff.1 hrun
  obtain ⟨hdone, hfiles⟩ := Prod.mk.inj hdone
  simp only [putInPiecesDone, Bool.and_eq_true, decide_eq_true_eq] at hdone
  obtain ⟨⟨⟨⟨hresult, hmoments⟩, hrecord⟩, -⟩, -⟩ := hdone
  obtain ⟨t, ht, hresult⟩ := Option.bind_eq_some_iff.1 hresult
  have hcheckable := check_right_iff abcConfig 0 false firstLast Store.empty w
    (Pool.Reach.refl.exec (fun _ _ _ => trivial) hw) t (mem_of_getElem? ht) 5 16 _ _ hresult
  have hchunks : chunksOf [[97], [98, 99]] = [abc] := by decide +kernel
  obtain ⟨m, s, o, -, -, hs, hget, hright⟩ := hcheckable [[97], [98, 99]] rfl
  -- the record is the one that is still there
  have hsame : o = abcRecord := by
    have hall := all_eq_true.1 hmoments s (mem_of_getElem? hs)
    rw [hget, Option.all_some, decide_eq_true_eq, Cell.record.injEq] at hall
    exact hall
  subst hsame
  dsimp only at hright
  rw [hchunks] at hright
  refine ⟨w, hw, hright w.st.now hrecord fun path content hcontent chunk hchunk _ => ?_⟩
  rw [mem_singleton.1 hchunk]
  exact of_decide_eq_true (all_eq_true.1 hfiles (path, content) (OrdMap.mem_entries.2 hcontent))

end QssStorage
