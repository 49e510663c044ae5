import QssStorage.Proof.Acknowledged

/-!
# What was uploaded is what a GET answers

A body is cut into chunks of at most a block, whatever pieces it came in (`chunksOf`), and the
record of an acknowledged upload names these chunks in order, or holds the bytes itself. As
long as the record stands and its chunks are on disk (`Intact`), a GET answers the body, or the
window of a satisfiable range, with headers that agree.

* `get_returns_upload`: **a GET answers what was uploaded.**
-/

namespace QssStorage

open Conc Prog List

/-! ## Reading back -/

section Reading

variable (c : Config)

/-- The chunks are recorded and on disk. -/
def Intact (chunks : List Bytes) (s : Store) : Prop :=
  ∀ chunk ∈ chunks, ∃ block, s.blocks.get (c.hash chunk) = some (.record block) ∧ block.size = chunk.length ∧
    s.files.get (toLex (c.hash chunk, diskDepth (c.hash chunk) block.depth)) = some chunk

/-- The answer carries `v`, and its headers agree with that. `Content-Length` is an `i64`. -/
structure Answers (out : GetObjectOutput) (v : Bytes) (contentRange : Option String) : Prop where
  body : out.body = .ok v
  length : v.length < 2 ^ 63 → out.contentLength = v.length
  range : out.contentRange = contentRange

/-- A path that was found for a chunk. -/
def FoundAt (s : Store) (p : BlockId × Block) (chunk : Bytes) : Prop :=
  p.1 = c.hash chunk ∧ p.2.size = chunk.length ∧ s.files.get (toLex (p.1, diskDepth p.1 p.2.depth)) = some chunk

variable {c} {s : Store}

/-- The paths of chunks that are there. -/
theorem blockPaths_ends : ∀ {chunks : List Bytes}, Intact c chunks s → Ends Choice.Fine (blockPaths (chunks.map c.hash))
      (fun r s' => s' = s ∧ ∃ paths, r = .ok paths ∧ List.Forall₂ (FoundAt c s) paths chunks) s := by
  intro chunks
  induction chunks with
  | nil => intro _; exact ⟨rfl, [], rfl, .nil⟩
  | cons chunk chunks ih =>
    intro h
    obtain ⟨block, hblock, hsize, hfile⟩ := h chunk mem_cons_self
    refine ends_andThen (ends_step fun e he => ⟨_, s, if_pos he.2.2.1, some block, by dsimp only; rw [hblock], ?_⟩)
    refine ends_andThen ((ih fun x hx => h x (mem_cons_of_mem _ hx)).mono fun r s' hr => ?_)
    obtain ⟨rfl, paths, rfl, hpaths⟩ := hr
    exact ⟨paths, rfl, rfl, _, rfl, .cons ⟨rfl, hsize, hfile⟩ hpaths⟩

section Found

variable {paths : List (BlockId × Block)} {chunks : List Bytes} (h : List.Forall₂ (FoundAt c s) paths chunks)
include h

theorem found_ids : paths.map Prod.fst = chunks.map c.hash := by
  induction h with
  | nil => rfl
  | cons hp _ ih => rw [map_cons, map_cons, hp.1, ih]

theorem found_sizes : (paths.map fun p => p.2.size) = chunks.map List.length := by
  induction h with
  | nil => rfl
  | cons hp _ ih => rw [map_cons, map_cons, hp.2.1, ih]

theorem found_holding : Holding (blockFiles paths) chunks s := by
  intro i path size content hpath hfile
  rw [blockFiles, getElem?_map] at hpath
  obtain ⟨p, hp, heq⟩ := Option.map_eq_some_iff.1 hpath
  cases heq
  obtain ⟨hlen, hrel⟩ := List.forall₂_iff_get.1 h
  obtain ⟨hi, rfl⟩ := List.getElem?_eq_some_iff.1 hp
  have hi' : i < chunks.length := hlen ▸ hi
  have hfound : FoundAt c s paths[i] chunks[i] := hrel i hi hi'
  rw [getElem?_eq_getElem hi', ← hfile, hfound.2.2]

theorem found_present : Present (blockFiles paths) s := by
  intro entry hentry
  obtain ⟨p, hp, rfl⟩ := mem_map.1 hentry
  obtain ⟨hlen, hrel⟩ := forall₂_iff_get.1 h
  obtain ⟨i, hi, rfl⟩ := mem_iff_getElem.1 hp
  have hfound : FoundAt c s paths[i] chunks[i] := hrel i hi (hlen ▸ hi)
  rw [hfound.2.2]
  rfl

end Found

/-- The passes a stream over these chunks takes at most. -/
def passes (chunks : List Bytes) : ℕ := (chunks.map fun chunk => chunk.length + 3).sum

/-- The body of a window. -/
theorem blockStream_ends {o : Object} {chunks : List Bytes} (hsmall : ∀ chunk ∈ chunks, chunk.length ≤ blockSize)
    (hblocks : o.blocks = chunks.map c.hash) {paths : List (BlockId × Block)}
    (hfound : List.Forall₂ (FoundAt c s) paths chunks) {range : RangeRequest} {start stop : ℕ}
    (hw : Window chunks.flatten.length range start stop) (verifyOnRead : Bool) {fuel : ℕ} (hfuel : passes chunks < fuel) :
    Ends Choice.Fine ((blockStream verifyOnRead o paths range).collect c fuel [])
      (fun r s' => s' = s ∧ r = .ok (window chunks start stop)) s := by
  have hpathsOf : PathsOf o paths chunks := ⟨(found_ids hfound).trans hblocks.symm, found_sizes hfound⟩
  have hpaths := blockStream_paths verifyOnRead hpathsOf range
  have hpresent := found_present hfound
  have hwork : (blockStream verifyOnRead o paths range).work chunks < fuel := by
    rw [blockStream_eq verifyOnRead hpathsOf]
    exact hfuel
  by_cases hv : verifyOnRead = true ∧ range = .all
  · obtain ⟨rfl, rfl⟩ := hv
    cases hw
    have hends : ∀ {b body}, Verifying chunks o.blocks b body → b.paths = blockFiles paths →
        Ends Choice.Fine (b.poll c) (fun r s' => s' = s ∧ r.1.failed = false) s :=
      fun hi hp => poll_verifying_ends c hi hblocks (hp ▸ hpresent)
    have hpoll : ∀ {b body}, Verifying chunks o.blocks b body → b.paths = blockFiles paths →
        Confined (Holding (blockFiles paths) chunks) (fun _ _ => True) (b.poll c)
          (Polled (Verifying chunks o.blocks) chunks 0 chunks.flatten.length b body) := fun hi hp => hp ▸ poll_verifying c hi
    exact collect_ends c hpoll hends (found_holding hfound) fuel (blockStream_verifying hpathsOf) hpaths hwork
  · have hends : ∀ {b body}, Reading chunks start stop b body → b.paths = blockFiles paths →
        Ends Choice.Fine (b.poll c) (fun r s' => s' = s ∧ r.1.failed = false) s :=
      fun hi hp => poll_reading_ends c hi hsmall (hp ▸ hpresent)
    have hpoll : ∀ {b body}, Reading chunks start stop b body → b.paths = blockFiles paths →
        Confined (Holding (blockFiles paths) chunks) (fun _ _ => True) (b.poll c)
          (Polled (Reading chunks start stop) chunks start stop b body) := fun hi hp => hp ▸ poll_reading c hi
    exact collect_ends c hpoll hends (found_holding hfound) fuel (blockStream_reading hpathsOf hw hv) hpaths hwork

variable {ρ : Type} (verifyOnRead : Bool) (k : RangeCheck ρ)

/-- GETs of an object answer `v`: all of it, and the window of every satisfiable range. -/
def Serves (c : Config) (verifyOnRead : Bool) (k : RangeCheck ρ) (bucket key : Bytes) (bound : ℕ) (v : Bytes)
    (s : Store) : Prop :=
  ∀ fuel, bound < fuel → Ends Choice.Fine (getObjectOp c verifyOnRead k.check fuel bucket key none)
      (fun r _ => ∃ out, r = .ok out ∧ Answers out v none) s ∧
    ∀ range start stop, k.check range v.length = some (start, stop) →
      ((v.drop start).take (stop - start)).length = stop - start ∧
      Ends Choice.Fine (getObjectOp c verifyOnRead k.check fuel bucket key (some range))
        (fun r _ => ∃ out, r = .ok out ∧
          Answers out ((v.drop start).take (stop - start)) (some (fmtContentRange start (stop - 1) v.length))) s

variable {verifyOnRead k} {bucket key : Bytes} {o : Object}

/-- The record is found; opening its tree changes nothing else. -/
theorem getObjectMeta_ends (hget : (s.tree bucket).get key = some (.record o)) : Ends Choice.Fine (getObjectMeta bucket key)
      (fun r s' => r = .ok (some o) ∧ s' = s.setTree bucket (s.tree bucket)) s := by
  refine ends_andThen (ends_step fun e he => ?_)
  refine ⟨.ok (), s.setTree bucket (s.tree bucket), by rw [he.1], (), rfl, ends_step fun e he => ?_⟩
  refine ⟨.ok (some o), _, ?_, rfl, rfl⟩
  have htree : (s.setTree bucket (s.tree bucket)).tree bucket = s.tree bucket := by
    unfold Store.setTree Store.tree
    dsimp only
    rw [OrdMap.get_insert, if_pos rfl]
    rfl
  rw [if_pos he.2.2.1]
  unfold getMeta
  rw [htree, hget]

theorem Answers.output {o : Object} {v : Bytes} {n : ℕ} {contentRange : Option String} (hn : n = v.length) :
    Answers (o.output (.ok v) n contentRange) v contentRange := by
  subst hn
  refine ⟨rfl, fun h => ?_, rfl⟩
  have hlength : asI64 (v.length : ℤ) = v.length := asI64_of_lt (by omega) (by omega)
  simp only [Object.output]
  exact hlength

/-- A GET of a record that is there: what its body is served from. -/
theorem getObjectOp_ends {fuel : ℕ} {range : Option ρ} {chunks : List Bytes} {Q : Except S3Err GetObjectOutput → Store → Prop}
    (hget : (s.tree bucket).get key = some (.record o)) (hblocks : o.blocks = chunks.map c.hash) (hintact : Intact c chunks s)
    (hserve : ∀ s' paths, List.Forall₂ (FoundAt c s') paths chunks → Ends Choice.Fine (match o.inlined with
        | some data => .ret (serveInlined k.check o data range)
        | none => serveBlocks c verifyOnRead k.check fuel o paths range) Q s') :
    Ends Choice.Fine (getObjectOp c verifyOnRead k.check fuel bucket key range) Q s := by
  have hfound : s.hasTree bucket = true := by
    unfold Store.hasTree
    cases htree : s.trees.get bucket with
    | none => rw [Store.tree, htree] at hget; cases hget
    | some t => rfl
  refine ends_bind (ends_step fun e _ => ⟨_, s, rfl, ?_⟩)
  rw [hfound, if_pos rfl]
  refine ends_bind (ends_andThen ((getObjectMeta_ends hget).mono fun r s1 hr => ?_))
  obtain ⟨rfl, hs1⟩ := hr
  have hintact1 : Intact c chunks s1 := by rw [hs1]; exact hintact
  refine ⟨some o, rfl, ?_⟩
  dsimp only
  rw [hblocks]
  refine ends_andThen ((blockPaths_ends hintact1).mono fun r s2 hr => ?_)
  obtain ⟨rfl, paths, rfl, hpaths⟩ := hr
  exact ⟨paths, rfl, hserve _ paths hpaths⟩

/-- The record holds the bytes of these chunks, itself or by naming them in order. -/
structure Object.Names (c : Config) (o : Object) (chunks : List Bytes) : Prop where
  size : o.size = chunks.flatten.length
  small : ∀ chunk ∈ chunks, chunk.length ≤ blockSize
  data : o.inlined = some chunks.flatten ∨ o.inlined = none ∧ o.blocks = chunks.map c.hash

theorem Object.blocks_of_inlined {data : Bytes} (h : o.inlined = some data) : o.blocks = [] := by
  unfold Object.inlined at h
  unfold Object.blocks
  split at h
  · rfl
  · cases h
  · cases h

theorem length_window {v : Bytes} {start stop : ℕ} (h : stop ≤ v.length) :
    ((v.drop start).take (stop - start)).length = stop - start := by
  rw [length_take, length_drop]
  omega

/-- **A record that stands, with its chunks on disk, is answered in full.** -/
theorem serves_of_intact {chunks : List Bytes} (hnames : o.Names c chunks)
    (hget : (s.tree bucket).get key = some (.record o)) (hintact : o.inlined = none → Intact c chunks s) :
    Serves c verifyOnRead k bucket key (passes chunks) chunks.flatten s := by
  intro fuel hfuel
  obtain ⟨hsize, hsmall, hinline | ⟨hnone, hblocks⟩⟩ := hnames
  · -- the bytes come out of the record
    have hblocks : o.blocks = List.map c.hash [] := Object.blocks_of_inlined hinline
    refine ⟨getObjectOp_ends hget hblocks nofun fun s' paths _ => ?_, fun range start stop hcheck => ⟨?_, ?_⟩⟩
    · rw [hinline]
      exact ⟨_, rfl, Answers.output rfl⟩
    · exact length_window (k.satisfiable _ _ _ _ hcheck).2.1
    refine getObjectOp_ends hget hblocks nofun fun s' paths _ => ?_
    rw [hinline]
    dsimp only [serveInlined]
    rw [hcheck]
    exact ⟨_, rfl, Answers.output rfl⟩
  · have hchunks := hintact hnone
    refine ⟨getObjectOp_ends hget hblocks hchunks fun s' paths hpaths => ?_, fun range start stop hcheck => ?_⟩
    · rw [hnone]
      refine ends_bind ((blockStream_ends hsmall hblocks hpaths .all verifyOnRead hfuel).mono fun r s'' hr => ?_)
      obtain ⟨-, rfl⟩ := hr
      have hwhole : window chunks 0 chunks.flatten.length = chunks.flatten := by
        rw [window, Nat.sub_zero, drop_zero, take_length]
      rw [hwhole]
      exact ⟨_, rfl, Answers.output hsize⟩
    · obtain ⟨hlt, hle, hmax⟩ := k.satisfiable _ _ _ _ hcheck
      refine ⟨length_window hle, getObjectOp_ends hget hblocks hchunks fun s' paths hpaths => ?_⟩
      rw [hnone]
      dsimp only [serveBlocks]
      rw [hsize, hcheck]
      refine ends_bind ((blockStream_ends hsmall hblocks hpaths (.range hlt hle hmax) verifyOnRead hfuel).mono
        fun r s'' hr => ?_)
      obtain ⟨-, rfl⟩ := hr
      exact ⟨_, rfl, Answers.output (length_window hle).symm⟩

end Reading

/-! ## Records that name their chunks -/

section Names

variable {c : Config}
variable {pieces : List Bytes} {now : ℤ} {hash : Bytes}

theorem names_single :
    Object.Names c ⟨pieces.flatten.length, now, hash, .singlePart ((chunksOf pieces).map c.hash)⟩ (chunksOf pieces) := by
  obtain ⟨-, hflat, hsmall⟩ := chunksOf_spec pieces
  exact ⟨by rw [hflat], hsmall, .inr ⟨rfl, rfl⟩⟩

theorem names_inline : Object.Names c ⟨pieces.flatten.length, now, hash, .inline pieces.flatten⟩ (chunksOf pieces) := by
  obtain ⟨-, hflat, hsmall⟩ := chunksOf_spec pieces
  exact ⟨by rw [hflat], hsmall, .inl (by rw [hflat]; rfl)⟩

theorem PutRecord.names {o : Object} (h : PutRecord c pieces o) : o.Names c (chunksOf pieces) := by
  obtain ⟨now, rfl | rfl⟩ := h
  · exact names_inline
  · exact names_single

/-- The object of several parts, if they hold these bodies. -/
theorem names_multiPart {ps : List MultiPart} {bodies : List (List Bytes)}
    (h : List.Forall₂ (MultiPart.Names c) bodies ps) {n : ℕ} :
    Object.Names c ⟨(ps.map MultiPart.size).sum, now, hash, .multiPart (ps.flatMap MultiPart.blocks) n⟩
      (bodies.flatMap chunksOf) := by
  have hboth : (ps.map MultiPart.size).sum = (bodies.flatMap chunksOf).flatten.length ∧
      ps.flatMap MultiPart.blocks = (bodies.flatMap chunksOf).map c.hash := by
    induction h with
    | nil => exact ⟨rfl, rfl⟩
    | @cons pieces p bodies ps hp _ ih =>
      obtain ⟨-, hflat, -⟩ := chunksOf_spec pieces
      rw [map_cons, sum_cons, flatMap_cons, flatMap_cons, flatten_append, length_append,
        map_append, ← ih.1, ← ih.2, hflat]
      exact ⟨by rw [hp.1], by rw [hp.2]⟩
  refine ⟨hboth.1, fun chunk hchunk => ?_, .inr ⟨rfl, hboth.2⟩⟩
  obtain ⟨pieces, -, hchunk⟩ := mem_flatMap.1 hchunk
  exact (chunksOf_spec pieces).2.2 chunk hchunk

end Names

/-! ## The round trip -/

section RoundTrip

variable {ρ : Type}

/-- As long as the record stands and its chunks are on disk, GETs answer `v`. -/
def Readable (c : Config) (verifyOnRead : Bool) (k : RangeCheck ρ) (bucket key : Bytes) (o : Object) (chunks : List Bytes)
    (v : Bytes) : Prop :=
  ∀ s, (s.tree bucket).get key = some (.record o) → (o.inlined = none → Intact c chunks s) →
    Serves c verifyOnRead k bucket key (passes chunks) v s

theorem Object.Names.readable {c : Config} {verifyOnRead : Bool} {k : RangeCheck ρ} {bucket key : Bytes} {o : Object}
    {chunks : List Bytes} {v : Bytes} (h : o.Names c chunks) (hv : chunks.flatten = v) :
    Readable c verifyOnRead k bucket key o chunks v := by
  intro s hget hintact
  rw [← hv]
  exact serves_of_intact h hget hintact

/-- What the acknowledgement of an upload says about later reads. A PUT was sent with its true
length. -/
def Acked (c : Config) (verifyOnRead : Bool) (k : RangeCheck ρ) (since till : ℕ) (l : Timeline Store) (r : S3Request) : Prop :=
  Attests {
    put := fun bucket key len pieces o => len = some (pieces.flatten.length : ℤ) →
      Readable c verifyOnRead k bucket key o (chunksOf pieces) pieces.flatten
    part := fun pieces p => p.Names c pieces
    joined := fun bucket key ps o => ∀ bodies : List (List Bytes), List.Forall₂ (MultiPart.Names c) bodies ps →
      Readable c verifyOnRead k bucket key o (bodies.flatMap chunksOf) (bodies.flatMap List.flatten)
  } since till l r

theorem flatten_flatMap_chunksOf (bodies : List (List Bytes)) :
    (bodies.flatMap chunksOf).flatten = bodies.flatMap List.flatten := by
  induction bodies with
  | nil => rfl
  | cons pieces bodies ih =>
    rw [flatMap_cons, flatMap_cons, flatten_append, ih, (chunksOf_spec pieces).2.1]

/-- A record that was stored is readable. -/
theorem OnRecord.acked {c : Config} {verifyOnRead : Bool} {k : RangeCheck ρ} {since till : ℕ} {l : Timeline Store}
    {r : S3Request} (h : OnRecord c since till l r) : Acked c verifyOnRead k since till l r := by
  refine Attests.imp h (fun {_ _ _ pieces _} hrecord _ => ?_) And.left (fun hrecord bodies hbodies => ?_) (Timeline.extends_refl l) (le_refl till)
  · exact hrecord.names.readable (chunksOf_spec pieces).2.1
  · obtain ⟨now, rfl⟩ := hrecord
    exact (names_multiPart hbodies).readable (flatten_flatMap_chunksOf bodies)

/-- **The round trip.** Whatever else the server does: once a PUT is acknowledged, the record
that was stored for it answers GETs with the bytes that were sent, whatever pieces they came in;
an acknowledged part holds the bytes of the part; and the object of an acknowledged complete
answers GETs with the bytes of the parts it claimed, in their order. A GET of all of it, and of
any satisfiable range, carries headers that agree with its body. -/
theorem get_returns_upload (c : Config) (inlineMax : ℕ) (verifyOnRead : Bool) (k : RangeCheck ρ) (s0 : Store)
    (w : Pool (Timeline Store) Choice ℕ (S3Answer ρ))
    (hw : Pool.Reach (s3System c inlineMax verifyOnRead k) (fun _ _ => True) (Pool.start (Timeline.start s0)) w)
    (t : Thread (Timeline Store) Choice ℕ (S3Answer ρ)) (ht : t ∈ w.threads) (since till : ℕ) (r : S3Request)
    (reply : S3Reply) (hacked : t.result = some (.replied since r (.ok reply) till)) :
    Acked c verifyOnRead k since till w.st r :=
  (reach_onRecord hw ht hacked).acked

/-- A PUT of `abc` that comes in two pieces. -/
def putInPieces : List (Move (S3Task (ℕ × ℕ)) Choice) := List.flatten [
  [.spawn (.request (.createBucket [98]))], List.replicate 7 (.run 0 steady),
  [.spawn (.request (.putObject [98] [107] true none (some [some [97], some [98, 99]]) (some 3)))],
  List.replicate 15 (.run 1 steady)]

/-- The record of `abc` in the sample. -/
def abcRecord : Object := ⟨3, 0, abcConfig.md5 abc, .singlePart [abcId]⟩

/-- The request was acknowledged, no other record was ever stored under its key, and its block is
on disk. -/
def putInPiecesDone (w : Pool (Timeline Store) Choice ℕ (S3Answer (ℕ × ℕ))) : Bool :=
  w.threads[1]?.bind Thread.result =
      some (.replied 5 (.putObject [98] [107] true none (some [some [97], some [98, 99]]) (some 3)) (.ok .done) 16) &&
    (w.st.moments.all fun s => ((s.tree [98]).get [107]).all fun r => r = .record abcRecord) &&
    (w.st.now.tree [98]).get [107] = some (.record abcRecord) &&
    w.st.now.blocks.get abcId = some (.record (Block.new 3 1)) && w.st.now.files.get (toLex (abcId, 1)) = some abc

theorem served_after_put : ∃ w,
    (Pool.start (Timeline.start Store.empty)).exec (s3System abcConfig 0 false firstLast) putInPieces = some w ∧
    Serves abcConfig false firstLast [98] [107] 6 abc w.st.now := by
  have hrun : ((Pool.start (Timeline.start Store.empty)).exec (s3System abcConfig 0 false firstLast) putInPieces).map
      putInPiecesDone = some true := by decide +kernel
  obtain ⟨w, hw, hdone⟩ := Option.map_eq_some_iff.1 hrun
  simp only [putInPiecesDone, Bool.and_eq_true, decide_eq_true_eq] at hdone
  obtain ⟨⟨⟨⟨hresult, hmoments⟩, hrecord⟩, hblock⟩, hfile⟩ := hdone
  obtain ⟨t, ht, hresult⟩ := Option.bind_eq_some_iff.1 hresult
  have hacked := get_returns_upload abcConfig 0 false firstLast Store.empty w
    (Pool.Reach.refl.exec (fun _ _ _ => trivial) hw) t (mem_of_getElem? ht) 5 16 _ _ hresult
  have hchunks : chunksOf [[97], [98, 99]] = [abc] := by decide +kernel
  obtain ⟨m, s, o, -, -, hs, hget, hreadable⟩ := hacked [[97], [98, 99]] rfl
  -- the record is the one that is still there
  have hsame : o = abcRecord := by
    have hall := all_eq_true.1 hmoments s (mem_of_getElem? hs)
    rw [hget, Option.all_some, decide_eq_true_eq, Cell.record.injEq] at hall
    exact hall
  subst hsame
  replace hreadable := hreadable rfl
  rw [hchunks] at hreadable
  refine ⟨w, hw, hreadable w.st.now hrecord fun _ chunk hchunk => ?_⟩
  obtain rfl := mem_singleton.1 hchunk
  exact ⟨Block.new 3 1, hblock, rfl, hfile⟩

end RoundTrip

end QssStorage
