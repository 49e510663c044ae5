import QssStorage.Proof.Contents
import QssStorage.Proof.Streams
import QssStorage.Spec.Serving

/-!
# A GET answers one version

A GET reads the record, the block records and the files at different times. The record fixes
the chunks; a block record found later still has the size of its chunk and a file that opens
still holds it, because no two chunks share an address (`Filed`). So the body is the window of
the value the record held when it was read, or it breaks off.

* `s3_filed`: **in every state of every run, what is stored is what its names and sizes say.**
* `get_one_version`: **a body that ends without an error is one version of the object, the
  stored one at some time during the request.**
-/

namespace QssStorage

open Conc Prog List
open Confined (thenTrue seq)

/-! ## The stream over the blocks of a record -/

section Stream

variable (c : Config) {cs : List Bytes} {o : Object} {paths : List (BlockId × Block)}

/-- The paths of the chunks `cs`. -/
structure PathsOf (o : Object) (paths : List (BlockId × Block)) (cs : List Bytes) : Prop where
  ids : paths.map Prod.fst = o.blocks
  sizes : (paths.map fun p => p.2.size) = cs.map List.length

/-- The files a stream goes through. -/
def blockFiles (paths : List (BlockId × Block)) : List ((BlockId ×ₗ ℕ) × ℕ) :=
  paths.map fun p => (toLex (p.1, diskDepth p.1 p.2.depth), p.2.size)

theorem blockFiles_sizes (paths : List (BlockId × Block)) :
    (blockFiles paths).map Prod.snd = paths.map fun p => p.2.size := by
  rw [blockFiles, map_map]
  rfl

/-- A stream as it is made. -/
theorem blockStream_eq (verifyOnRead : Bool) (h : PathsOf o paths cs) (range : RangeRequest) :
    blockStream verifyOnRead o paths range = { BlockStream.new (blockFiles paths) cs.flatten.length range with
        verify := if verifyOnRead ∧ range = .all then some o.blocks else none } := by
  have hsum : ((blockFiles paths).map Prod.snd).sum = cs.flatten.length := by
    rw [blockFiles_sizes, h.sizes, length_flatten]
  have hlen : o.blocks.length = (blockFiles paths).length := by
    rw [← h.ids, blockFiles, length_map, length_map]
  unfold blockStream
  dsimp only
  rw [← blockFiles, hsum]
  split
  · rename_i hv
    rw [BlockStream.verified, if_pos ⟨hv.2, hlen⟩]
  · rfl

theorem blockStream_paths (verifyOnRead : Bool) (h : PathsOf o paths cs) (range : RangeRequest) :
    (blockStream verifyOnRead o paths range).paths = blockFiles paths := by rw [blockStream_eq verifyOnRead h]; rfl

/-- The windows that are asked for. -/
inductive Window (n : ℕ) : RangeRequest → ℕ → ℕ → Prop where
  | all : Window n .all 0 n
  | range {start stop : ℕ} (hlt : start < stop) (hle : stop ≤ n) (hmax : stop < 2 ^ 64) :
      Window n (.range start (stop - 1)) start stop

variable {n : ℕ} {range : RangeRequest} {start stop : ℕ}

theorem Window.le (h : Window n range start stop) : start ≤ stop ∧ stop ≤ n := by
  cases h with
  | all | range hlt hle hmax => omega

theorem Window.bounds {b : BlockStream} (h : Window n range start stop) (hrange : b.range = range) (hsize : b.size = n) :
    b.bounds = (start, stop) := by
  unfold BlockStream.bounds
  rw [hrange]
  cases h with
  | all => rw [hsize]
  | range hlt hle hmax =>
    have hsucc : saturatingSucc (stop - 1) = stop := by unfold saturatingSucc; omega
    dsimp only
    rw [hsucc]

/-- A stream that does not verify starts at its place. -/
theorem blockStream_reading (h : PathsOf o paths cs) (hw : Window cs.flatten.length range start stop)
    {verifyOnRead : Bool} (hplain : ¬ (verifyOnRead = true ∧ range = .all)) :
    Reading cs start stop (blockStream verifyOnRead o paths range) [] := by
  rw [blockStream_eq verifyOnRead h, if_neg hplain]
  refine ⟨?_, hw.bounds rfl rfl, hw.le.1, hw.le.2, rfl, Nat.zero_le _, ?_, fun _ => ⟨Nat.zero_le _, rfl⟩, nofun⟩
  · exact (blockFiles_sizes paths).trans h.sizes
  · exact (window_of_le (Nat.zero_le start)).symm

/-- A stream that verifies does, too. -/
theorem blockStream_verifying (h : PathsOf o paths cs) : Verifying cs o.blocks (blockStream true o paths .all) [] := by
  rw [blockStream_eq true h, if_pos ⟨rfl, rfl⟩]
  refine ⟨?_, rfl, rfl, rfl, Nat.zero_le _, ?_, fun _ => ⟨⟨Nat.zero_le _, rfl⟩, rfl⟩, nofun⟩
  · exact (blockFiles_sizes paths).trans h.sizes
  · exact (window_of_le (Nat.zero_le 0)).symm

/-- **The body over the paths of some chunks.** -/
theorem blockStream_confined (h : PathsOf o paths cs) (hw : Window cs.flatten.length range start stop)
    (verifyOnRead : Bool) (fuel : ℕ) :
    Confined (Holding (blockFiles paths) cs) (fun _ _ => True) ((blockStream verifyOnRead o paths range).collect c fuel [])
      fun r => ∀ v, r = .ok v → v = window cs start stop := by
  have hpaths := blockStream_paths verifyOnRead h range
  by_cases hv : verifyOnRead = true ∧ range = .all
  · obtain ⟨rfl, rfl⟩ := hv
    cases hw
    exact collect_confined c (fun hi hp => hp ▸ poll_verifying c hi) fuel (blockStream_verifying h) hpaths
  · exact collect_confined c (fun hi hp => hp ▸ poll_reading c hi) fuel (blockStream_reading h hw hv) hpaths

theorem readFile_looks (file : OpenFile) (cap : ℕ) : Looks (BlockStream.readFile file cap) := by
  intro e s r s' hf
  dsimp only at hf
  split at hf <;> cases hf <;> exact ⟨rfl, trivial⟩

theorem openFile_looks (path : BlockId ×ₗ ℕ) : Looks (BlockStream.openFile path) := by
  intro e s r s' hf
  dsimp only at hf
  split at hf
  · split at hf <;> cases hf <;> exact ⟨rfl, trivial⟩
  · cases hf; exact ⟨rfl, trivial⟩

theorem seek_looks : Looks BlockStream.seek := by
  intro e s r s' hf
  dsimp only at hf
  split at hf <;> cases hf <;> exact ⟨rfl, trivial⟩

/-- One pass only looks. -/
theorem poll_looks (b : BlockStream) : Looks (b.poll c) := by
  unfold BlockStream.poll
  dsimp only
  split
  · exact trivial
  split
  · split
    · split
      · exact trivial
      · exact seek_looks.bind fun r => by cases r <;> exact trivial
    · unfold BlockStream.pollFile
      split
      · exact (readFile_looks _ _).bind fun r => by split <;> exact trivial
      · exact (readFile_looks _ _).bind fun r => by split <;> exact trivial
  · split
    · exact trivial
    · exact trivial
    · split
      · exact trivial
      · exact (openFile_looks _).bind fun r => by cases r <;> exact trivial

theorem collect_looks : ∀ (fuel : ℕ) (b : BlockStream) (body : Bytes), Looks (b.collect c fuel body) := by
  intro fuel
  induction fuel with
  | zero => exact fun _ _ => blocked_looks
  | succ fuel ih =>
    intro b body
    refine (poll_looks c b).bind fun r => ?_
    split
    · exact trivial
    · exact trivial
    · exact ih _ _
    · exact ih _ _

end Stream

/-! ## What a GET reads -/

section Get

variable {c : Config} {B : Set Bytes}
variable {o : Object} {cs : List Bytes} {paths : List (BlockId × Block)} {since : ℕ} {l : Timeline Store}

/-- Block records that were found have the sizes of chunks. -/
theorem blockPaths_retains : ∀ ids : List BlockId, Retains (Filed c B) (blockPaths ids) fun r => ∀ paths, r = .ok paths →
    paths.map Prod.fst = ids ∧ ∀ p ∈ paths, ∃ chunk ∈ B, c.hash chunk = p.1 ∧ p.2.size = chunk.length := by
  intro ids
  induction ids with
  | nil => intro paths h; cases h; exact ⟨rfl, fun _ h => by cases h⟩
  | cons id ids ih =>
    refine Confined.thenOk (R := fun found => ∀ block, found = some block → ∃ chunk ∈ B, c.hash chunk = id ∧
      block.size = chunk.length) (fun _ _ h => by cases h) (readStore_retains fun s found hs h block hb => ?_)
      fun found hfound => ?_
    · subst hb
      split at h
      · rename_i b hget; cases h; exact hs.blocks id _ hget
      · cases h
      · cases h
    cases found with
    | none => exact fun _ h => by cases h
    | some block =>
      refine confined_andThen (ih.imp fun r hrest => ⟨fun rest hok => ?_, fun _ _ _ h => by cases h⟩)
      obtain ⟨hids, hsizes⟩ := hrest rest hok
      intro paths h
      cases h
      refine ⟨by rw [map_cons, hids], fun p hp => ?_⟩
      rcases mem_cons.1 hp with rfl | hp
      · exact hfound block rfl
      · exact hsizes p hp

/-- The paths that were found belong to the chunks the record names. -/
theorem pathsOf_chunks (hinj : Set.InjOn c.hash B) (hB : ∀ chunk ∈ cs, chunk ∈ B) (hblocks : o.blocks = cs.map c.hash)
    (hids : paths.map Prod.fst = o.blocks)
    (hsizes : ∀ p ∈ paths, ∃ chunk ∈ B, c.hash chunk = p.1 ∧ p.2.size = chunk.length) : PathsOf o paths cs := by
  refine ⟨hids, ?_⟩
  rw [hblocks] at hids
  clear hblocks
  induction paths generalizing cs with
  | nil => rw [map_nil] at hids; rw [map_eq_nil_iff.1 hids.symm]; rfl
  | cons p paths ih =>
    cases cs with
    | nil => cases hids
    | cons chunk cs =>
      rw [map_cons, map_cons, List.cons.injEq] at hids
      obtain ⟨chunk', hB', hhash, hsize⟩ := hsizes p mem_cons_self
      have hsame : chunk' = chunk := hinj hB' (hB _ mem_cons_self) (hhash.trans hids.1)
      rw [map_cons, map_cons, hsize, hsame,
        ih (fun x hx => hB x (mem_cons_of_mem _ hx)) hids.2 fun q hq => hsizes q (mem_cons_of_mem _ hq)]

/-- Files that are there hold the chunks of their addresses. -/
theorem Filed.holding (hinj : Set.InjOn c.hash B) {s : Store} (hs : Filed c B s) (hB : ∀ chunk ∈ cs, chunk ∈ B)
    (hids : paths.map Prod.fst = cs.map c.hash) :
    Holding (blockFiles paths) cs s := by
  intro i path size content hpath hfile
  rw [blockFiles, getElem?_map] at hpath
  obtain ⟨p, hp, heq⟩ := Option.map_eq_some_iff.1 hpath
  cases heq
  obtain ⟨hBcontent, hhash⟩ := hs.files _ _ _ hfile
  have hid : (paths.map Prod.fst)[i]? = some p.1 := by rw [getElem?_map, hp]; rfl
  rw [hids, getElem?_map] at hid
  obtain ⟨chunk, hchunk, hid⟩ := Option.map_eq_some_iff.1 hid
  rw [hchunk]
  exact congrArg some (hinj (hB _ (mem_of_getElem? hchunk)) hBcontent (hid.trans hhash.symm))

variable {ρ : Type} {k : RangeCheck ρ}

/-- What is asked for of a value: all of it, or the window of a range. -/
def Asked (k : RangeCheck ρ) (range : Option ρ) (value v : Bytes) : Prop :=
  match range with
  | none => v = value
  | some r => ∃ start stop, k.check r value.length = some (start, stop) ∧ v = (value.drop start).take (stop - start)

theorem serveInlined_asked {data : Bytes} {range : Option ρ} {out : GetObjectOutput} {v : Bytes}
    (h : serveInlined k.check o data range = .ok out) (hv : out.body = .ok v) : Asked k range data v := by
  unfold serveInlined at h
  split at h
  · cases h; cases hv; rfl
  · split at h
    · cases h
    · rename_i start stop hcheck; cases h; cases hv; exact ⟨start, stop, hcheck, rfl⟩

/-- A body over the blocks of a record. -/
theorem serveBlocks_retains (hinj : Set.InjOn c.hash B) (verifyOnRead : Bool) (fuel : ℕ)
    (hB : ∀ chunk ∈ cs, chunk ∈ B) (hblocks : o.blocks = cs.map c.hash) (hsize : o.size = cs.flatten.length)
    (hpaths : PathsOf o paths cs) (range : Option ρ) :
    Retains (Filed c B) (serveBlocks c verifyOnRead k.check fuel o paths range) fun r =>
      ∀ out v, r = .ok out → out.body = .ok v → Asked k range cs.flatten v := by
  -- the stream of any window, in states whose files are in order
  have hbody : ∀ {rr start stop}, Window cs.flatten.length rr start stop →
      Retains (Filed c B) ((blockStream verifyOnRead o paths rr).collect c fuel []) fun r =>
        ∀ v, r = .ok v → v = window cs start stop := fun hw =>
    (blockStream_confined c hpaths hw verifyOnRead fuel).of_still
      (fun s hs => hs.holding hinj hB (hpaths.ids.trans hblocks)) ((collect_looks c fuel _ _).steps fun _ => rfl)
  unfold serveBlocks
  split
  · refine confined_bind ((hbody .all).imp fun r hr out v hok hv => ?_)
    cases hok
    have hwhole := hr v hv
    rw [window, Nat.sub_zero, drop_zero, take_length] at hwhole
    exact hwhole
  split
  · exact fun _ _ h => by cases h
  rename_i r hcheck
  obtain ⟨hlt, hle, hmax⟩ := k.satisfiable _ _ _ _ hcheck
  rw [hsize] at hle hcheck
  refine confined_bind ((hbody (.range hlt hle hmax)).imp fun r hr out v hok hv => ?_)
  cases hok
  exact ⟨_, _, hcheck, hr v hv⟩

/-- The record was the stored one at some time from `since` on. -/
def Seen (bucket key : Bytes) (o : Object) (since : ℕ) (l : Timeline Store) : Prop :=
  ∃ t s, since ≤ t ∧ l.stateAt t = some s ∧ (s.tree bucket).get key = some (.record o)

theorem Seen.later {bucket key : Bytes} {l l' : Timeline Store} (h : Seen bucket key o since l) (hl : l.Extends l') :
    Seen bucket key o since l' := by
  obtain ⟨t, s, ht, hs, hget⟩ := h
  exact ⟨t, s, ht, hl.stateAt hs, hget⟩

/-- What a GET promises of its answer: if its body ended, it is what was asked for of a version
that was stored at some time from `since` on. -/
def OneVersion (c : Config) (B : Set Bytes) (k : RangeCheck ρ) (bucket key : Bytes) (range : Option ρ) (since : ℕ)
    (r : Except S3Err GetObjectOutput) (l : Timeline Store) : Prop :=
  ∀ out v, r = .ok out → out.body = .ok v → ∃ o value, Seen bucket key o since l ∧ o.Carries c B value ∧
    Asked k range value v

theorem treeOpen_retains (name : Bytes) : Retains (Filed c B) (treeOpen name) fun _ => True := by
  refine transact_retains' fun s r s' hs h => ?_
  cases h
  exact hs.withTree (fun key o hget => hs.objects name key o hget) s.usage s.log

theorem bucketExists_retains {J : Store → Prop} (name : Bytes) : Retains J (bucketExists name) fun _ => True :=
  confined_step fun e s r s' hs hf => by cases hf; exact ⟨hs, trivial, trivial⟩

/-- The record that was read is the stored one of that moment. -/
theorem getObjectMeta_safe (bucket key : Bytes) (hsince : since ≤ l.past.length) :
    Safe (Timeline.rely Choice (Filed c B)) (getObjectMeta bucket key).timed (fun r l' => ∀ o, r = .ok (some o) →
      Seen bucket key o since l' ∧ ∃ v, o.Carries c B v) l := by
  unfold getObjectMeta
  rw [timed_andThen]
  refine safe_andThen ((Safe.timed (treeOpen_retains bucket) l).mono fun r l1 hl1 _ _ => ⟨fun _ _ => ?_, fun _ _ _ _ _ _ h => by cases h⟩)
  refine safe_timed_step fun e r s s' t hs hf ht => ?_
  have hlen := hl1.length_le
  split at hf <;> cases hf
  · refine ⟨hs, fun l' _ _ hbefore _ o ho => ?_⟩
    unfold getMeta at ho
    split at ho
    · cases ho
    · cases ho
    · rename_i o' hget
      cases ho
      exact ⟨⟨t, s, by omega, hbefore, hget⟩, hs.objects bucket key o hget⟩
  · exact ⟨hs, fun l' _ _ _ _ => nofun⟩

/-- The record and the paths of its chunks. -/
theorem getObjectPaths_safe (bucket key : Bytes) (hsince : since ≤ l.past.length) :
    Safe (Timeline.rely Choice (Filed c B)) (getObjectPaths bucket key).timed (fun r l' => ∀ o paths,
      r = .ok (some (o, paths)) → (Seen bucket key o since l' ∧ ∃ v, o.Carries c B v) ∧ paths.map Prod.fst = o.blocks ∧
        ∀ p ∈ paths, ∃ chunk ∈ B, c.hash chunk = p.1 ∧ p.2.size = chunk.length) l := by
  unfold getObjectPaths
  rw [timed_andThen]
  refine safe_andThen ((getObjectMeta_safe bucket key hsince).mono fun r l1 _ _ hr =>
    ⟨fun found hfound => ?_, fun _ _ _ _ _ _ _ h => by cases h⟩)
  cases found with
  | none => exact safe_ret fun _ _ _ _ _ h => by cases h
  | some o =>
    obtain ⟨hseen, hcarries⟩ := hr o hfound
    dsimp only
    rw [timed_andThen]
    refine safe_andThen ((Safe.timed (blockPaths_retains o.blocks) l1).mono fun r l2 hl2 _ hpaths =>
      ⟨fun paths hok => safe_ret fun l3 hl3 _ o' paths' h => ?_, fun _ _ _ _ _ _ _ h => by cases h⟩)
    cases h
    exact ⟨⟨hseen.later (hl2.trans hl3), hcarries⟩, hpaths paths hok⟩

/-- **A GET, whatever the others do.** -/
theorem getObjectOp_safe (hinj : Set.InjOn c.hash B) (verifyOnRead : Bool) (fuel : ℕ) (bucket key : Bytes)
    (range : Option ρ) (l : Timeline Store) :
    Safe (Timeline.rely Choice (Filed c B)) (getObjectOp c verifyOnRead k.check fuel bucket key range).timed
      (OneVersion c B k bucket key range l.past.length) l := by
  unfold getObjectOp whenBucket
  rw [timed_bind]
  refine safe_bind ((Safe.timed (bucketExists_retains bucket) l).mono fun found l1 hl1 _ _ => ?_)
  split
  swap; · exact safe_ret fun _ _ _ _ _ hok => by cases hok
  rw [timed_bind]
  refine safe_bind ((getObjectPaths_safe bucket key hl1.length_le).mono fun r l2 _ _ hr => ?_)
  split
  · exact safe_ret fun _ _ _ _ _ hok => by cases hok
  · exact safe_ret fun _ _ _ _ _ hok => by cases hok
  rename_i o paths
  obtain ⟨⟨hseen, value, hsize, hvalue⟩, hids, hsizes⟩ := hr o paths rfl
  split
  · -- the record holds the value itself
    rename_i data hinlined
    rw [hinlined] at hvalue
    refine safe_ret fun l3 hl3 _ out v hok hv => ⟨o, value, hseen.later hl3, ⟨hsize, ?_⟩, ?_⟩
    · rw [hinlined]; exact hvalue
    · rw [hvalue]; exact serveInlined_asked hok hv
  rename_i hinlined
  rw [hinlined] at hvalue
  obtain ⟨cs, hB, hblocks, rfl⟩ := hvalue
  have hpaths := pathsOf_chunks hinj hB hblocks hids hsizes
  refine ((Safe.timed (serveBlocks_retains hinj verifyOnRead fuel hB hblocks hsize hpaths range) l2).mono
    fun r l3 hl3 _ hr out v hok hv => ⟨o, cs.flatten, hseen.later hl3, ⟨hsize, ?_⟩, hr out v hok hv⟩)
  rw [hinlined]
  exact ⟨cs, hB, hblocks, rfl⟩

end Get

/-! ## The other requests -/

section Requests

variable {c : Config} {B : Set Bytes}
variable (name bucket : Bytes)

theorem putRow_retains (row : BucketRow) : Retains (Filed c B) (putRow name row) fun _ => True := by
  refine transact_retains' fun s r s' hs h => ?_
  cases h
  exact ⟨hs.files, hs.blocks, hs.objects, hs.parts, hs.queue⟩

theorem removeRow_retains : Retains (Filed c B) (removeRow name) fun _ => True := by
  refine transact_retains' fun s r s' hs h => ?_
  cases h
  exact ⟨hs.files, hs.blocks, hs.objects, hs.parts, hs.queue⟩

theorem insertBucket_retains (row : BucketRow) : Retains (Filed c B) (insertBucket name row) fun _ => True := by
  have husage : Retains (Filed c B) (setBucketUsage name 0) fun _ => True := by
    refine transact_retains' fun s r s' hs h => ?_
    cases h
    exact ⟨hs.files, hs.blocks, hs.objects, hs.parts, hs.queue⟩
  unfold insertBucket
  split
  · exact trivial
  · exact thenTrue (putRow_retains name row) fun _ => thenTrue (treeOpen_retains name) fun _ => husage

/-- A tree goes. -/
theorem treeDelete_retains : Retains (Filed c B) (treeDelete name) fun _ => True := by
  refine transact_retains' fun s r s' hs h => ?_
  cases h
  refine ⟨hs.files, hs.blocks, fun b key o hget => ?_, hs.parts, hs.queue⟩
  unfold Store.tree at hget
  dsimp only at hget
  rw [OrdMap.get_erase] at hget
  split at hget
  · cases hget
  · exact hs.objects b key o hget

theorem dropBucket_retains : Retains (Filed c B) (dropBucket name) fun _ => True := by
  have husage : Retains (Filed c B) (transact fun s => .ok ((), { s with usage := s.usage.erase name })) fun _ => True := by
    refine transact_retains' fun s r s' hs h => ?_
    cases h
    exact ⟨hs.files, hs.blocks, hs.objects, hs.parts, hs.queue⟩
  refine thenTrue (removeRow_retains name) fun _ => thenTrue husage fun _ =>
    seq (bucketExists_retains name) fun found => ?_
  split
  · exact treeDelete_retains name
  · exact trivial

/-- The chunks of the bodies a request uploads are in `B`. -/
def S3Request.Feeds (B : Set Bytes) : S3Request → Prop
  | putObject _ _ _ _ body _ => ∀ pieces, body = some pieces → QssStorage.Feeds B pieces
  | uploadPart _ _ _ _ body _ _ => ∀ pieces, body = some pieces → QssStorage.Feeds B pieces
  | _ => True

/-- **Every request whose chunks are in `B` keeps what is filed.** -/
theorem S3Request.filed (inlineMax : ℕ) (r : S3Request) (h : r.Feeds B) :
    Retains (Filed c B) (r.handle c inlineMax) fun _ => True := by
  refine inherits_handle inherits_retains c inlineMax r treeOpen_retains insertBucket_retains removeRow_retains
    dropBucket_retains deleteObject_retains storeInlinedObject_retains ?_ createUpload_retains ?_
    completeMultipartUpload_retains abortMultipartUpload_retains
  · rintro bucket key v md5 body len rfl pieces n rfl
    exact storeSingleObjectAndMeta_retains bucket key (h pieces rfl) n
  · rintro bucket key uploadId n body len md5 rfl
    exact uploadPart_retains bucket key uploadId n len md5 h

end Requests

/-! ## Every interleaving -/

section Interleavings

variable {ρ : Type} (c : Config) (B : Set Bytes)

/-- The moves that upload chunks of `B` only. -/
def Feeding : Move (S3Task ρ) Choice → Prop
  | .spawn (.request r) => r.Feeds B
  | .spawn (.store o) => o.Feeds B
  | _ => True

/-- What an answer promises. -/
def S3Answer.Promise (k : RangeCheck ρ) : S3Answer ρ → Timeline Store → Prop
  | got since bucket key range reply till, l => ∀ out v, reply = .ok out → out.body = .ok v →
    ∃ t s o value, since ≤ t ∧ t ≤ till ∧ l.stateAt t = some s ∧ (s.tree bucket).get key = some (.record o) ∧
      o.Carries c B value ∧ Asked k range value v
  | _, _ => True

variable {c B}

theorem S3Answer.Promise.later {k : RangeCheck ρ} {a : S3Answer ρ} {l l' : Timeline Store} (hl : l.Extends l')
    (h : a.Promise c B k l) : a.Promise c B k l' := by
  cases a with
  | got since bucket key range reply till =>
    intro out v hok hv
    obtain ⟨t, s, o, value, hsince, htill, hs, hrest⟩ := h out v hok hv
    exact ⟨t, s, o, value, hsince, htill, hl.stateAt hs, hrest⟩
  | replied | done => trivial

theorem S3Task.safe (hinj : Set.InjOn c.hash B) (inlineMax : ℕ) (verifyOnRead : Bool) (k : RangeCheck ρ)
    (task : S3Task ρ) (h : Feeding B (.spawn task)) (l : Timeline Store) :
    Safe (Timeline.rely Choice (Filed c B)) (task.prog c inlineMax verifyOnRead k) (S3Answer.Promise c B k) l := by
  cases task with
  | request r =>
    refine safe_bind ((safe_clocked (Q := fun _ _ => True) (fun _ _ _ _ h => h) fun l0 _ => ?_).mono fun a l1 _ _ _ =>
      safe_ret fun _ _ _ => trivial)
    exact Safe.timed (r.filed inlineMax h) l0
  | get fuel bucket key range =>
    refine safe_bind ((safe_clocked (Q := fun a l => (S3Answer.got a.1 bucket key range a.2.1 a.2.2).Promise c B k l)
      (fun _ _ _ hl h => h.later hl) fun l0 _ => ?_).mono fun a l1 _ _ ha => safe_ret fun l2 hl2 _ => ha.later hl2)
    refine (getObjectOp_safe hinj verifyOnRead fuel bucket key range l0).mono fun r l1 _ _ hr out v hok hv => ?_
    obtain ⟨o, value, ⟨t, s, ht, hs, hget⟩, hcarries, hasked⟩ := hr out v hok hv
    exact ⟨t, s, o, value, ht, Timeline.le_of_stateAt hs, hs, hget, hcarries, hasked⟩
  | store o => exact safe_bind ((Safe.timed (o.filed c h) l).mono fun _ _ _ _ _ => safe_ret fun _ _ _ => trivial)

theorem Filed.restart {s : Store} (h : Filed c B s) : Filed c B s.restart :=
  ⟨h.files, h.blocks, h.objects, h.parts, fun _ hb => absurd hb not_mem_nil⟩

/-- Every run keeps what is filed, and what its answers promise. -/
theorem reach_safe {inlineMax : ℕ} {verifyOnRead : Bool} {k : RangeCheck ρ} (hinj : Set.InjOn c.hash B) {s0 : Store}
    (h0 : Filed c B s0) {w : Pool (Timeline Store) Choice ℕ (S3Answer ρ)}
    (hw : Pool.Reach (s3System c inlineMax verifyOnRead k) (fun _ m => Feeding B m)
      (Pool.start (Timeline.start s0)) w) :
    Filed c B w.st.now ∧
      ∀ t ∈ w.threads, Pool.SafeFrom (Timeline.rely Choice (Filed c B)) (S3Answer.Promise c B k) w.st t := by
  have hstart : (Timeline.rely Choice (Filed c B)).inv (Timeline.start s0) := h0
  exact Pool.Reach.safe (fun w task hok _ => task.safe hinj inlineMax verifyOnRead k hok w.st)
    (fun _ _ _ _ _ _ => trivial) (fun w _ h => Filed.restart h) hstart (fun t ht => absurd ht not_mem_nil) hw

/-- **One version.** Where no two chunks share an address, a GET whose body ended without an
error answered what was asked for of one version of the object, the one that was stored at some
time between the moments the request came in and was answered. -/
theorem get_one_version (c : Config) (inlineMax : ℕ) (verifyOnRead : Bool) (k : RangeCheck ρ) (B : Set Bytes)
    (hinj : Set.InjOn c.hash B) (s0 : Store) (h0 : Filed c B s0) (w : Pool (Timeline Store) Choice ℕ (S3Answer ρ))
    (hw : Pool.Reach (s3System c inlineMax verifyOnRead k) (fun _ m => Feeding B m) (Pool.start (Timeline.start s0)) w)
    (t : Thread (Timeline Store) Choice ℕ (S3Answer ρ)) (ht : t ∈ w.threads) (since till : ℕ) (bucket key : Bytes)
    (range : Option ρ) (out : GetObjectOutput) (v : Bytes)
    (hanswer : t.result = some (.got since bucket key range (.ok out) till)) (hbody : out.body = .ok v) :
    ∃ m s o value, since ≤ m ∧ m ≤ till ∧ w.st.stateAt m = some s ∧ (s.tree bucket).get key = some (.record o) ∧
      o.Carries c B value ∧ Asked k range value v := by
  obtain ⟨hinv, hsafe⟩ := reach_safe hinj h0 hw
  exact (hsafe t ht).returned hinv hanswer out v rfl hbody

/-- A range by its first and its last byte. -/
def firstLast : RangeCheck (ℕ × ℕ) where
  check r n := if r.1 ≤ r.2 ∧ r.1 < n ∧ r.2 + 1 < 2 ^ 64 then some (r.1, min (r.2 + 1) n) else none
  satisfiable r n start stop h := by
    split at h
    · cases h; omega
    · cases h

/-- A body that was answered in full, with its request and its times. -/
structure Gotten (ρ : Type) where
  since : ℕ
  bucket : Bytes
  key : Bytes
  range : Option ρ
  till : ℕ
  body : Bytes
deriving DecidableEq

/-- The body a GET answered. -/
def S3Answer.gotten : S3Answer ρ → Option (Gotten ρ)
  | got since bucket key range (.ok out) till =>
    match out.body with
    | .ok v => some ⟨since, bucket, key, range, till, v⟩
    | .error _ => none
  | _ => none

theorem S3Answer.of_gotten {a : S3Answer ρ} {g : Gotten ρ} (h : a.gotten = some g) :
    ∃ out, a = .got g.since g.bucket g.key g.range (.ok out) g.till ∧ out.body = .ok g.body := by
  unfold gotten at h
  split at h
  · split at h
    · rename_i hbody; cases h; exact ⟨_, rfl, hbody⟩
    · cases h
  · cases h

/-- A PUT of `abc`, and a GET of its last two bytes that has opened the block when the object is
deleted. -/
def getBesideDelete : List (Move (S3Task (ℕ × ℕ)) Choice) := List.flatten [
  [.spawn (.request (.createBucket [98]))], List.replicate 7 (.run 0 steady),
  [.spawn (.request (.putObject [98] [107] true none (some [some abc]) (some 3)))], List.replicate 15 (.run 1 steady),
  [.spawn (.get 10 [98] [107] (some (1, 7)))], List.replicate 6 (.run 2 steady),
  [.spawn (.request (.deleteObject [98] [107]))], List.replicate 9 (.run 3 steady), List.replicate 3 (.run 2 steady)]

theorem abc_fed : Feeds {abc} [some abc] := by
  intro bytes hb
  have hchunks : buffered [some abc] [] = [some abc] := by decide +kernel
  rw [hchunks, mem_singleton, Option.some.injEq] at hb
  exact hb

theorem version_beside_delete : ∃ w m s o value,
    (Pool.start (Timeline.start Store.empty)).exec (s3System abcConfig 0 false firstLast) getBesideDelete = some w ∧
    16 ≤ m ∧ m ≤ 28 ∧ w.st.stateAt m = some s ∧ (s.tree [98]).get [107] = some (.record o) ∧
    o.Carries abcConfig {abc} value ∧ Asked firstLast (some (1, 7)) value [98, 99] := by
  have hrun : ((Pool.start (Timeline.start Store.empty)).exec (s3System abcConfig 0 false firstLast) getBesideDelete).map
      (fun w => (w.threads[2]?.bind Thread.result).bind S3Answer.gotten) =
        some (some ⟨16, [98], [107], some (1, 7), 28, [98, 99]⟩) := by decide +kernel
  obtain ⟨w, hw, hgot⟩ := Option.map_eq_some_iff.1 hrun
  obtain ⟨a, ha, hgotten⟩ := Option.bind_eq_some_iff.1 hgot
  obtain ⟨t, ht, hresult⟩ := Option.bind_eq_some_iff.1 ha
  obtain ⟨out, rfl, hbody⟩ := S3Answer.of_gotten hgotten
  have hreach : Pool.Reach (s3System abcConfig 0 false firstLast) (fun _ m => Feeding {abc} m)
      (Pool.start (Timeline.start Store.empty)) w := by
    refine Pool.Reach.refl.exec (fun m hm _ => ?_) hw
    simp only [getBesideDelete, flatten_cons, flatten_nil, append_nil, mem_append, mem_singleton,
      mem_replicate] at hm
    rcases hm with rfl | ⟨-, rfl⟩ | rfl | ⟨-, rfl⟩ | rfl | ⟨-, rfl⟩ | rfl | ⟨-, rfl⟩ | ⟨-, rfl⟩
    all_goals first | exact trivial | exact fun pieces h => by cases h; exact abc_fed
  obtain ⟨m, s, o, value, h⟩ := get_one_version abcConfig 0 false firstLast {abc} (Set.injOn_singleton _ _) Store.empty
    (filed_empty _ _) w hreach t (mem_of_getElem? ht) 16 28 [98] [107] (some (1, 7)) out [98, 99] hresult hbody
  exact ⟨w, m, s, o, value, hw, h⟩

/-- **What is stored is what its names and sizes say**, whatever is served, stopped or crashed: a file holds a chunk of the
address in its path, and the chunks an object or a part names make up a value of its size. -/
theorem s3_filed {inlineMax : ℕ} {verifyOnRead : Bool} {k : RangeCheck ρ} (hinj : Set.InjOn c.hash B)
    {w : Pool (Timeline Store) Choice ℕ (S3Answer ρ)}
    (hw : Pool.Reach (s3System c inlineMax verifyOnRead k) (fun _ m => Feeding B m)
      (Pool.start (Timeline.start Store.empty)) w) : Filed c B w.st.now :=
  (reach_safe hinj (filed_empty c B) hw).1

/-- A PUT of `abc` to the blocks, and a part of an upload with the same chunk. -/
def putAndPart : List (Move (S3Task (ℕ × ℕ)) Choice) := List.flatten [
  [.spawn (.request (.createBucket [98]))], List.replicate 7 (.run 0 steady),
  [.spawn (.request (.putObject [98] [107] true none (some [some abc]) (some 3)))],
  List.replicate 15 (.run 1 steady),
  [.spawn (.request (.createMultipartUpload [98] [108] [117]))], List.replicate 5 (.run 2 steady),
  [.spawn (.request (.uploadPart [98] [108] [117] 1 (some [some abc]) (some 3) none))],
  List.replicate 11 (.run 3 steady)]

/-- One file and one block record for the chunk, of which the object and the part are made. -/
theorem s3_filed_part : ∃ w, (Pool.start (Timeline.start Store.empty)).exec
      (s3System abcConfig 0 false firstLast) putAndPart = some w ∧
    (w.st.now.files.entries.map Prod.snd, w.st.now.blocks.keys, (w.st.now.tree [98]).keys,
      w.st.now.parts.entries.length) = ([abc], [abcId], [[107]], 1) ∧ Filed abcConfig {abc} w.st.now := by
  have hrun : ((Pool.start (Timeline.start Store.empty)).exec (s3System abcConfig 0 false firstLast)
      putAndPart).map (fun w => (w.st.now.files.entries.map Prod.snd, w.st.now.blocks.keys,
        (w.st.now.tree [98]).keys, w.st.now.parts.entries.length)) =
        some ([abc], [abcId], [[107]], 1) := by decide +kernel
  obtain ⟨w, hw, hcounts⟩ := Option.map_eq_some_iff.1 hrun
  refine ⟨w, hw, hcounts, s3_filed (Set.injOn_singleton _ _) (Pool.Reach.refl.exec (fun m hm _ => ?_) hw)⟩
  simp only [putAndPart, flatten_cons, flatten_nil, append_nil, mem_append,
    mem_singleton, mem_replicate] at hm
  rcases hm with rfl | ⟨-, rfl⟩ | rfl | ⟨-, rfl⟩ | rfl | ⟨-, rfl⟩ | rfl | ⟨-, rfl⟩
  all_goals first | exact trivial | exact fun pieces h => by cases h; exact abc_fed

end Interleavings

end QssStorage
