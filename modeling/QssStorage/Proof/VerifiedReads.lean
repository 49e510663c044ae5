import QssStorage.Proof.Streams

/-!
# Reads that verify

A stream that verifies reads a block file to its end, hashes what it read and hands it out only
if the hash is the block's address. The files may be missing or hold anything.

* `polls_checked`: whatever happens to the files in between, **every item is a block that hashes
  to its address**.
-/

namespace QssStorage

open Conc Prog BlockStream List

/-- The blocks among what a client got. -/
def handedOut (ps : List Poll) : List Bytes :=
  ps.filterMap fun
    | .item (.ok bytes) => some bytes
    | _ => none

/-- What a client got before the first error. -/
def untilError (ps : List Poll) : List Poll := ps.takeWhile fun p => !p.failed

/-- The first blocks whose files are there and hash to their addresses. -/
def firstMatching (c : Config) (s : Store) : List ((BlockId ×ₗ ℕ) × ℕ) → List BlockId → List Bytes
  | (path, _) :: paths, id :: ids =>
    match s.files.get path with
    | some content => if c.hash content = id then content :: firstMatching c s paths ids else []
    | none => []
  | _, _ => []

/-- What hashes to the address of a block has the block's size. -/
def SizesTrue (c : Config) (s : Store) (paths : List ((BlockId ×ₗ ℕ) × ℕ)) (ids : List BlockId) : Prop :=
  ∀ (i : ℕ) path size content, paths[i]? = some (path, size) → s.files.get path = some content → ids[i]? = some (c.hash content) →
    content.length = size

variable (c : Config) {paths : List ((BlockId ×ₗ ℕ) × ℕ)} {ids : List BlockId} {b : BlockStream} {s : Store}

/-! ## Every item hashes to its address -/

section Safety

variable {P : ℕ → Bytes → Prop}

/-- A stream whose buffer is what was read of the file it has open. -/
structure Buffering (P : ℕ → Bytes → Prop) (paths : List ((BlockId ×ₗ ℕ) × ℕ)) (ids : List BlockId) (b : BlockStream) :
    Prop where
  paths : b.paths = paths
  range : b.range = .all
  checks : b.verify = some ids
  between : b.file = none → b.buf = []
  inside : ∀ file, b.file = some file → P b.reading file.content ∧ b.buf = file.content.take file.pos

/-- A block that hashes to its address. -/
def Vouched (P : ℕ → Bytes → Prop) (ids : List BlockId) (bytes : Bytes) : Prop :=
  ∃ i, ids[i]? = some (c.hash bytes) ∧ P i bytes

/-- What a pass is good for. -/
def PassesOn (P : ℕ → Bytes → Prop) (paths : List ((BlockId ×ₗ ℕ) × ℕ)) (ids : List BlockId) (r : Poll × BlockStream) : Prop :=
  Buffering P paths ids r.2 ∧ ∀ bytes, r.1 = .item (.ok bytes) → Vouched c P ids bytes

theorem finish_vouched (h : Buffering P paths ids b) (hwhole : P b.reading b.buf) :
    PassesOn c P paths ids (b.finishVerifiedBlock c ids) := by
  have hrest : Buffering P paths ids { b with file := none, buf := [] } :=
    { paths := h.paths, range := h.range, checks := h.checks, between := fun _ => rfl, inside := nofun }
  unfold finishVerifiedBlock
  dsimp only
  split
  · exact ⟨hrest, nofun⟩
  rename_i expected hexpected
  split
  · rename_i hhash
    refine ⟨⟨h.paths, h.range, h.checks, fun _ => rfl, nofun⟩, fun bytes hbytes => ?_⟩
    cases hbytes
    exact ⟨b.reading, by rw [hexpected, hhash], hwhole⟩
  · split <;> exact ⟨hrest, nofun⟩

theorem pollFile_vouched (h : Buffering P paths ids b) {file : OpenFile} (hfile : b.file = some file) :
    Confined (FilesIn P paths) (fun _ _ => True) (b.pollFile c b.size file) (PassesOn c P paths ids) := by
  obtain ⟨hP, hbuf⟩ := h.inside file hfile
  rw [pollFile_verified c h.checks]
  refine confined_bind ((readFile_confined file (by decide)).imp fun r hr => ?_)
  cases r with
  | error e => exact ⟨h, nofun⟩
  | ok bytes =>
    obtain ⟨n, hn, -, hbytes⟩ := hr bytes rfl
    have hlen := congrArg List.length hbytes
    rw [length_take, length_drop] at hlen
    cases bytes with
    | nil =>
      -- nothing more came: the buffer holds the whole file
      rw [length_nil] at hlen
      have hall : b.buf = file.content := by rw [hbuf, take_of_length_le (by omega)]
      exact finish_vouched c h (hall ▸ hP)
    | cons x bytes =>
      have htake : x :: bytes = (file.content.drop file.pos).take (x :: bytes).length := by
        rw [hlen, ← length_drop, ← take_eq_take_min, ← hbytes]
      refine ⟨⟨h.paths, h.range, h.checks, nofun, fun file' hfile' => ?_⟩, nofun⟩
      cases hfile'
      refine ⟨hP, ?_⟩
      dsimp only
      rw [hbuf, take_add, ← htake]

theorem pollOpen_vouched (h : Buffering P paths ids b) (hfile : b.file = none) {path : BlockId ×ₗ ℕ} {size : ℕ}
    (hpath : b.paths[b.fp]? = some (path, size)) :
    Confined (FilesIn P paths) (fun _ _ => True) (b.pollOpen b.processed b.fp path) (PassesOn c P paths ids) := by
  refine confined_bind ((openFile_confined (h.paths ▸ hpath)).imp fun r hr => ?_)
  cases r with
  | error e => exact ⟨⟨h.paths, h.range, h.checks, h.between, fun file hf => by rw [hfile] at hf; cases hf⟩, nofun⟩
  | ok content =>
    refine ⟨⟨h.paths, h.range, h.checks, nofun, fun file hf => ?_⟩, nofun⟩
    cases hf
    exact ⟨hr content rfl, by dsimp only; rw [h.between hfile, take_zero]⟩

/-- One pass hands out nothing that does not hash to its address. -/
theorem poll_vouched (h : Buffering P paths ids b) :
    Confined (FilesIn P paths) (fun _ _ => True) (b.poll c) (PassesOn c P paths ids) := by
  rw [poll_whole c h.range]
  split
  · exact ⟨h, nofun⟩
  split
  · rename_i file hfile
    exact pollFile_vouched c h hfile
  rename_i hfile
  split
  · exact ⟨h, nofun⟩
  · rename_i entry hentry
    exact pollOpen_vouched c h hfile hentry

/-- **No item that does not hash to its address**, however often the stream is polled. -/
theorem polls_checked : ∀ (n : ℕ) {b : BlockStream}, Buffering P paths ids b →
    Confined (FilesIn P paths) (fun _ _ => True) (b.polls c n) fun ps => ∀ bytes ∈ handedOut ps, Vouched c P ids bytes := by
  intro n
  induction n with
  | zero => intro b _ bytes hbytes; cases hbytes
  | succ n ih =>
    intro b h
    refine confined_bind ((poll_vouched c h).imp fun r hr => ?_)
    obtain ⟨p, b'⟩ := r
    obtain ⟨hb', hitem⟩ := hr
    cases p with
    | finished => intro bytes hbytes; cases hbytes
    | again => exact confined_bind ((ih hb').imp fun ps hps => hps)
    | item item =>
      refine confined_bind ((ih hb').imp fun ps hps => ?_)
      cases item with
      | error e => exact hps
      | ok bytes => exact forall_mem_cons.2 ⟨hitem bytes rfl, hps⟩

end Safety

/-! ## The blocks before the first error -/

section Exactness

variable {path : BlockId ×ₗ ℕ} {content : Bytes} {Q : Except BodyErr Bytes → Store → Prop}

/-- What a client got from a stream with the files `rest` left. -/
structure ReadOf (s : Store) (rest : List ((BlockId ×ₗ ℕ) × ℕ)) (ids : List BlockId) (ps : List Poll) : Prop where
  blocks : (handedOut (untilError ps)).flatten = (firstMatching c s rest ids).flatten
  whole : (firstMatching c s rest ids).length = rest.length → (∀ p ∈ ps, p.failed = false) ∧ .finished ∈ ps

variable {rest : List ((BlockId ×ₗ ℕ) × ℕ)} {left : List BlockId} {ps : List Poll}

theorem ReadOf.again (h : ReadOf c s rest left ps) : ReadOf c s rest left (.again :: ps) :=
  ⟨h.blocks, fun hall => ⟨forall_mem_cons.2 ⟨rfl, (h.whole hall).1⟩, mem_cons_of_mem _ (h.whole hall).2⟩⟩

/-- An error, at a block that does not match. -/
theorem ReadOf.failed {entry : (BlockId ×ₗ ℕ) × ℕ} {id : BlockId} (e : BodyErr) (ps : List Poll)
    (h : ∀ content, s.files.get entry.1 = some content → c.hash content ≠ id) :
    ReadOf c s (entry :: rest) (id :: left) (.item (.error e) :: ps) := by
  have hnone : firstMatching c s (entry :: rest) (id :: left) = [] := by
    obtain ⟨path, size⟩ := entry
    unfold firstMatching
    cases hfile : s.files.get path with
    | none => rfl
    | some content => exact if_neg (h content hfile)
  exact ⟨by rw [hnone]; rfl, fun hall => by rw [hnone] at hall; cases hall⟩

/-- A block that matches. -/
theorem ReadOf.passed {size : ℕ} (hfile : s.files.get path = some content) (h : ReadOf c s rest left ps) :
    ReadOf c s ((path, size) :: rest) (c.hash content :: left) (.item (.ok content) :: ps) := by
  have hfirst : firstMatching c s ((path, size) :: rest) (c.hash content :: left) = content :: firstMatching c s rest left := by
    rw [firstMatching, hfile]
    exact if_pos rfl
  refine ⟨?_, fun hall => ?_⟩
  · rw [hfirst, flatten_cons, ← h.blocks]
    rfl
  · rw [hfirst, length_cons, length_cons] at hall
    obtain ⟨hgood, hend⟩ := h.whole (Nat.succ.inj hall)
    exact ⟨forall_mem_cons.2 ⟨rfl, hgood⟩, mem_cons_of_mem _ hend⟩

/-- Files of no size add nothing, so the stream may end before it has opened them. -/
theorem ReadOf.ended : ∀ {rest : List ((BlockId ×ₗ ℕ) × ℕ)} {left : List BlockId}, SizesTrue c s rest left →
    (rest.map Prod.snd).sum = 0 → ReadOf c s rest left [.finished] := by
  have hempty : ∀ (rest : List ((BlockId ×ₗ ℕ) × ℕ)) (left : List BlockId), SizesTrue c s rest left →
      (rest.map Prod.snd).sum = 0 → (firstMatching c s rest left).flatten = [] := by
    intro rest
    induction rest with
    | nil => intro left _ _; rfl
    | cons entry rest ih =>
      intro left hsizes hsum
      obtain ⟨path, size⟩ := entry
      rw [map_cons, sum_cons] at hsum
      cases left with
      | nil => rfl
      | cons id left =>
        unfold firstMatching
        cases hfile : s.files.get path with
        | none => rfl
        | some content =>
          dsimp only
          split
          · rename_i hhash
            have hlen : content.length = size := hsizes 0 path size content rfl hfile (by rw [← hhash]; rfl)
            obtain rfl : content = [] := length_eq_zero_iff.1 (by omega)
            exact ih left (fun i path' size' => hsizes (i + 1) path' size') (by omega)
          · rfl
  intro rest left hsizes hsum
  exact ⟨(hempty rest left hsizes hsum).symm, fun _ => ⟨by simp [Poll.failed], mem_singleton_self _⟩⟩

/-- A pass always comes to something. -/
theorem poll_answers (hrange : b.range = .all) (hverify : b.verify = some ids) :
    Ends readsOk (b.poll c) (fun r s' => s' = s ∧ r.2.range = .all ∧ r.2.verify = some ids) s := by
  rw [poll_whole c hrange]
  split
  · exact ⟨rfl, hrange, hverify⟩
  split
  · rw [pollFile_verified c hverify]
    refine ends_bind (readFile_answers (fun _ he => he) (by decide) fun n _ => ?_)
    split
    · exact ⟨rfl, hrange, hverify⟩
    · refine ⟨rfl, ?_⟩
      unfold finishVerifiedBlock
      dsimp only
      split
      · exact ⟨hrange, hverify⟩
      · split
        · exact ⟨hrange, hverify⟩
        · split <;> exact ⟨hrange, hverify⟩
    · exact ⟨rfl, hrange, hverify⟩
  · split
    · exact ⟨rfl, hrange, hverify⟩
    · exact ends_bind (openFile_answers (fun _ he => he) (fun _ => ⟨rfl, hrange, hverify⟩) fun _ _ => ⟨rfl, hrange, hverify⟩)

theorem polls_answer : ∀ (n : ℕ) {b : BlockStream}, b.range = .all → b.verify = some ids →
    Ends readsOk (b.polls c n) (fun _ s' => s' = s) s := by
  intro n
  induction n with
  | zero => intro b _ _; rfl
  | succ n ih =>
    intro b hrange hverify
    refine ends_bind ((poll_answers c hrange hverify).mono ?_)
    rintro ⟨p, b'⟩ _ ⟨rfl, hrange', hverify'⟩
    cases p with
    | finished => rfl
    | again | item item => exact ends_bind ((ih hrange' hverify').mono fun _ _ h => h)

/-- After an error the client may go on as it likes. -/
theorem polls_failed {Q : List Poll → Prop} (hQ : ∀ e ps, Q (.item (.error e) :: ps)) (n : ℕ) (e : BodyErr)
    (hrange : b.range = .all) (hverify : b.verify = some ids) :
    Ends readsOk ((b.polls c n).bind fun rest => .ret (.item (.error e) :: rest)) (fun ps s' => s' = s ∧ Q ps) s :=
  ends_bind ((polls_answer c n hrange hverify).mono fun _ _ h => ⟨h, hQ e _⟩)

/-- **The rest of a file**, by induction on the bytes that are left of it. -/
theorem polls_file {Q : List Poll → Prop} (hagain : ∀ ps, Q ps → Q (.again :: ps)) {id : BlockId} {i n : ℕ}
    (hid : ids[i]? = some id) (hwrong : c.hash content ≠ id → ∀ e ps, Q (.item (.error e) :: ps)) :
    ∀ (k : ℕ) {b : BlockStream} {pos m : ℕ}, content.length - pos ≤ k → b.file = some ⟨content, pos⟩ →
      b.buf = content.take pos → b.reading = i → b.range = .all → b.verify = some ids → b.processed < b.size → n + k + 1 ≤ m →
      (c.hash content = id → ∀ m, n ≤ m → Ends readsOk
        ({ b with file := none, buf := [], processed := b.processed + content.length }.polls c m)
        (fun ps s' => s' = s ∧ Q (.item (.ok content) :: ps)) s) →
      Ends readsOk (b.polls c m) (fun ps s' => s' = s ∧ Q ps) s := by
  intro k
  induction k with
  | zero =>
    intro b pos m hk hfile hbuf hi hrange hverify hmore hm hright
    obtain ⟨m, rfl⟩ : ∃ m', m = m' + 1 := ⟨m - 1, by omega⟩
    refine ends_bind ?_
    rw [poll_whole c hrange, if_neg (Nat.not_le_of_lt hmore), hfile]
    dsimp only
    rw [pollFile_verified c hverify]
    refine ends_bind (readFile_answers (fun _ he => he) (by decide) fun count _ => ?_)
    -- the file is at its end, and the buffer holds all of it
    have hend : (content.drop pos).take count = [] := by rw [drop_eq_nil_of_le (by omega), take_nil]
    have hall : b.buf = content := by rw [hbuf, take_of_length_le (by omega)]
    dsimp only
    rw [hend]
    dsimp only
    unfold finishVerifiedBlock
    have hid' : ids[b.reading]? = some id := hi ▸ hid
    rw [hid', hall]
    dsimp only
    by_cases hhash : c.hash content = id
    · rw [if_pos hhash]
      exact ends_bind ((hright hhash m (by omega)).mono fun _ _ h => h)
    · rw [if_neg hhash]
      split
      · exact polls_failed c (hwrong hhash) m _ hrange hverify
      · exact polls_failed c (hwrong hhash) m _ hrange hverify
  | succ k ih =>
    intro b pos m hk hfile hbuf hi hrange hverify hmore hm hright
    by_cases hshort : content.length - pos ≤ k
    · exact ih hshort hfile hbuf hi hrange hverify hmore (by omega) hright
    obtain ⟨m, rfl⟩ : ∃ m', m = m' + 1 := ⟨m - 1, by omega⟩
    refine ends_bind ?_
    rw [poll_whole c hrange, if_neg (Nat.not_le_of_lt hmore), hfile]
    dsimp only
    rw [pollFile_verified c hverify]
    refine ends_bind (readFile_answers (fun _ he => he) (by decide) fun count hcount => ?_)
    dsimp only
    have hlen : ((content.drop pos).take count).length = min count (content.length - pos) := by
      rw [length_take, length_drop]
    have hbytes : content.take pos ++ (content.drop pos).take count = content.take (pos + ((content.drop pos).take count).length) := by
      rw [take_add, hlen, ← length_drop, ← take_eq_take_min]
    generalize (content.drop pos).take count = bytes at hlen hbytes ⊢
    cases bytes with
    | nil =>
      rw [length_nil] at hlen
      omega
    | cons x bytes =>
      refine ends_bind ((ih (b := { b with buf := b.buf ++ x :: bytes, file := some ⟨content, pos + (x :: bytes).length⟩ })
        (by omega) rfl (by dsimp only; rw [hbuf, hbytes]) hi hrange hverify hmore (by omega) hright).mono ?_)
      rintro ps _ ⟨rfl, hps⟩
      exact ⟨rfl, hagain ps hps⟩

/-- How often a client has to poll for the files that are left. -/
def pollsFor (s : Store) (rest : List ((BlockId ×ₗ ℕ) × ℕ)) : ℕ :=
  (rest.map fun entry => ((s.files.get entry.1).getD []).length + 2).sum + 1

/-- **The files that are left**, by induction on them. -/
theorem polls_rest : ∀ (rest : List ((BlockId ×ₗ ℕ) × ℕ)) {b : BlockStream} {n : ℕ}, b.paths.drop b.fp = rest →
    ids.length = b.paths.length → SizesTrue c s rest (ids.drop b.fp) → b.file = none → b.buf = [] → b.range = .all →
    b.verify = some ids → b.processed + (rest.map Prod.snd).sum = b.size → pollsFor s rest ≤ n →
      Ends readsOk (b.polls c n) (fun ps s' => s' = s ∧ ReadOf c s rest (ids.drop b.fp) ps) s := by
  intro rest
  induction rest with
  | nil =>
    intro b n hrest hlen hsizes hfile hbuf hrange hverify hsum hn
    obtain ⟨n, rfl⟩ : ∃ m, n = m + 1 := ⟨n - 1, by unfold pollsFor at hn; omega⟩
    refine ends_bind ?_
    rw [map_nil, sum_nil] at hsum
    rw [poll_whole c hrange, if_pos (by omega)]
    exact ⟨rfl, ReadOf.ended c hsizes rfl⟩
  | cons entry rest ih =>
    intro b n hrest hlen hsizes hfile hbuf hrange hverify hsum hn
    obtain ⟨path, size⟩ := entry
    have hcost : pollsFor s ((path, size) :: rest) = ((s.files.get path).getD []).length + 2 + pollsFor s rest := by
      simp only [pollsFor, map_cons, sum_cons]
      omega
    rw [hcost] at hn
    rw [map_cons, sum_cons] at hsum
    obtain ⟨n, rfl⟩ : ∃ m, n = m + 1 := ⟨n - 1, by omega⟩
    have hpath : b.paths[b.fp]? = some (path, size) := by
      rw [← head?_drop, hrest]
      rfl
    have hlt : b.fp < ids.length := hlen ▸ (List.getElem?_eq_some_iff.1 hpath).1
    obtain ⟨id, hid⟩ : ∃ id, ids[b.fp]? = some id := ⟨_, getElem?_eq_getElem hlt⟩
    have hleft : ids.drop b.fp = id :: ids.drop (b.fp + 1) := by
      rw [← getElem_cons_drop hlt, (List.getElem?_eq_some_iff.1 hid).2]
    have htail : b.paths.drop (b.fp + 1) = rest := by rw [← tail_drop, hrest]; rfl
    refine ends_bind ?_
    rw [poll_whole c hrange]
    by_cases hdone : b.size ≤ b.processed
    · -- only files of no size are left
      rw [if_pos hdone]
      refine ⟨rfl, ReadOf.ended c hsizes ?_⟩
      rw [map_cons, sum_cons]
      omega
    rw [if_neg hdone, hfile, hpath]
    rw [hleft] at hsizes ⊢
    refine ends_bind (openFile_answers (fun _ he => he) (fun hmissing => ?_) fun content hcontent => ?_)
    · refine polls_failed c (fun e ps => ReadOf.failed c e ps fun content hcontent => ?_) n _ hrange hverify
      cases hmissing.symm.trans hcontent
    rw [hcontent, Option.getD_some] at hn
    refine ends_bind ((polls_file c (Q := ReadOf c s ((path, size) :: rest) (id :: ids.drop (b.fp + 1)))
      (fun ps h => ReadOf.again c h) hid (fun hwrong e ps => ReadOf.failed c e ps ?_)
      content.length (n := pollsFor s rest) (m := n)
      (b := { b with fp := b.fp + 1, reading := b.fp, hasSeeked := false, file := some ⟨content, 0⟩ }) (Nat.sub_le _ _) rfl (by rw [take_zero]; exact hbuf) rfl hrange hverify
      (Nat.lt_of_not_le hdone) (by omega) ?_).mono ?_)
    · intro content' hcontent'
      cases hcontent.symm.trans hcontent'
      exact hwrong
    · intro hhash m hm
      have hsize : content.length = size := hsizes 0 path size content rfl hcontent (by rw [hhash]; rfl)
      refine (ih (b := { b with fp := b.fp + 1, reading := b.fp, hasSeeked := false, file := none, buf := []
                                processed := b.processed + content.length }) htail hlen
        (fun i path' size' => hsizes (i + 1) path' size') rfl rfl hrange hverify (by dsimp only; omega) hm).mono ?_
      rintro ps _ ⟨rfl, hps⟩
      exact ⟨rfl, hhash ▸ ReadOf.passed c hcontent hps⟩
    · rintro ps _ ⟨rfl, hps⟩
      exact ⟨rfl, ReadOf.again c hps⟩

/-- The blocks of an object whose files are all there and match. -/
theorem firstMatching_all : ∀ {paths : List ((BlockId ×ₗ ℕ) × ℕ)} {cs : List Bytes},
    paths.map (fun entry => s.files.get entry.1) = cs.map some → firstMatching c s paths (cs.map c.hash) = cs := by
  intro paths
  induction paths with
  | nil =>
    intro cs h
    rw [map_eq_nil_iff.1 h.symm]
    rfl
  | cons entry paths ih =>
    intro cs h
    obtain ⟨content, cs, rfl, hfile, hrest⟩ := map_eq_cons_iff.1 h.symm
    obtain ⟨path, size⟩ := entry
    dsimp only at hfile
    rw [map_cons, firstMatching, ← hfile]
    dsimp only
    rw [if_pos rfl, ih hrest.symm]

end Exactness

/-- The stream of a whole read that verifies. -/
def wholeRead (paths : List ((BlockId ×ₗ ℕ) × ℕ)) (ids : List BlockId) : BlockStream :=
  (BlockStream.new paths (paths.map Prod.snd).sum .all).verified ids

theorem wholeRead_verify (h : ids.length = paths.length) :
    wholeRead paths ids = { new paths (paths.map Prod.snd).sum .all with verify := some ids } := by
  unfold wholeRead verified
  exact if_pos ⟨rfl, h⟩

/-- **A read that verifies yields the first blocks that match their addresses.** Whatever becomes of the files meanwhile,
every block it hands out hashes to its address. If no read fails, the blocks before the first error are the first that match;
and if all match, they are the whole object and no error comes. -/
theorem verified_read (c : Config) (paths : List ((BlockId ×ₗ ℕ) × ℕ)) (ids : List BlockId) (hlen : ids.length = paths.length) :
    (∀ (P : ℕ → Bytes → Prop) (n : ℕ), Confined (FilesIn P paths) (fun _ _ => True) ((wholeRead paths ids).polls c n) fun ps =>
      ∀ bytes ∈ handedOut ps, ∃ i, ids[i]? = some (c.hash bytes) ∧ P i bytes) ∧
    ∀ s, SizesTrue c s paths ids → ∀ n, pollsFor s paths ≤ n →
      Ends readsOk ((wholeRead paths ids).polls c n) (fun ps s' => s' = s ∧
        (handedOut (untilError ps)).flatten = (firstMatching c s paths ids).flatten ∧
        ∀ cs : List Bytes, paths.map (fun entry => s.files.get entry.1) = cs.map some → ids = cs.map c.hash →
          (handedOut ps).flatten = cs.flatten ∧ (∀ p ∈ ps, p.failed = false) ∧ .finished ∈ ps) s := by
  rw [wholeRead_verify hlen]
  refine ⟨fun P n => polls_checked c n ⟨rfl, rfl, rfl, fun _ => rfl, nofun⟩, fun s hsizes n hn => ?_⟩
  refine (polls_rest c paths rfl hlen hsizes rfl rfl rfl rfl (Nat.zero_add _) hn).mono ?_
  rintro ps _ ⟨rfl, hread : ReadOf c _ paths ids ps⟩
  refine ⟨rfl, hread.blocks, fun cs hfiles hids => ?_⟩
  have hblocks := hread.blocks
  have hall := firstMatching_all c hfiles
  have hwhole := hread.whole
  rw [hids, hall] at hblocks hwhole
  have hcount := congrArg List.length hfiles
  rw [length_map, length_map] at hcount
  obtain ⟨hgood, hend⟩ := hwhole hcount.symm
  have huntil : untilError ps = ps := takeWhile_eq_self_iff.2 fun p hp => by rw [hgood p hp]; rfl
  rw [huntil] at hblocks
  exact ⟨hblocks, hgood, hend⟩

/-- A store in which the file of the block `x` holds other bytes. -/
def alteredStore : Store :=
  { Store.empty with
    files := ((∅ : OrdMap (BlockId ×ₗ ℕ) Bytes).insert (toLex (abcId, 1)) abc).insert (toLex (xId, 1)) abc }

/-- The files of the blocks `abc` and `x`. -/
def alteredPaths : List ((BlockId ×ₗ ℕ) × ℕ) := [(toLex (abcId, 1), 3), (toLex (xId, 1), 1)]

theorem altered_sizesTrue : SizesTrue abcConfig alteredStore alteredPaths [abcId, xId] := by
  intro i path size content hpath hfile hid
  match i with
  | 0 =>
    cases hpath
    have hcontent : alteredStore.files.get (toLex (abcId, 1)) = some abc := by decide +kernel
    cases hcontent.symm.trans hfile
    rfl
  | 1 =>
    have hne : ¬ xId = abcId := by decide +kernel
    exact absurd (Option.some.inj hid) hne
  | i + 2 => cases hpath

/-- The first block is read, and then comes an error. -/
theorem verified_read_altered : firstMatching abcConfig alteredStore alteredPaths [abcId, xId] = [abc] ∧
    Ends readsOk ((wholeRead alteredPaths [abcId, xId]).polls abcConfig 11) (fun ps s' => s' = alteredStore ∧
      (handedOut (untilError ps)).flatten = (firstMatching abcConfig alteredStore alteredPaths [abcId, xId]).flatten ∧
      ∀ cs : List Bytes, alteredPaths.map (fun entry => alteredStore.files.get entry.1) = cs.map some →
        [abcId, xId] = cs.map abcConfig.hash →
          (handedOut ps).flatten = cs.flatten ∧ (∀ p ∈ ps, p.failed = false) ∧ .finished ∈ ps) alteredStore :=
  ⟨by decide +kernel,
    (verified_read abcConfig alteredPaths [abcId, xId] rfl).2 alteredStore altered_sizesTrue 11 (by decide +kernel)⟩

end QssStorage
