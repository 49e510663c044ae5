import QssStorage.Conc.Rely
import QssStorage.Proof.Chunks
import QssStorage.Spec.GetObject

/-!
# What a block stream yields

A stream over files whose contents are `cs` yields the window it was asked for, whatever each
read brings: the bytes processed so far stand for a place in `cs.flatten`, at the end of a file
or inside the one that is open (`Reading`), and a verifying stream hands out whole files only
(`Verifying`).

* `collect_confined`: **a body that ends without an error is the window.**
-/

namespace QssStorage

open Conc Prog BlockStream List

/-! ## Places in a list of contents -/

section Places

variable {α : Type}
variable {cs : List (List α)} {content : List α}

/-- Where the `i`-th of several lists begins. -/
def offset (cs : List (List α)) (i : ℕ) : ℕ := (cs.take i).flatten.length

@[simp] theorem offset_zero (cs : List (List α)) : offset cs 0 = 0 := rfl

theorem offset_succ {i : ℕ} (h : cs[i]? = some content) : offset cs (i + 1) = offset cs i + content.length := by
  unfold offset
  rw [take_add_one, h, Option.toList_some, flatten_append, length_append]
  simp

theorem offset_length (cs : List (List α)) : offset cs cs.length = cs.flatten.length := by
  rw [offset, take_length]

theorem offset_mono (cs : List (List α)) {i j : ℕ} (h : i ≤ j) : offset cs i ≤ offset cs j := by
  unfold offset
  rw [← take_append_drop i (cs.take j), take_take, min_eq_left h, flatten_append, length_append]
  omega

/-- From a place inside the `i`-th list on. -/
theorem drop_offset {i k : ℕ} (h : cs[i]? = some content) (hk : k ≤ content.length) :
    cs.flatten.drop (offset cs i + k) = content.drop k ++ (cs.drop (i + 1)).flatten := by
  obtain ⟨hlt, hget⟩ := List.getElem?_eq_some_iff.1 h
  have hsplit : cs = cs.take i ++ content :: cs.drop (i + 1) := by
    rw [← hget, getElem_cons_drop, take_append_drop]
  conv_lhs => rw [hsplit]
  rw [flatten_append, flatten_cons]
  have hlen : offset (cs.take i ++ content :: cs.drop (i + 1)) i = (cs.take i).flatten.length := by
    rw [← hsplit]; rfl
  have hnil : (cs.take i).flatten.drop ((cs.take i).flatten.length + k) = [] := drop_eq_nil_of_le (by omega)
  rw [hlen, drop_append, hnil, Nat.add_sub_cancel_left, nil_append, drop_append_of_le_length hk]

/-- A window grows by what follows it. -/
theorem window_append {l : List α} {a p n : ℕ} (h : a ≤ p) :
    (l.drop a).take (p - a) ++ (l.drop p).take n = (l.drop a).take (p + n - a) := by
  have hp : p = a + (p - a) := by omega
  have hdrop : l.drop p = (l.drop a).drop (p - a) := by rw [drop_drop, ← hp]
  rw [hdrop, ← take_add]
  congr 1
  omega

/-- The window of a list of contents. -/
def window (cs : List (List α)) (start stop : ℕ) : List α := (cs.flatten.drop start).take (stop - start)

/-- Before the window starts nothing of it was read. -/
theorem window_of_le {start stop : ℕ} (h : stop ≤ start) : window cs start stop = [] := by
  rw [window, Nat.sub_eq_zero_of_le h, take_zero]

/-- A window that ends inside the `i`-th list grows by what follows there. -/
theorem window_read (start : ℕ) {i k n : ℕ} (h : cs[i]? = some content) (hk : k ≤ content.length)
    (hstart : start ≤ offset cs i + k) (hn : n ≤ content.length - k) :
    window cs start (offset cs i + k) ++ (content.drop k).take n = window cs start (offset cs i + k + n) := by
  have htake : (content.drop k).take n = (cs.flatten.drop (offset cs i + k)).take n := by
    rw [drop_offset h hk, take_append_of_le_length (by rw [length_drop]; exact hn)]
  rw [window, htake, window_append hstart, window]

end Places

/-! ## One pass -/

section Streams

variable (c : Config) {cs : List Bytes} {start stop : ℕ}
variable {s : Store} {paths : List ((BlockId ×ₗ ℕ) × ℕ)} {ids : List BlockId} {b : BlockStream} {body : Bytes} {file : OpenFile}
variable {path : BlockId ×ₗ ℕ} {Inv : BlockStream → Bytes → Prop} {Q : Except BodyErr Bytes → Store → Prop}

/-- The files of the blocks hold only what `P` allows. -/
def FilesIn (P : ℕ → Bytes → Prop) (paths : List ((BlockId ×ₗ ℕ) × ℕ)) (s : Store) : Prop :=
  ∀ (i : ℕ) path size content, paths[i]? = some (path, size) → s.files.get path = some content → P i content

/-- They hold the contents `cs`. -/
abbrev Holding (paths : List ((BlockId ×ₗ ℕ) × ℕ)) (cs : List Bytes) : Store → Prop :=
  FilesIn (fun i content => cs[i]? = some content) paths

/-- What is left to do, in passes. -/
def BlockStream.work (cs : List Bytes) (b : BlockStream) : ℕ :=
  ((cs.drop b.fp).map fun content => content.length + 3).sum +
    match b.file with
    | none => 0
    | some file => (file.content.length - file.pos) + 1 + if b.hasSeeked then 0 else 1

/-- Where the loop over the files before the window stops. -/
theorem skipFiles_spec (start : ℕ) (hfits : stop ≤ cs.flatten.length) :
    ∀ (rest : List ((BlockId ×ₗ ℕ) × ℕ)) (processed fp : ℕ),
    rest.map Prod.snd = (cs.drop fp).map List.length → fp ≤ cs.length → processed = offset cs fp →
    match skipFiles start stop rest processed fp with
    | .finished => stop ≤ processed ∨ stop ≤ start
    | .panicked => False
    | .reached p i => fp ≤ i ∧ i ≤ cs.length ∧ p = offset cs i ∧ p < stop ∧ (i = fp ∨ p ≤ start) ∧
        ∀ content, cs[i]? = some content → start ≤ p ∨ start < p + content.length := by
  intro rest
  induction rest with
  | nil =>
    intro processed fp hsizes hfp hp
    have hdrop : cs.drop fp = [] := map_eq_nil_iff.1 hsizes.symm
    have hlen : fp = cs.length := by rw [drop_eq_nil_iff] at hdrop; omega
    have hall : stop ≤ processed := by rw [hp, hlen, offset_length]; exact hfits
    simp only [skipFiles, if_pos hall]
    exact .inl hall
  | cons entry rest ih =>
    intro processed fp hsizes hfp hp
    obtain ⟨path, size⟩ := entry
    cases hdrop : cs.drop fp with
    | nil => rw [hdrop] at hsizes; cases hsizes
    | cons content cs' =>
      rw [hdrop, map_cons, map_cons, List.cons.injEq] at hsizes
      obtain ⟨hsize, hrest⟩ := hsizes
      have hget : cs[fp]? = some content := by rw [← head?_drop, hdrop]; rfl
      have htail : cs.drop (fp + 1) = cs' := by rw [← tail_drop, hdrop]; rfl
      have hlt : fp < cs.length := (List.getElem?_eq_some_iff.1 hget).1
      have hnext : processed + size = offset cs (fp + 1) := by rw [offset_succ hget, hp, ← hsize]
      unfold skipFiles
      by_cases hstop : stop ≤ processed
      · rw [if_pos hstop]; exact .inl hstop
      rw [if_neg hstop]
      by_cases hskip : processed < start ∧ processed + size ≤ start
      · rw [if_pos hskip]
        by_cases hlast : rest.isEmpty = true
        · rw [if_pos hlast]
          have hnil : cs' = [] := by
            rw [isEmpty_iff.1 hlast] at hrest
            exact map_eq_nil_iff.1 hrest.symm
          have hend : fp + 1 = cs.length := by
            have hlen := congrArg List.length htail
            rw [hnil, length_drop, length_nil] at hlen
            omega
          rw [hend, offset_length] at hnext
          exact .inr (by omega)
        · rw [if_neg hlast]
          have hspec := ih (processed + size) (fp + 1) (by rw [htail]; exact hrest) hlt hnext
          split at hspec
          · exact .inr (by omega)
          · exact hspec
          obtain ⟨hle, hi, hpi, hps, hwhere, hin⟩ := hspec
          refine ⟨by omega, hi, hpi, hps, Or.inr ?_, hin⟩
          rcases hwhere with rfl | hle'
          · rw [hpi, ← hnext]; exact hskip.2
          · exact hle'
      · rw [if_neg hskip]
        refine ⟨le_refl _, hfp, hp, Nat.lt_of_not_le hstop, .inl rfl, fun content' hcontent => ?_⟩
        cases hget.symm.trans hcontent
        dsimp only at hsize
        omega

/-- Some bytes that a read found in a file. -/
theorem found_bytes {content bytes : Bytes} {pos n : ℕ} (h : bytes = (content.drop pos).take n) (hsome : bytes ≠ []) :
    bytes.length = min n (content.length - pos) ∧ 0 < bytes.length ∧ bytes = (content.drop pos).take bytes.length := by
  have hlen : bytes.length = min n (content.length - pos) := by rw [h, length_take, length_drop]
  refine ⟨hlen, length_pos_iff.2 hsome, ?_⟩
  rw [hlen, ← length_drop, ← take_eq_take_min, ← h]

/-- A read that found nothing was at the end of the file. -/
theorem end_of_nil {content : Bytes} {pos n : ℕ} (h : [] = (content.drop pos).take n) (hn : 0 < n) :
    content.length ≤ pos := by
  have hnil := congrArg List.length h
  rw [length_nil, length_take, length_drop] at hnil
  omega

/-- One read: at least a byte, unless the file is at its end. -/
theorem readFile_confined {J : Store → Prop} (file : OpenFile) {cap : ℕ} (hcap : 0 < cap) :
    Confined J (fun _ _ => True) (readFile file cap) fun r => ∀ bytes, r = .ok bytes →
      ∃ n, 0 < n ∧ n ≤ cap ∧ bytes = (file.content.drop file.pos).take n := by
  refine confined_step fun e s r s' hs hf => ?_
  split at hf
  · cases hf
    refine ⟨hs, trivial, fun bytes hb => ?_⟩
    cases hb
    exact ⟨min (max e.amount 1) cap, by omega, by omega, rfl⟩
  · cases hf
    exact ⟨hs, trivial, nofun⟩

/-- A file that opens holds its content. -/
theorem openFile_confined {P : ℕ → Bytes → Prop} {i size : ℕ} (hi : paths[i]? = some (path, size)) :
    Confined (FilesIn P paths) (fun _ _ => True) (openFile path) fun r => ∀ content, r = .ok content → P i content := by
  refine confined_step fun e s r s' hs hf => ?_
  split at hf
  · split at hf
    · rename_i content hfile
      cases hf
      refine ⟨hs, trivial, fun content' hc => ?_⟩
      cases hc
      exact hs i path size content hi hfile
    · cases hf
      exact ⟨hs, trivial, nofun⟩
  · cases hf
    exact ⟨hs, trivial, nofun⟩

theorem seek_confined {J : Store → Prop} : Confined J (fun _ _ => True) seek fun _ => True := by
  refine confined_step fun e s r s' hs hf => ?_
  split at hf <;> cases hf <;> exact ⟨hs, trivial, trivial⟩

/-- What one pass comes to, for a stream and a body so far that meet `Inv`. -/
def Polled (Inv : BlockStream → Bytes → Prop) (cs : List Bytes) (start stop : ℕ) (b : BlockStream) (body : Bytes) :
    Poll × BlockStream → Prop
  | (.finished, _) => body = window cs start stop
  | (.item (.ok bytes), b') => b'.paths = b.paths ∧ Inv b' (body ++ bytes) ∧ b'.work cs < b.work cs
  | (.item (.error _), _) => True
  | (.again, b') => b'.paths = b.paths ∧ Inv b' body ∧ b'.work cs < b.work cs

/-- A stream in the middle of its window: what it processed is a place in the contents. -/
structure Reading (cs : List Bytes) (start stop : ℕ) (b : BlockStream) (body : Bytes) : Prop where
  sizes : b.paths.map Prod.snd = cs.map List.length
  bounds : b.bounds = (start, stop)
  ordered : start ≤ stop
  fits : stop ≤ cs.flatten.length
  plain : b.verify = none
  upTo : b.processed ≤ stop
  body : body = window cs start b.processed
  between : b.file = none → b.fp ≤ cs.length ∧ b.processed = offset cs b.fp
  inside : ∀ file, b.file = some file → ∃ i, b.fp = i + 1 ∧ cs[i]? = some file.content ∧
    file.pos ≤ file.content.length ∧ b.processed = offset cs i + file.pos ∧
    (start ≤ b.processed ∨ b.hasSeeked = false ∧ start < b.processed + (file.content.length - file.pos))

theorem work_of_file (h : b.file = some file) :
    b.work cs = ((cs.drop b.fp).map fun content => content.length + 3).sum +
      ((file.content.length - file.pos) + 1 + if b.hasSeeked then 0 else 1) := by
  unfold work
  rw [h]

theorem work_of_none (h : b.file = none) :
    b.work cs = ((cs.drop b.fp).map fun content => content.length + 3).sum := by
  unfold work
  rw [h]
  rfl

/-- Opening a file is getting on. -/
theorem drop_work {fp i : ℕ} {content : Bytes} (hle : fp ≤ i) (hi : cs[i]? = some content) :
    ((cs.drop (i + 1)).map fun content => content.length + 3).sum + (content.length + 3) ≤
      ((cs.drop fp).map fun content => content.length + 3).sum := by
  obtain ⟨hlt, hget⟩ := List.getElem?_eq_some_iff.1 hi
  have hsplit : cs.drop fp = (cs.drop fp).take (i - fp) ++ content :: cs.drop (i + 1) := by
    have hdrop : cs.drop i = (cs.drop fp).drop (i - fp) := by rw [drop_drop]; congr 1; omega
    rw [← hget, getElem_cons_drop, hdrop, take_append_drop]
  rw [hsplit, map_append, sum_append, map_cons, sum_cons]
  omega

namespace Reading

/-- A seek to the start of the window, inside the open file. -/
theorem sought (h : Reading cs start stop b body) (hfile : b.file = some file) (hseek : b.hasSeeked = false)
    (hlt : b.processed < start) :
    let b' := { b with hasSeeked := true, processed := b.processed + (start - b.processed)
                       file := some { file with pos := file.pos + (start - b.processed) } }
    Reading cs start stop b' body ∧ b'.work cs < b.work cs := by
  obtain ⟨i, hfp, hi, hpos, hproc, hplace⟩ := h.inside file hfile
  have hordered := h.ordered
  have hroom : start < b.processed + (file.content.length - file.pos) := by
    rcases hplace with hle | ⟨-, hroom⟩ <;> omega
  refine ⟨{ h with
      upTo := by dsimp only; omega
      body := by rw [h.body, window_of_le (by omega), window_of_le (by dsimp only; omega)]
      between := nofun
      inside := by
        intro file' hfile'
        cases hfile'
        exact ⟨i, hfp, hi, by dsimp only; omega, by dsimp only; omega, .inl (by dsimp only; omega)⟩ }, ?_⟩
  rw [work_of_file hfile, work_of_file (b := { b with
    hasSeeked := true, processed := _, file := some { file with pos := file.pos + (start - b.processed) } }) rfl, hseek]
  simp only [if_true, Bool.false_eq_true, if_false]
  omega

/-- The end of the open file. -/
theorem drained (h : Reading cs start stop b body) (hfile : b.file = some file)
    (hend : file.content.length ≤ file.pos) :
    Reading cs start stop { b with file := none } body ∧ work cs { b with file := none } < b.work cs := by
  obtain ⟨i, hfp, hi, hpos, hproc, -⟩ := h.inside file hfile
  refine ⟨{ h with
      between := by
        intro _
        have hlt := (List.getElem?_eq_some_iff.1 hi).1
        refine ⟨by dsimp only; omega, ?_⟩
        dsimp only
        rw [hfp, offset_succ hi, hproc]
        omega
      inside := nofun }, ?_⟩
  rw [work_of_file hfile, work_of_none (b := { b with file := none }) rfl]
  dsimp only
  omega

/-- Some bytes of the open file, inside the window. -/
theorem took (h : Reading cs start stop b body) (hfile : b.file = some file) (hstart : start ≤ b.processed) {n : ℕ}
    {bytes : Bytes} (hn : n ≤ stop - b.processed) (hbytes : bytes = (file.content.drop file.pos).take n)
    (hsome : bytes ≠ []) :
    let b' := { b with processed := b.processed + bytes.length
                       file := some { file with pos := file.pos + bytes.length } }
    Reading cs start stop b' (body ++ bytes) ∧ b'.work cs < b.work cs := by
  obtain ⟨i, hfp, hi, hpos, hproc, -⟩ := h.inside file hfile
  obtain ⟨hlen, hlt, htake⟩ := found_bytes hbytes hsome
  refine ⟨{ h with
      upTo := by dsimp only; omega
      body := by
        have hroom : bytes.length ≤ file.content.length - file.pos := by omega
        have hread := window_read start hi hpos (hproc ▸ hstart) hroom
        rw [← htake] at hread
        dsimp only
        rw [h.body, hproc, hread]
      between := nofun
      inside := by
        intro file' hfile'
        cases hfile'
        exact ⟨i, hfp, hi, by dsimp only; omega, by dsimp only; omega, .inl (by dsimp only; omega)⟩ }, ?_⟩
  rw [work_of_file hfile, work_of_file (b := { b with
    processed := _, file := some { file with pos := file.pos + bytes.length } }) rfl]
  dsimp only
  omega

/-- What was processed before the files that were skipped. -/
theorem skipped (h : Reading cs start stop b body) (hfile : b.file = none) {p i : ℕ} (hle : b.fp ≤ i)
    (hp : p = offset cs i) (hwhere : i = b.fp ∨ p ≤ start) : body = window cs start p := by
  obtain ⟨-, hproc⟩ := h.between hfile
  rcases hwhere with rfl | hbefore
  · rw [h.body, hproc, hp]
  · have hmono := offset_mono cs hle
    rw [h.body, window_of_le (by omega), window_of_le hbefore]

/-- The next file that reaches into the window is opened. -/
theorem opened (h : Reading cs start stop b body) (hfile : b.file = none) {p i : ℕ} {content : Bytes} (hle : b.fp ≤ i)
    (hp : p = offset cs i) (hps : p < stop) (hwhere : i = b.fp ∨ p ≤ start) (hi : cs[i]? = some content)
    (hin : start ≤ p ∨ start < p + content.length) :
    let b' := { b with processed := p, fp := i + 1, reading := i, hasSeeked := false, file := some ⟨content, 0⟩ }
    Reading cs start stop b' body ∧ b'.work cs < b.work cs := by
  have hwork := drop_work hle hi
  refine ⟨{ h with
      upTo := by dsimp only; omega
      body := h.skipped hfile hle hp hwhere
      between := nofun
      inside := by
        intro file hfile'
        cases hfile'
        refine ⟨i, rfl, hi, Nat.zero_le _, by dsimp only; omega, ?_⟩
        rcases hin with hle' | hlt
        · exact .inl hle'
        · exact .inr ⟨rfl, by dsimp only; omega⟩ }, ?_⟩
  rw [work_of_none hfile, work_of_file (b := { b with
    processed := p, fp := i + 1, reading := i, hasSeeked := false, file := some ⟨content, 0⟩ }) rfl]
  simp only [Bool.false_eq_true, if_false]
  omega

end Reading

/-- The files before the window are skipped. -/
theorem skipFiles_next (start : ℕ) (hsizes : b.paths.map Prod.snd = cs.map List.length)
    (hfits : stop ≤ cs.flatten.length) (hbetween : b.fp ≤ cs.length ∧ b.processed = offset cs b.fp)
    (hmore : b.processed < stop) :
    match skipFiles start stop (b.paths.drop b.fp) b.processed b.fp with
    | .finished => stop ≤ start
    | .panicked => False
    | .reached p i => (b.fp ≤ i ∧ p = offset cs i ∧ p < stop ∧ (i = b.fp ∨ p ≤ start) ∧ i < b.paths.length) ∧
        ∀ content, cs[i]? = some content → start ≤ p ∨ start < p + content.length := by
  obtain ⟨hfp, hproc⟩ := hbetween
  have hlen : b.paths.length = cs.length := by
    have hmap := congrArg List.length hsizes
    rwa [length_map, length_map] at hmap
  have hdrop : (b.paths.drop b.fp).map Prod.snd = (cs.drop b.fp).map List.length := by
    rw [map_drop, map_drop, hsizes]
  have hspec := skipFiles_spec start hfits (b.paths.drop b.fp) _ _ hdrop hfp hproc
  split at hspec
  · omega
  · exact hspec
  obtain ⟨hle, hi, hp, hps, hwhere, hin⟩ := hspec
  refine ⟨⟨hle, hp, hps, hwhere, ?_⟩, hin⟩
  -- past the last file everything was processed
  rw [hlen]
  refine Nat.lt_of_le_of_ne hi fun hall => ?_
  rw [hall, offset_length] at hp
  omega

/-- **One pass of a stream that does not verify.** -/
theorem poll_reading (h : Reading cs start stop b body) :
    Confined (Holding b.paths cs) (fun _ _ => True) (b.poll c) (Polled (Reading cs start stop) cs start stop b body) := by
  unfold poll
  rw [h.bounds]
  dsimp only
  by_cases hdone : stop ≤ b.processed
  · rw [if_pos hdone]
    have hat : b.processed = stop := Nat.le_antisymm h.upTo hdone
    exact h.body.trans (by rw [hat])
  rw [if_neg hdone]
  cases hfile : b.file with
  | some file =>
    dsimp only
    by_cases hseek : b.hasSeeked = false ∧ b.processed < start
    · rw [if_pos hseek]
      split
      · exact trivial
      refine confined_bind (seek_confined.imp fun r _ => ?_)
      cases r with
      | error e => exact trivial
      | ok u => exact ⟨rfl, h.sought hfile hseek.1 hseek.2⟩
    · rw [if_neg hseek]
      unfold pollFile
      split
      · rename_i ids hids
        cases h.plain.symm.trans hids
      obtain ⟨-, -, -, -, -, hplace⟩ := h.inside file hfile
      have hstart : start ≤ b.processed := by
        rcases hplace with hle | ⟨hs, -⟩
        · exact hle
        · exact Nat.le_of_not_lt fun hlt => hseek ⟨hs, hlt⟩
      refine confined_bind ((readFile_confined file (by omega)).imp fun r hr => ?_)
      cases r with
      | error e => exact trivial
      | ok bytes =>
        obtain ⟨n, hn, hcap, hbytes⟩ := hr bytes rfl
        cases bytes with
        | nil =>
          exact ⟨rfl, h.drained hfile (end_of_nil hbytes hn)⟩
        | cons x bytes => exact ⟨rfl, h.took hfile hstart (by omega) hbytes (cons_ne_nil _ _)⟩
  | none =>
    have hspec := skipFiles_next start h.sizes h.fits (h.between hfile) (Nat.lt_of_not_le hdone)
    dsimp only
    generalize skipFiles start stop (b.paths.drop b.fp) b.processed b.fp = skip at hspec ⊢
    cases skip with
    | finished =>
      have hbefore : stop ≤ start := hspec
      have hempty : window cs start b.processed = [] := window_of_le (by omega)
      exact h.body.trans (by rw [hempty, window_of_le hbefore])
    | panicked => exact hspec.elim
    | reached p i =>
      obtain ⟨⟨hle, hp, hps, hwhere, hi⟩, hin⟩ := hspec
      dsimp only
      have hpath := getElem?_eq_getElem hi
      rw [hpath]
      refine confined_bind ((openFile_confined hpath).imp fun r hr => ?_)
      cases r with
      | error e => exact trivial
      | ok content => exact ⟨rfl, h.opened hfile hle hp hps hwhere (hr content rfl) (hin content (hr content rfl))⟩

theorem skipFiles_zero (stop : ℕ) (rest : List ((BlockId ×ₗ ℕ) × ℕ)) {processed : ℕ} (fp : ℕ) (h : ¬ stop ≤ processed) :
    skipFiles 0 stop rest processed fp = .reached processed fp := by
  cases rest with
  | nil => rw [skipFiles, if_neg h, if_neg (Nat.not_lt_zero _)]
  | cons e rest =>
    obtain ⟨path, size⟩ := e
    rw [skipFiles, if_neg h, if_neg (fun hlt => Nat.not_lt_zero _ hlt.1)]

theorem pollFile_verified (hverify : b.verify = some ids) (stop : ℕ) (file : OpenFile) :
    b.pollFile c stop file = (readFile file verifyReadChunk).bind fun
      | .error e => .ret (.item (.error e), b)
      | .ok [] => .ret (b.finishVerifiedBlock c ids)
      | .ok bytes => .ret (.again, { b with buf := b.buf ++ bytes
                                            file := some { file with pos := file.pos + bytes.length } }) := by
  unfold pollFile
  split
  · rename_i ids' hids
    obtain rfl : ids' = ids := Option.some.inj (hids.symm.trans hverify)
    rfl
  · rename_i hplain
    cases hverify.symm.trans hplain

/-- A pass of a whole read: nothing is skipped and nothing sought. -/
theorem poll_whole (hrange : b.range = .all) : b.poll c = if b.size ≤ b.processed then .ret (.finished, b) else
      match b.file with
      | some file => b.pollFile c b.size file
      | none => match b.paths[b.fp]? with
        | none => .ret (.finished, b)
        | some entry => b.pollOpen b.processed b.fp entry.1 := by
  obtain ⟨paths, fp, size, processed, hasSeeked, range, file, verify, reading, buf⟩ := b
  dsimp only at hrange
  subst hrange
  unfold poll bounds
  dsimp only
  by_cases hdone : size ≤ processed
  · rw [if_pos hdone, if_pos hdone]
  rw [if_neg hdone, if_neg hdone]
  cases file with
  | some file =>
    dsimp only
    rw [if_neg (fun hseek => Nat.not_lt_zero _ hseek.2)]
  | none =>
    dsimp only
    rw [skipFiles_zero _ _ _ hdone]
    dsimp only
    cases paths[fp]? with
    | none | some entry => rfl

/-- A stream that verifies its blocks: only whole files count as processed. -/
structure Verifying (cs : List Bytes) (ids : List BlockId) (b : BlockStream) (body : Bytes) : Prop where
  sizes : b.paths.map Prod.snd = cs.map List.length
  range : b.range = .all
  size : b.size = cs.flatten.length
  checks : b.verify = some ids
  upTo : b.processed ≤ cs.flatten.length
  body : body = window cs 0 b.processed
  between : b.file = none → (b.fp ≤ cs.length ∧ b.processed = offset cs b.fp) ∧ b.buf = []
  inside : ∀ file, b.file = some file → b.fp = b.reading + 1 ∧ cs[b.reading]? = some file.content ∧
    file.pos ≤ file.content.length ∧ b.processed = offset cs b.reading ∧ b.buf = file.content.take file.pos

namespace Verifying

/-- Some more bytes of the open file. -/
theorem buffered (h : Verifying cs ids b body) (hfile : b.file = some file) {n : ℕ} {bytes : Bytes}
    (hbytes : bytes = (file.content.drop file.pos).take n) (hsome : bytes ≠ []) :
    let b' := { b with buf := b.buf ++ bytes, file := some { file with pos := file.pos + bytes.length } }
    Verifying cs ids b' body ∧ b'.work cs < b.work cs := by
  obtain ⟨hfp, hi, hpos, hproc, hbuf⟩ := h.inside file hfile
  obtain ⟨hlen, hlt, htake⟩ := found_bytes hbytes hsome
  refine ⟨{ h with
      between := nofun
      inside := by
        intro file' hfile'
        cases hfile'
        refine ⟨hfp, hi, by dsimp only; omega, hproc, ?_⟩
        dsimp only
        rw [hbuf, take_add, ← htake] }, ?_⟩
  rw [work_of_file hfile, work_of_file (b := { b with
    buf := _, file := some { file with pos := file.pos + bytes.length } }) rfl]
  dsimp only
  omega

/-- The whole file is in the buffer. -/
theorem whole (h : Verifying cs ids b body) (hfile : b.file = some file) (hend : file.content.length ≤ file.pos) :
    cs[b.reading]? = some b.buf := by
  obtain ⟨-, hi, -, -, hbuf⟩ := h.inside file hfile
  rw [hi, hbuf, take_of_length_le hend]

/-- A block that passed its check is handed out. -/
theorem passed (h : Verifying cs ids b body) (hfile : b.file = some file) (hend : file.content.length ≤ file.pos) :
    let b' := { b with file := none, buf := [], processed := b.processed + b.buf.length }
    Verifying cs ids b' (body ++ b.buf) ∧ b'.work cs < b.work cs := by
  obtain ⟨hfp, -, -, hproc, -⟩ := h.inside file hfile
  have hwhole := h.whole hfile hend
  have hlt := (List.getElem?_eq_some_iff.1 hwhole).1
  have hnext := offset_succ hwhole
  have htotal : offset cs (b.reading + 1) ≤ cs.flatten.length := by
    rw [← offset_length]
    exact offset_mono cs hlt
  refine ⟨{ h with
      upTo := by dsimp only; omega
      body := by
        have hread := window_read 0 hwhole (Nat.zero_le _) (Nat.zero_le _) (le_refl _)
        rw [Nat.sub_zero, drop_zero, take_length, Nat.add_zero] at hread
        dsimp only
        rw [h.body, hproc, hread]
      between := by
        intro _
        refine ⟨⟨by dsimp only; omega, ?_⟩, rfl⟩
        dsimp only
        rw [hfp, hnext, hproc]
      inside := nofun }, ?_⟩
  rw [work_of_file hfile, work_of_none (b := { b with file := none, buf := [], processed := _ }) rfl]
  dsimp only
  omega

/-- The next file is opened. -/
theorem opened (h : Verifying cs ids b body) (hfile : b.file = none) {content : Bytes} (hi : cs[b.fp]? = some content) :
    let b' := { b with fp := b.fp + 1, reading := b.fp, hasSeeked := false, file := some ⟨content, 0⟩ }
    Verifying cs ids b' body ∧ b'.work cs < b.work cs := by
  have hwork := drop_work (le_refl _) hi
  obtain ⟨⟨-, hproc⟩, hbuf⟩ := h.between hfile
  refine ⟨{ h with
      between := nofun
      inside := by
        intro file hfile'
        cases hfile'
        exact ⟨rfl, hi, Nat.zero_le _, hproc, by dsimp only; rw [hbuf, take_zero]⟩ }, ?_⟩
  rw [work_of_none hfile, work_of_file (b := { b with
    fp := b.fp + 1, reading := b.fp, hasSeeked := false, file := some ⟨content, 0⟩ }) rfl]
  simp only [Bool.false_eq_true, if_false]
  omega

/-- There is a next file, unless everything was processed. -/
theorem lt_length (h : Verifying cs ids b body) (hfile : b.file = none) (hmore : ¬ b.size ≤ b.processed) :
    b.fp < b.paths.length := by
  obtain ⟨⟨hfp, hproc⟩, -⟩ := h.between hfile
  have hlen := congrArg List.length h.sizes
  rw [length_map, length_map] at hlen
  rw [hlen]
  refine Nat.lt_of_le_of_ne hfp fun hall => hmore ?_
  rw [hproc, hall, offset_length, h.size]

end Verifying

/-- **One pass of a stream that verifies.** -/
theorem poll_verifying (h : Verifying cs ids b body) :
    Confined (Holding b.paths cs) (fun _ _ => True) (b.poll c)
      (Polled (Verifying cs ids) cs 0 cs.flatten.length b body) := by
  rw [poll_whole c h.range]
  split
  · rename_i hdone
    rw [h.size] at hdone
    exact h.body.trans (by rw [Nat.le_antisymm h.upTo hdone])
  rename_i hmore
  split
  · rename_i file hfile
    rw [pollFile_verified c h.checks]
    refine confined_bind ((readFile_confined file (by decide)).imp fun r hr => ?_)
    cases r with
    | error e => exact trivial
    | ok bytes =>
      obtain ⟨n, hn, hcap, hbytes⟩ := hr bytes rfl
      cases bytes with
      | nil =>
        dsimp only [Confined]
        unfold finishVerifiedBlock
        dsimp only
        split
        · exact trivial
        · split
          · exact ⟨rfl, h.passed hfile (end_of_nil hbytes hn)⟩
          · split <;> exact trivial
      | cons x bytes => exact ⟨rfl, h.buffered hfile hbytes (cons_ne_nil _ _)⟩
  · rename_i hfile
    have hpath := getElem?_eq_getElem (h.lt_length hfile hmore)
    rw [hpath]
    refine confined_bind ((openFile_confined hpath).imp fun r hr => ?_)
    cases r with
    | error e => exact trivial
    | ok content => exact ⟨rfl, h.opened hfile (hr content rfl)⟩

/-! ## Whole bodies -/

/-- **A body that ends without an error is the window.** -/
theorem collect_confined
    (hpoll : ∀ {b body}, Inv b body → b.paths = paths → Confined (Holding paths cs) (fun _ _ => True) (b.poll c) (Polled Inv cs start stop b body)) :
    ∀ (fuel : ℕ) {b : BlockStream} {body : Bytes}, Inv b body → b.paths = paths →
    Confined (Holding paths cs) (fun _ _ => True) (b.collect c fuel body) fun r => ∀ v, r = .ok v →
      v = window cs start stop := by
  intro fuel
  induction fuel with
  | zero =>
    intro b body _ _
    rw [collect]
    exact confined_step fun _ _ _ _ _ hf => by cases hf
  | succ fuel ih =>
    intro b body h hpaths
    refine confined_bind ((hpoll h hpaths).imp fun r hr => ?_)
    obtain ⟨r, b'⟩ := r
    cases r with
    | finished => intro v hv; cases hv; exact hr
    | again => exact ih hr.2.1 (hr.1.trans hpaths)
    | item item =>
      cases item with
      | error e => exact nofun
      | ok bytes => exact ih hr.2.1 (hr.1.trans hpaths)

/-- A pass that fails. -/
def Poll.failed : Poll → Bool
  | .item (.error _) => true
  | _ => false

/-- **A stream whose passes never fail comes to its end.** -/
theorem collect_ends
    (hpoll : ∀ {b body}, Inv b body → b.paths = paths → Confined (Holding paths cs) (fun _ _ => True) (b.poll c) (Polled Inv cs start stop b body))
    (hends : ∀ {b body}, Inv b body → b.paths = paths → Ends Choice.Fine (b.poll c) (fun r s' => s' = s ∧ r.1.failed = false) s)
    (hs : Holding paths cs s) : ∀ (fuel : ℕ) {b : BlockStream} {body : Bytes}, Inv b body → b.paths = paths →
    b.work cs < fuel →
    Ends Choice.Fine (b.collect c fuel body) (fun r s' => s' = s ∧ r = .ok (window cs start stop)) s := by
  intro fuel
  induction fuel with
  | zero => intro b body _ _ hfuel; omega
  | succ fuel ih =>
    intro b body h hpaths hfuel
    refine ends_bind (((hends h hpaths).and_confined (hpoll h hpaths) hs).mono ?_)
    rintro ⟨r, b'⟩ s' ⟨⟨⟨rfl, hgood⟩, hr⟩, -⟩
    cases r with
    | finished =>
      have hbody : body = window cs start stop := hr
      exact ⟨rfl, by rw [hbody]⟩
    | again =>
      obtain ⟨hpaths', hinv, hwork⟩ := hr
      exact ih hinv (hpaths'.trans hpaths) (by omega)
    | item item =>
      cases item with
      | error e => cases hgood
      | ok bytes =>
        obtain ⟨hpaths', hinv, hwork⟩ := hr
        exact ih hinv (hpaths'.trans hpaths) (by omega)

/-- Every file is there. -/
def Present (paths : List ((BlockId ×ₗ ℕ) × ℕ)) (s : Store) : Prop :=
  ∀ entry ∈ paths, (s.files.get entry.1).isSome = true

theorem readFile_answers {ok : Choice → Prop} (hok : ∀ e, ok e → e.read = true) {cap : ℕ} (hcap : 0 < cap)
    (h : ∀ n, 0 < n → Q (.ok ((file.content.drop file.pos).take n)) s) : Ends ok (readFile file cap) Q s := by
  refine ends_step fun e he => ?_
  rw [if_pos (hok e he)]
  exact ⟨_, s, rfl, h _ (by omega)⟩

theorem openFile_answers {ok : Choice → Prop} (hok : ∀ e, ok e → e.read = true)
    (hnone : s.files.get path = none → Q (.error .io) s)
    (hsome : ∀ content, s.files.get path = some content → Q (.ok content) s) : Ends ok (openFile path) Q s := by
  refine ends_step fun e he => ?_
  rw [if_pos (hok e he)]
  cases hfile : s.files.get path with
  | none => exact ⟨_, s, rfl, hnone hfile⟩
  | some content => exact ⟨_, s, rfl, hsome content hfile⟩

theorem openFile_ends {i size : ℕ} (hs : Present paths s) (hi : paths[i]? = some (path, size))
    (h : ∀ content, Q (.ok content) s) : Ends Choice.Fine (openFile path) Q s := by
  refine openFile_answers (fun _ he => he.2.2.1) (fun hnone => ?_) fun content _ => h content
  have hsome := hs _ (mem_of_getElem? hi)
  rw [hnone] at hsome
  cases hsome

theorem seek_ends {Q : Except BodyErr Unit → Store → Prop} (h : Q (.ok ()) s) : Ends Choice.Fine seek Q s := by
  refine ends_step fun e he => ?_
  rw [if_pos he.2.2.1]
  exact ⟨_, s, rfl, h⟩

/-- A pass over files that are there does not fail. -/
theorem poll_reading_ends (h : Reading cs start stop b body)
    (hsmall : ∀ content ∈ cs, content.length ≤ blockSize) (hs : Present b.paths s) :
    Ends Choice.Fine (b.poll c) (fun r s' => s' = s ∧ r.1.failed = false) s := by
  unfold poll
  rw [h.bounds]
  dsimp only
  split
  · exact ⟨rfl, rfl⟩
  rename_i hdone
  split
  · rename_i file hfile
    split
    · rename_i hseek
      -- the distance is within a file
      obtain ⟨i, -, hi, hpos, -, hplace⟩ := h.inside file hfile
      have hlen := hsmall _ (mem_of_getElem? hi)
      have hblock : blockSize < 2 ^ 63 := by decide
      have hnear : ¬ 2 ^ 63 ≤ start - b.processed := by
        rcases hplace with hle | ⟨-, hlt⟩ <;> omega
      rw [if_neg hnear]
      exact ends_bind (seek_ends ⟨rfl, rfl⟩)
    · unfold pollFile
      split
      · rename_i ids hids
        cases h.plain.symm.trans hids
      refine ends_bind (readFile_answers (fun _ he => he.2.2.1) (by omega) fun n _ => ?_)
      generalize (file.content.drop file.pos).take n = bytes
      cases bytes <;> exact ⟨rfl, rfl⟩
  · rename_i hfile
    have hspec := skipFiles_next start h.sizes h.fits (h.between hfile) (Nat.lt_of_not_le hdone)
    generalize skipFiles start stop (b.paths.drop b.fp) b.processed b.fp = skip at hspec ⊢
    cases skip with
    | finished => exact ⟨rfl, rfl⟩
    | panicked => exact hspec.elim
    | reached p i =>
      have hpath := getElem?_eq_getElem hspec.1.2.2.2.2
      dsimp only
      rw [hpath]
      exact ends_bind (openFile_ends hs hpath fun content => ⟨rfl, rfl⟩)

/-- A verifying pass over files that are there and hash to their addresses does not fail. -/
theorem poll_verifying_ends (h : Verifying cs ids b body)
    (hids : ids = cs.map c.hash) (hs : Present b.paths s) :
    Ends Choice.Fine (b.poll c) (fun r s' => s' = s ∧ r.1.failed = false) s := by
  rw [poll_whole c h.range]
  split
  · exact ⟨rfl, rfl⟩
  rename_i hmore
  split
  · rename_i file hfile
    rw [pollFile_verified c h.checks]
    refine ends_bind (readFile_answers (fun _ he => he.2.2.1) (by decide) fun n hn => ?_)
    generalize hbytes : (file.content.drop file.pos).take n = bytes
    cases bytes with
    | nil =>
      have hwhole := h.whole hfile (end_of_nil hbytes.symm hn)
      have haddr : ids[b.reading]? = some (c.hash b.buf) := by rw [hids, getElem?_map, hwhole]; rfl
      dsimp only [Ends]
      unfold finishVerifiedBlock
      rw [haddr]
      dsimp only
      rw [if_pos rfl]
      exact ⟨rfl, rfl⟩
    | cons x bytes => exact ⟨rfl, rfl⟩
  · rename_i hfile
    have hpath := getElem?_eq_getElem (h.lt_length hfile hmore)
    rw [hpath]
    exact ends_bind (openFile_ends hs hpath fun content => ⟨rfl, rfl⟩)

end Streams

end QssStorage
