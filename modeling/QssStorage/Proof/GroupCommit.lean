import QssStorage.Proof.Frame
import QssStorage.Proof.Group

/-!
# A group commit is the serial commit of its successful members

`closeGroup` run under its stripes, with reads and block writes that may fail and renames
and commits that do not. What it did to the files is read off the events it noted.

* `closeGroup_serial`: **who fails, what is counted, which files landed.**
-/

namespace QssStorage

open Conc Prog List OrdMap

variable {s s' : Store} {evs : List Event} {ok : Choice → Prop} {id : BlockId} {d : ℕ} {bytes : Bytes}
variable {α : Type} {live : OrdMap BlockId Bool} {es : List BatchEntry} {placed : OrdMap BlockId ℕ}
  {rs : List (Except Err FlushOutcome)} {r : Except Err α}

/-- Landing a file (its rename and the directory sync that ends it) and committing do not
fail. Writing a staged file anew and reading a record may. -/
def Landing (e : Choice) : Prop := e.commit = .ok ∧ e.rename = true ∧ e.sync = true

/-- The depths at which files of `b` were placed, in order. -/
def placements (b : BlockId) (evs : List Event) : List ℕ :=
  evs.filterMap fun
    | .landed id d => if id = b then some d else none
    | .wrote id d true => if id = b then some d else none
    | _ => none

theorem placements_append (b : BlockId) (evs evs' : List Event) :
    placements b (evs ++ evs') = placements b evs ++ placements b evs' := filterMap_append

/-! ## The survey -/

theorem surveyed_runs : ∀ {ids : List BlockId} {live live' : OrdMap BlockId Bool} {s s' : Store},
    Runs ok (readLiveGroup ids live) s live' s' →
    ∃ evs, s' = { s with log := s.log ++ evs } ∧ (∀ ev ∈ evs, ∃ id b, ev = .surveyed id b) ∧
      (∀ id b, live'.get id = some b ↔ live.get id = some b ∨ .surveyed id b ∈ evs) ∧
      (∀ id, .surveyed id true ∈ evs → Live s id) ∧ ∀ id ∈ ids, ∃ b, live'.get id = some b := by
  intro ids
  induction ids with
  | nil =>
    intro live live' s s' h
    obtain ⟨rfl, rfl⟩ := h
    exact ⟨[], by rw [append_nil], nofun, fun _ _ => by simp, nofun, nofun⟩
  | cons id ids ih =>
    intro live live' s s' h
    unfold readLiveGroup at h
    split at h
    · rename_i b hb
      obtain ⟨evs, hs', hall, hlive, htrue, hids⟩ := ih h
      refine ⟨evs, hs', hall, hlive, htrue, ?_⟩
      intro id' hid'
      rcases mem_cons.1 hid' with rfl | hid'
      · exact ⟨b, (hlive _ b).2 (.inl hb)⟩
      · exact hids id' hid'
    · rename_i hnone
      obtain ⟨answer, s1, hstep, hrest⟩ := runs_bind.1 h
      obtain ⟨e, -, hf⟩ := runs_step.1 hstep
      -- whatever was answered was noted, and a `true` was read from the record
      have hs1 : s1 = { s with log := s.log ++ [.surveyed id answer] } ∧ (answer = true → Live s id) := by
        split at hf
        · rename_i a _ ha
          cases hf
          exact ⟨rfl, fun ht => hasLiveRecord_true.1 (by rw [ha, ht])⟩
        · cases hf
          exact ⟨rfl, nofun⟩
      obtain ⟨rfl, hanswer⟩ := hs1
      obtain ⟨evs, rfl, hall, hlive, htrue, hids⟩ := ih hrest
      refine ⟨.surveyed id answer :: evs, by simp, ?_, ?_, ?_, ?_⟩
      · intro ev hev
        rcases mem_cons.1 hev with rfl | hev
        · exact ⟨id, answer, rfl⟩
        · exact hall ev hev
      · intro id' b
        rw [hlive, get_insert, mem_cons]
        by_cases heq : id' = id
        · subst heq
          rw [if_pos rfl, hnone]
          simp [eq_comm]
        · rw [if_neg heq]
          simp [heq]
      · intro id' hmem
        rcases mem_cons.1 hmem with heq | hmem
        · cases heq; exact hanswer rfl
        · exact htrue id' hmem
      · intro id' hid'
        rcases mem_cons.1 hid' with rfl | hid'
        · exact ⟨answer, (hlive _ _).2 (.inl (get_insert_self _ _ _))⟩
        · exact hids id' hid'

theorem placements_surveyed (h : ∀ ev ∈ evs, ∃ id b, ev = .surveyed id b) (b : BlockId) : placements b evs = [] := by
  unfold placements
  rw [filterMap_eq_nil_iff]
  intro ev hev
  obtain ⟨id, live, rfl⟩ := h ev hev
  rfl

/-! ## Files -/

/-- A file inserted at one place. -/
theorem fileAt_insert {id b : BlockId} {d d' : ℕ} {l : List Event} :
    FileAt { s with files := s.files.insert (toLex (id, d)) bytes, log := l } b d' ↔ FileAt s b d' ∨ (b = id ∧ d' = d) := by
  unfold FileAt
  rw [get_insert]
  by_cases h : (b, d') = (id, d)
  · rw [if_pos (congrArg toLex h)]
    obtain ⟨rfl, rfl⟩ := Prod.mk.inj h
    simp
  · rw [if_neg fun hh => h (toLex.injective hh)]
    simp only [Prod.mk.injEq] at h
    simp [h]

/-- What a phase that only places files did. -/
structure Placed (s s' : Store) (evs : List Event) : Prop where
  rest : s' = { s with files := s'.files, log := s.log ++ evs }
  files : ∀ b d, FileAt s' b d ↔ FileAt s b d ∨ .landed b d ∈ evs ∨ ∃ ok, .wrote b d ok ∈ evs
  only : ∀ ev ∈ evs, ∀ id b, ev ≠ .surveyed id b

theorem Placed.refl (s : Store) : Placed s s [] := ⟨by rw [append_nil], fun _ _ => by simp, nofun⟩

theorem Placed.trans {s s1 s2 : Store} {evs evs' : List Event} (h : Placed s s1 evs) (h' : Placed s1 s2 evs') :
    Placed s s2 (evs ++ evs') := by
  refine ⟨?_, ?_, ?_⟩
  · have h1 := h'.rest
    rw [h.rest] at h1
    rw [h1, append_assoc]
  · intro b d
    rw [h'.files, h.files]
    simp only [mem_append]
    constructor
    · rintro ((hf | hl | ⟨ok, hw⟩) | hl | ⟨ok, hw⟩)
      · exact .inl hf
      · exact .inr (.inl (.inl hl))
      · exact .inr (.inr ⟨ok, .inl hw⟩)
      · exact .inr (.inl (.inr hl))
      · exact .inr (.inr ⟨ok, .inr hw⟩)
    rintro (hf | (hl | hl) | ⟨ok, hw | hw⟩)
    · exact .inl (.inl hf)
    · exact .inl (.inr (.inl hl))
    · exact .inr (.inl hl)
    · exact .inl (.inr (.inr ⟨ok, hw⟩))
    · exact .inr (.inr ⟨ok, hw⟩)
  · intro ev hev
    rcases mem_append.1 hev with hev | hev
    · exact h.only ev hev
    · exact h'.only ev hev

theorem Placed.blocks (h : Placed s s' evs) : s'.blocks = s.blocks := by rw [h.rest]

/-- One file, noted as it was placed. -/
theorem placed_file {ev : Event} (hev : ev = .landed id d ∨ ∃ ok, ev = .wrote id d ok) :
    Placed s { s with files := s.files.insert (toLex (id, d)) bytes, log := s.log ++ [ev] } [ev] := by
  refine ⟨rfl, fun b d' => ?_, ?_⟩
  · rw [fileAt_insert]
    rcases hev with rfl | ⟨ok, rfl⟩ <;> simp [eq_comm]
  · rcases hev with rfl | ⟨ok, rfl⟩ <;> simp

theorem writeBlock_runs {depth : ℕ}
    {r : Except Err Unit} (h : Runs ok (writeBlock id depth bytes) s r s') :
    ∃ evs, Placed s s' evs ∧ (r = .ok () ∧ evs = [.wrote id (diskDepth id depth) true] ∨
      (∃ e, r = .error e) ∧ ∀ b, placements b evs = []) := by
  obtain ⟨e, -, hf⟩ := runs_step.1 h
  dsimp only at hf
  split at hf
  · cases hf; exact ⟨_, placed_file (.inr ⟨_, rfl⟩), .inl ⟨rfl, rfl⟩⟩
  · cases hf; exact ⟨[], Placed.refl _, .inr ⟨⟨_, rfl⟩, fun _ => rfl⟩⟩
  · cases hf; exact ⟨_, placed_file (.inr ⟨_, rfl⟩), .inr ⟨⟨_, rfl⟩, fun _ => rfl⟩⟩

/-- The blocks a phase placed, and at what depth. -/
def Accounts (placed placed' : OrdMap BlockId ℕ) (evs : List Event) : Prop :=
  ∀ id, placements id evs = if placed.get id = none then ((placed'.get id).map (diskDepth id)).toList else []

/-- **The overtake of a group** places a block at most once. -/
theorem overtaken_runs : ∀ {es : List BatchEntry}
    {placed placed' : OrdMap BlockId ℕ} {s s' : Store}, Runs ok (overtakeGroup live es placed) s placed' s' →
    ∃ evs, Placed s s' evs ∧ (∀ id d, placed.get id = some d → placed'.get id = some d) ∧ Accounts placed placed' evs := by
  intro es
  induction es with
  | nil =>
    intro placed placed' s s' h
    obtain ⟨rfl, rfl⟩ := h
    refine ⟨[], Placed.refl _, fun _ _ h => h, fun id => ?_⟩
    split
    · rename_i hnone; rw [hnone]; rfl
    · rfl
  | cons e es ih =>
    intro placed placed' s s' h
    unfold overtakeGroup at h
    split at h
    · rename_i bytes hl hpay hnone
      obtain ⟨depth, s1, hdepth, h⟩ := runs_bind.1 h
      obtain ⟨c, -, hc⟩ := runs_step.1 hdepth
      simp only [Option.some.injEq, Prod.mk.injEq] at hc
      obtain ⟨-, rfl⟩ := hc
      obtain ⟨r, s2, hwrite, h⟩ := runs_bind.1 h
      obtain ⟨evs, hplaced, hr⟩ := writeBlock_runs hwrite
      rcases hr with ⟨rfl, rfl⟩ | ⟨⟨err, rfl⟩, hno⟩
      · obtain ⟨evs', hplaced', hmono, hacc⟩ := ih h
        have hself : placed'.get e.id = some depth := hmono _ _ (get_insert_self _ _ _)
        refine ⟨_, hplaced.trans hplaced', fun id d hd => hmono id d ?_, fun id => ?_⟩
        · rw [get_insert_of_ne _ _ (by rintro rfl; rw [hnone] at hd; cases hd)]
          exact hd
        rw [placements_append, hacc id, get_insert]
        by_cases hid : id = e.id
        · subst hid
          rw [if_pos rfl, if_neg nofun, if_pos hnone, hself]
          simp [placements]
        · rw [if_neg hid]
          simp [placements, Ne.symm hid]
      · obtain ⟨evs', hplaced', hmono, hacc⟩ := ih h
        refine ⟨_, hplaced.trans hplaced', hmono, fun id => ?_⟩
        rw [placements_append, hno, hacc id, nil_append]
    · exact ih h

/-- **The renames of a group.** -/
theorem landed_runs : ∀ {files : List (BlockId × ℕ × Bytes)} {r : Except Err Unit} {s s' : Store},
    Runs Landing (landBatch files) s r s' →
    ∃ u, r = .ok u ∧ Placed s s' (files.map fun f => .landed f.1 (diskDepth f.1 f.2.1)) := by
  intro files
  induction files with
  | nil =>
    intro r s s' h
    obtain ⟨e, he, hf⟩ := runs_step.1 h
    cases (if_pos he.2.2).symm.trans hf
    exact ⟨(), rfl, Placed.refl _⟩
  | cons f files ih =>
    intro r s s' h
    have hland : ∀ {r1 s1}, Runs Landing (landBlock f.1 f.2.1 f.2.2) s r1 s1 →
        ∃ u, r1 = .ok u ∧ Placed s s1 [.landed f.1 (diskDepth f.1 f.2.1)] := by
      intro r1 s1 h
      obtain ⟨e, he, hf⟩ := runs_step.1 h
      cases (if_pos he.2.1).symm.trans hf
      exact ⟨(), rfl, placed_file (.inl rfl)⟩
    obtain ⟨-, s1, hfirst, hrest⟩ := runs_andThen hland h
    obtain ⟨u, hr, hplaced⟩ := ih hrest
    exact ⟨u, hr, hfirst.trans hplaced⟩

theorem placements_landed {files : List (BlockId × ℕ × Bytes)} (hnodup : (files.map Prod.fst).Nodup) :
    (∀ f ∈ files, placements f.1 (files.map fun f => .landed f.1 (diskDepth f.1 f.2.1)) = [diskDepth f.1 f.2.1]) ∧
      ∀ b, b ∉ files.map Prod.fst → placements b (files.map fun f => .landed f.1 (diskDepth f.1 f.2.1)) = [] := by
  have hnone : ∀ (l : List (BlockId × ℕ × Bytes)) b, b ∉ l.map Prod.fst →
      placements b (l.map fun f => .landed f.1 (diskDepth f.1 f.2.1)) = [] := by
    intro l b hb
    unfold placements
    rw [filterMap_eq_nil_iff]
    intro ev hev
    obtain ⟨f, hf, rfl⟩ := mem_map.1 hev
    exact if_neg fun heq => hb (mem_map.2 ⟨f, hf, heq⟩)
  refine ⟨?_, hnone files⟩
  induction files with
  | nil => exact nofun
  | cons f files ih =>
    rw [map_cons, nodup_cons] at hnodup
    intro f' hf'
    have hcons : ∀ b, placements b ((f :: files).map fun f => .landed f.1 (diskDepth f.1 f.2.1)) =
        (if f.1 = b then [diskDepth f.1 f.2.1] else []) ++
          placements b (files.map fun f => .landed f.1 (diskDepth f.1 f.2.1)) := by
      intro b
      rw [map_cons, ← singleton_append, placements_append]
      congr 1
      by_cases hb : f.1 = b <;> simp [placements, hb]
    rw [hcons]
    rcases mem_cons.1 hf' with rfl | hf'
    · rw [if_pos rfl, hnone files _ hnodup.1, append_nil]
    · have hne : f.1 ≠ f'.1 := fun heq => hnodup.1 (mem_map.2 ⟨f', hf', heq.symm⟩)
      rw [if_neg hne, nil_append, ih hnodup.2 f' hf']

/-- After both, a block was placed where `toLandGroup` says, once, or not at all. -/
theorem placements_group (hacc : Accounts ∅ placed evs) (b : BlockId) :
    placements b (evs ++ (toLandGroup live es placed).2.map fun f => .landed f.1 (diskDepth f.1 f.2.1)) =
      (((toLandGroup live es placed).1.get b).map (diskDepth b)).toList := by
  have hlands := toLandGroup_spec live es placed
  obtain ⟨hland, hnone⟩ := placements_landed hlands.nodup
  rw [placements_append, hacc b, if_pos (get_empty b)]
  cases hb : placed.get b with
  | some d =>
    rw [hlands.mono b d hb, hnone b]
    · rw [append_nil]
    intro hmem
    obtain ⟨f, hf, rfl⟩ := mem_map.1 hmem
    have := (hlands.lands f hf).1
    cases hb.symm.trans this
  | none =>
    rw [Option.map_none, Option.toList_none, nil_append]
    cases hb' : (toLandGroup live es placed).1.get b with
    | none =>
      refine hnone b fun hmem => ?_
      obtain ⟨f, hf, rfl⟩ := mem_map.1 hmem
      have := (hlands.lands f hf).2.1
      cases hb'.symm.trans this
    | some d =>
      rcases hlands.source b d hb' with h | ⟨bytes, hmem⟩
      · rw [hb] at h; cases h
      · exact hland (b, d, bytes) hmem

/-! ## Records -/

/-- A commit that does not fail applies the body, or reports its error. -/
theorem transact_runs (hok : ∀ e, ok e → e.commit = .ok) {body : Store → Except Err (α × Store)}
    (h : Runs ok (transact body) s r s') :
    (∃ a, body s = .ok (a, s') ∧ r = .ok a) ∨ ∃ e, body s = .error e ∧ r = .error e ∧ s' = s := by
  obtain ⟨e, he, hf⟩ := runs_step.1 h
  rw [hok e he] at hf
  split at hf
  · rename_i err hb
    cases hf
    exact .inr ⟨err, hb, rfl, rfl⟩
  · rename_i a s1 hb _
    cases hf
    exact .inl ⟨a, hb, rfl⟩
  · rename_i heq; cases heq
  · rename_i heq; cases heq

/-- A settled member cannot be recorded: it was refused, or names a record that does not
decode. -/
def Unrecordable (s : Store) (member : List BatchEntry × Option Err) : Prop :=
  member.2 ≠ none ∨ ∃ e ∈ member.1, s.blocks.get e.id = some .garbage

/-- How the records of a group end. -/
structure GroupRecorded (settled : List (List BatchEntry × Option Err)) (rs : List (Except Err FlushOutcome))
    (s s' : Store) : Prop where
  fails : List.Forall₂ (fun member r => (∃ err, r = .error err) ↔ Unrecordable s member) settled rs
  recorded : Recorded (fun b d => ∃ e ∈ accepted settled, PlacedBy e b d) (repliedRefs (settled.map Prod.fst) rs) s s'

theorem accepted_cons_none (es : List BatchEntry) (settled : List (List BatchEntry × Option Err)) :
    accepted ((es, none) :: settled) = es ++ accepted settled := rfl

theorem Unrecordable.congr {new : BlockId → ℕ → Prop} {refs : Multiset BlockId}
    (h : Recorded new refs s s') (member : List BatchEntry × Option Err) :
    Unrecordable s' member ↔ Unrecordable s member := by
  unfold Unrecordable
  simp only [h.garbage_iff]

/-- A member that was refused has failed, and rightly. -/
theorem unrecordable_refused (es : List BatchEntry) (err : Err) :
    (∃ e, (.error err : Except Err FlushOutcome) = .error e) ↔ Unrecordable s (es, some err) :=
  ⟨fun _ => .inl nofun, fun _ => ⟨err, rfl⟩⟩

/-- A member that was told success could be recorded. -/
theorem unrecordable_told {o : FlushOutcome} (h : ∀ e ∈ es, s.blocks.get e.id ≠ some .garbage) :
    (∃ e, (.ok o : Except Err FlushOutcome) = .error e) ↔ Unrecordable s (es, none) := by
  refine ⟨fun ⟨_, h⟩ => (by cases h), ?_⟩
  rintro (hne | ⟨e, he, hg⟩)
  · exact absurd rfl hne
  · exact absurd hg (h e he)

/-- **Members replayed alone**: each by itself, those that cannot be recorded fail. -/
theorem replayAlone_runs : ∀ {settled : List (List BatchEntry × Option Err)} {rs : List (Except Err FlushOutcome)}
    {s s' : Store}, Runs Landing (replayAlone settled) s rs s' → (∀ e ∈ accepted settled, 1 ≤ e.occurrences) →
    (∀ e ∈ accepted settled, Ready s e) → GroupRecorded settled rs s s' := by
  intro settled
  induction settled with
  | nil =>
    intro rs s s' h _ _
    obtain ⟨rfl, rfl⟩ := h
    exact ⟨List.Forall₂.nil, Recorded.refl _ _⟩
  | cons member settled ih =>
    intro rs s s' h hpos hready
    match member with
    | (es, some err) =>
      obtain ⟨rest, s1, hrest, rfl, rfl⟩ := runs_bind.1 h
      obtain ⟨hfails, hrec⟩ := ih hrest hpos hready
      refine ⟨.cons (unrecordable_refused es err) hfails, ?_⟩
      rw [map_cons, repliedRefs_cons, replyRefs, zero_add]
      exact hrec
    | (es, none) =>
      rw [accepted_cons_none] at hpos hready
      have hpos1 : ∀ e ∈ es, 1 ≤ e.occurrences := fun e he => hpos e (mem_append_left _ he)
      obtain ⟨r, s1, htx, h⟩ := runs_bind.1 h
      obtain ⟨rest, s2, hrest, rfl, rfl⟩ := runs_bind.1 h
      rcases transact_runs (fun e he => he.1) htx with ⟨o, hbody, rfl⟩ | ⟨err, hbody, rfl, rfl⟩
      · have hrec1 := recordEntries_ok hpos1 hbody
        obtain ⟨hfails, hrec⟩ := ih hrest (fun e he => hpos e (mem_append_right _ he))
          fun e he => (hready e (mem_append_right _ he)).recorded hrec1
        refine ⟨.cons (unrecordable_told fun e he => ?_) (hfails.imp fun m r h => ?_), ?_⟩
        · exact hrec1.decodes _ ((mem_entryRefs hpos1).2 ⟨e, he, rfl⟩)
        · exact h.trans (Unrecordable.congr hrec1 m)
        · rw [map_cons, repliedRefs_cons, accepted_cons_none]
          refine (hrec1.mono ?_).trans (hrec.mono ?_)
          · rintro b d ⟨e, he, hp⟩; exact ⟨e, mem_append_left _ he, hp⟩
          · rintro b d ⟨e, he, hp⟩; exact ⟨e, mem_append_right _ he, hp⟩
      · obtain ⟨hfails, hrec⟩ := ih hrest (fun e he => hpos e (mem_append_right _ he))
          fun e he => hready e (mem_append_right _ he)
        refine ⟨.cons ⟨fun _ => .inr ?_, fun _ => ⟨err, rfl⟩⟩ hfails, ?_⟩
        · exact recordEntries_error hpos1 (fun e he => hready e (mem_append_left _ he)) hbody
        · rw [map_cons, repliedRefs_cons, replyRefs, zero_add, accepted_cons_none]
          refine hrec.mono ?_
          rintro b d ⟨e, he, hp⟩
          exact ⟨e, mem_append_right _ he, hp⟩

/-- A group that committed told success to the members that were not refused. -/
theorem groupReplies_fails : ∀ {settled : List (List BatchEntry × Option Err)} {outcomes : List FlushOutcome},
    outcomes.length = settled.length → (∀ e ∈ accepted settled, s.blocks.get e.id ≠ some .garbage) →
    List.Forall₂ (fun member r => (∃ err, r = .error err) ↔ Unrecordable s member) settled
      (groupReplies settled outcomes) := by
  intro settled
  induction settled with
  | nil => intro outcomes _ _; cases outcomes <;> exact List.Forall₂.nil
  | cons member settled ih =>
    intro outcomes hlen hdec
    cases outcomes with
    | nil => cases hlen
    | cons o outcomes =>
      rw [length_cons, length_cons, Nat.add_right_cancel_iff] at hlen
      match member with
      | (es, some err) => exact .cons (unrecordable_refused es err) (ih hlen hdec)
      | (es, none) =>
        rw [accepted_cons_none] at hdec
        exact .cons (unrecordable_told fun e he => hdec e (mem_append_left _ he))
          (ih hlen fun e he => hdec e (mem_append_right _ he))

/-- **The transaction of a group**, and the replays if it fails. -/
theorem recorded_runs {settled : List (List BatchEntry × Option Err)}
    (h : Runs Landing ((transact (recordGroup settled)).bind fun | .ok outcomes => .ret (groupReplies settled outcomes) | .error _ => replayAlone settled) s rs s')
    (hpos : ∀ e ∈ accepted settled, 1 ≤ e.occurrences) (hready : ∀ e ∈ accepted settled, Ready s e) :
    GroupRecorded settled rs s s' := by
  obtain ⟨r, s1, htx, hthen⟩ := runs_bind.1 h
  rcases transact_runs (fun e he => he.1) htx with ⟨outcomes, hbody, rfl⟩ | ⟨err, hbody, rfl, rfl⟩
  · obtain ⟨rfl, rfl⟩ := hthen
    obtain ⟨hlen, hrec⟩ := recordGroup_ok hpos hbody
    refine ⟨groupReplies_fails hlen fun e he => hrec.decodes _ ((mem_entryRefs hpos).2 ⟨e, he, rfl⟩), ?_⟩
    rw [(groupReplies_spec hlen).2]
    exact hrec
  · exact replayAlone_runs hthen hpos hready

/-! ## Batches closed one after the other -/

theorem readStore_runs {body : Store → Except Err α} (h : Runs Choice.Fine (readStore body) s r s') : r = body s ∧ s' = s := by
  obtain ⟨e, he, hf⟩ := runs_step.1 h
  cases (if_pos he.2.2.1).symm.trans hf
  exact ⟨rfl, rfl⟩

theorem readLive_runs : ∀ {es : List BatchEntry} {r : Except Err (List (BatchEntry × Bool))} {s s' : Store},
    Runs Choice.Fine (readLive es) s r s' → (∀ e ∈ es, s.blocks.get e.id ≠ some .garbage) →
    ∃ rows, r = .ok rows ∧ s' = s ∧ rows.map Prod.fst = es ∧ ∀ row ∈ rows, row.2 = true → Live s row.1.id := by
  intro es
  induction es with
  | nil =>
    intro r s s' h _
    obtain ⟨rfl, rfl⟩ := h
    exact ⟨[], rfl, rfl, rfl, nofun⟩
  | cons e es ih =>
    intro r s s' h hdec
    have hdec' : ∀ e ∈ es, s.blocks.get e.id ≠ some .garbage := fun e he => hdec e (mem_cons_of_mem _ he)
    have hread : ∀ {v s1}, Runs Choice.Fine (readStore (hasLiveRecord e.id)) s v s1 →
        ∃ live, v = .ok live ∧ hasLiveRecord e.id s = .ok live ∧ s1 = s := by
      intro v s1 h
      obtain ⟨rfl, rfl⟩ := readStore_runs h
      cases hlive : hasLiveRecord e.id s1 with
      | ok live => exact ⟨live, rfl, rfl, rfl⟩
      | error err => exact absurd (hasLiveRecord_error hlive) (hdec e mem_cons_self)
    obtain ⟨live, s1, ⟨hlive, rfl⟩, hrest⟩ := runs_andThen hread h
    obtain ⟨rows, s2, ⟨rfl, hmap, htrue⟩, rfl, rfl⟩ := runs_andThen (fun h => ih h hdec') hrest
    refine ⟨_, rfl, rfl, by rw [map_cons, hmap], ?_⟩
    intro row hrow ht
    rcases mem_cons.1 hrow with rfl | hrow
    · simp only at ht
      subst ht
      exact hasLiveRecord_true.1 hlive
    · exact htrue row hrow ht

/-- How the overtake of one batch ends when nothing fails. -/
def OvertakenAlone (rows : List (BatchEntry × Bool)) (r : Except Err (List (BatchEntry × Bool))) (s s' : Store) : Prop :=
  ∃ rows', r = .ok rows' ∧ (∃ evs, Placed s s' evs) ∧
    rows'.map (fun row => (row.1.shape, row.2)) = rows.map (fun row => (row.1.shape, row.2)) ∧
    ∀ row ∈ rows', row.2 = false → row.1.depth.isSome

theorem overtake_runs : ∀ {rows : List (BatchEntry × Bool)} {r : Except Err (List (BatchEntry × Bool))} {s s' : Store},
    Runs Choice.Fine (overtake rows) s r s' → (∀ row ∈ rows, row.1.depth = row.1.payload.depth) →
    OvertakenAlone rows r s s' := by
  intro rows
  induction rows with
  | nil =>
    intro r s s' h _
    obtain ⟨rfl, rfl⟩ := h
    exact ⟨[], rfl, ⟨[], Placed.refl _⟩, rfl, nofun⟩
  | cons row rows ih =>
    intro r s s' h hdepth
    have hdepth' : ∀ row ∈ rows, row.1.depth = row.1.payload.depth :=
      fun row hrow => hdepth row (mem_cons_of_mem _ hrow)
    -- the row as it comes out, then the others
    have hrest : ∀ {s1 : Store} {evs : List Event} (row' : BatchEntry × Bool), Placed s s1 evs →
        (row'.1.shape, row'.2) = (row.1.shape, row.2) → (row'.2 = false → row'.1.depth.isSome) →
        Runs Choice.Fine ((overtake rows).andThen fun rest => .ret (.ok (row' :: rest))) s1 r s' →
        OvertakenAlone (row :: rows) r s s' := by
      intro s1 evs row' hplaced hshape hsome h
      obtain ⟨rest, s2, ⟨⟨evs', hplaced'⟩, hmap, hall⟩, rfl, rfl⟩ := runs_andThen (fun h => ih h hdepth') h
      refine ⟨_, rfl, ⟨_, hplaced.trans hplaced'⟩, by rw [map_cons, map_cons, hmap, hshape], ?_⟩
      intro row'' hrow''
      rcases mem_cons.1 hrow'' with rfl | hrow''
      · exact hsome
      · exact hall row'' hrow''
    obtain ⟨entry, live⟩ := row
    have hrow : entry.depth = entry.payload.depth := hdepth (entry, live) mem_cons_self
    -- a row that needs no write
    have hkeep : (live = false → entry.payload.depth ≠ none) →
        Runs Choice.Fine ((overtake rows).andThen fun rest => .ret (.ok ((entry, live) :: rest))) s r s' →
        OvertakenAlone ((entry, live) :: rows) r s s' := by
      intro hpay
      refine hrest (entry, live) (Placed.refl s) rfl fun hfalse => ?_
      rw [hrow]
      exact Option.isSome_iff_ne_none.2 (hpay hfalse)
    cases live with
    | true => exact hkeep nofun h
    | false =>
      cases hpay : entry.payload with
      | staged depth bytes =>
        refine hkeep (fun _ => by rw [hpay]; exact nofun) ?_
        unfold overtake at h
        simp only [hpay] at h
        exact h
      | deduped bytes =>
        unfold overtake at h
        simp only [hpay] at h
        obtain ⟨depth, s1, hd, h⟩ := runs_bind.1 h
        obtain ⟨c, -, hc⟩ := runs_step.1 hd
        simp only [Option.some.injEq, Prod.mk.injEq] at hc
        obtain ⟨-, rfl⟩ := hc
        have hwrite : ∀ {v s2}, Runs Choice.Fine (writeBlock entry.id depth bytes) s v s2 →
            ∃ u, v = .ok u ∧ ∃ evs, Placed s s2 evs := by
          intro v s2 h
          obtain ⟨e, he, hf⟩ := runs_step.1 h
          rw [he.2.1] at hf
          cases hf
          exact ⟨(), rfl, _, placed_file (.inr ⟨_, rfl⟩)⟩
        obtain ⟨-, s2, ⟨evs, hplaced⟩, h⟩ := runs_andThen hwrite h
        exact hrest _ hplaced (by simp only [BatchEntry.shape, hpay]) (fun _ => rfl) h

/-- A batch that names no undecodable record, closed alone without failures, is recorded. -/
theorem closeAlone_runs {c : Config} (hb : BatchOk es) {r : Except Err FlushOutcome}
    (h : Runs Choice.Fine (closeAlone c es) s r s') (hdec : ∀ e ∈ es, s.blocks.get e.id ≠ some .garbage) :
    (∃ o, r = .ok o) ∧ (∀ b, rcOf s' b = incrementRefcount^[(entryRefs es).count b] (rcOf s b)) ∧
      ∀ b, s'.blocks.get b = some .garbage ↔ s.blocks.get b = some .garbage := by
  -- the stripes are taken and given back around the commit
  have hcommit : Runs Choice.Fine (commitBatch es) s r s' := by
    obtain ⟨u, s0, hlock, hthen⟩ := runs_bind.1 h
    rw [lockBatch, runs_lockAll] at hlock
    obtain ⟨r', s1, hbody, hrest⟩ := runs_bind.1 hthen
    obtain ⟨u', s2, hunlock, hr, hs⟩ := runs_bind.1 hrest
    rw [unlockBatch, runs_unlockAll] at hunlock
    rw [hr, hs, hunlock, ← hlock]
    exact hbody
  clear h
  obtain ⟨rows, sr, ⟨rfl, hmap, htrue⟩, h⟩ := runs_andThen (fun h => readLive_runs h hdec) hcommit
  have hdepth : ∀ row ∈ rows, row.1.depth = row.1.payload.depth := by
    intro row hrow
    exact hb.depth _ (by rw [← hmap]; exact mem_map.2 ⟨row, hrow, rfl⟩)
  obtain ⟨rows', so, ⟨⟨evs, hplaced⟩, hshape, hsome⟩, h⟩ := runs_andThen (fun h => overtake_runs h hdepth) h
  have hland : ∀ e : Choice, e.Fine → Landing e := fun e he => ⟨he.1, he.2.2.2.2.1, he.2.2.2.1⟩
  obtain ⟨-, sl, hplaced', h⟩ := runs_andThen (fun h => landed_runs (h.mono hland)) h
  have hblocks : sl.blocks = sr.blocks := by rw [hplaced'.blocks, hplaced.blocks]
  -- the entries that are recorded have the blocks and the occurrences of the batch's
  have hfst : (rows'.map Prod.fst).map BatchEntry.shape = es.map BatchEntry.shape := by
    have := congrArg (List.map Prod.fst) hshape
    rw [← hmap]
    rw [map_map, map_map] at this ⊢
    exact this
  have hmem : ∀ e ∈ rows'.map Prod.fst, ∃ e' ∈ es, e'.id = e.id ∧ e'.occurrences = e.occurrences := by
    intro e he
    obtain ⟨e', he', heq⟩ := mem_shape hfst he
    exact ⟨e', he', congrArg Prod.fst heq, congrArg (fun t => t.2.1) heq⟩
  have hpos : ∀ e ∈ rows'.map Prod.fst, 1 ≤ e.occurrences := by
    intro e he
    obtain ⟨e', he', -, hocc⟩ := hmem e he
    rw [← hocc]
    exact hb.pos e' he'
  rcases transact_runs (fun e he => he.1) h with ⟨o, hbody, rfl⟩ | ⟨err, hbody, -, -⟩
  · have hrec := recordEntries_ok hpos hbody
    refine ⟨⟨o, rfl⟩, fun b => ?_, fun b => ?_⟩
    · have hrc : rcOf sl b = rcOf sr b := by unfold rcOf; rw [hblocks]
      rw [hrec.counts, hrc, entryRefs_shape hfst]
    · rw [hrec.garbage_iff, hblocks]
  have hready : ∀ e ∈ rows'.map Prod.fst, Ready sl e := by
    intro e he
    obtain ⟨row, hrow, rfl⟩ := mem_map.1 he
    cases hflag : row.2 with
    | false => exact .inr (hsome row hrow hflag)
    | true =>
      obtain ⟨row0, hrow0, heq⟩ := mem_shape hshape hrow
      have hid : row0.1.id = row.1.id := congrArg (fun t => t.1.1) heq
      have hflag0 : row0.2 = row.2 := congrArg (fun t => t.2) heq
      have hl : Live sr row.1.id := by rw [← hid]; exact htrue row0 hrow0 (by rw [hflag0, hflag])
      exact .inl ((live_congr (congrArg (fun blocks => blocks.get row.1.id) hblocks)).2 hl)
  obtain ⟨e, he, hg⟩ := recordEntries_error hpos hready hbody
  obtain ⟨e', he', hid, -⟩ := hmem e he
  rw [hblocks, ← hid] at hg
  exact absurd hg (hdec e' he')

/-- Batches closed one after the other, each by its own request; `none` if one fails. -/
def commitSerially (c : Config) (e : Choice) : List (List BatchEntry) → Store → Option Store
  | [], s => some s
  | es :: rest, s =>
    match (closeAlone c es).eval e s with
    | some (.ok _, s') => commitSerially c e rest s'
    | _ => none

/-- **The serial commit** adds the occurrences of every batch. -/
theorem commitSerially_spec (c : Config) {e : Choice} (he : e.Fine) : ∀ {batches : List (List BatchEntry)} {s : Store},
    (∀ es ∈ batches, BatchOk es) → (∀ es ∈ batches, ∀ x ∈ es, s.blocks.get x.id ≠ some .garbage) →
    ∃ t, commitSerially c e batches s = some t ∧
      ∀ b, rcOf t b = incrementRefcount^[(batches.map entryRefs).sum.count b] (rcOf s b) := by
  intro batches
  induction batches with
  | nil => intro s _ _; exact ⟨s, rfl, fun b => rfl⟩
  | cons es batches ih =>
    intro s hb hdec
    obtain ⟨r, s1, heval, -⟩ := (closeAlone_unblocked c es s).eval (e := e) trivial
    obtain ⟨⟨o, rfl⟩, hcount, hgarbage⟩ := closeAlone_runs (hb es mem_cons_self) (eval_runs he heval)
      (hdec es mem_cons_self)
    obtain ⟨t, ht, hcount'⟩ := ih (s := s1) (fun es hes => hb es (mem_cons_of_mem _ hes)) fun es hes x hx hg =>
      hdec es (mem_cons_of_mem _ hes) x hx ((hgarbage _).1 hg)
    refine ⟨t, ?_, fun b => ?_⟩
    · unfold commitSerially
      rw [heval]
      exact ht
    · rw [hcount', hcount, ← Function.iterate_add_apply, map_cons, sum_cons,
        Multiset.count_add, add_comm]

/-! ## The group -/

/-- The group found no live record of `b` and could not place a file. -/
def Unplaced (evs : List Event) (b : BlockId) : Prop := .surveyed b false ∈ evs ∧ placements b evs = []

/-- The members that were told success. -/
def successful (members : List (List BatchEntry)) (rs : List (Except Err FlushOutcome)) : List (List BatchEntry) :=
  (members.zip rs).filterMap fun p =>
    match p.2 with
    | .ok _ => some p.1
    | .error _ => none

theorem repliedRefs_successful : ∀ (members : List (List BatchEntry)) (rs : List (Except Err FlushOutcome)),
    repliedRefs members rs = ((successful members rs).map entryRefs).sum := by
  intro members
  induction members with
  | nil => intro rs; rfl
  | cons es members ih =>
    intro rs
    cases rs with
    | nil => rfl
    | cons r rs =>
      rw [repliedRefs_cons, ih]
      cases r with
      | error e => exact zero_add _
      | ok o =>
        change _ = ((es :: successful members rs).map entryRefs).sum
        rw [map_cons, sum_cons]
        rfl

theorem mem_successful : ∀ {members : List (List BatchEntry)} {rs : List (Except Err FlushOutcome)}
    {P : List BatchEntry → Prop}, List.Forall₂ (fun es r => (∃ err, r = .error err) ↔ P es) members rs →
    ∀ es ∈ successful members rs, es ∈ members ∧ ¬ P es := by
  intro members rs P h
  induction h with
  | nil => exact nofun
  | @cons es r members rs hr _ ih =>
    intro es' hes'
    cases r with
    | error e =>
      obtain ⟨hmem, hP⟩ := ih es' hes'
      exact ⟨mem_cons_of_mem _ hmem, hP⟩
    | ok o =>
      have hcons : successful (es :: members) (.ok o :: rs) = es :: successful members rs := rfl
      rw [hcons] at hes'
      rcases mem_cons.1 hes' with rfl | hes'
      · refine ⟨mem_cons_self, fun hP => ?_⟩
        obtain ⟨err, herr⟩ := hr.2 hP
        cases herr
      · obtain ⟨hmem, hP⟩ := ih es' hes'
        exact ⟨mem_cons_of_mem _ hmem, hP⟩

/-- What a group did, phase by phase. -/
theorem closeGroup_runs {members : List (List BatchEntry)} (hpos : ∀ e ∈ members.flatten, 1 ≤ e.occurrences)
    (h : Runs Landing (closeGroup members) s rs s') :
    ∃ live placed evs s1, s'.log = s.log ++ evs ∧ s1.blocks = s.blocks ∧ s'.files = s1.files ∧
      (∀ id b, live.get id = some b ↔ .surveyed id b ∈ evs) ∧ (∀ id, live.get id = some true → Live s id) ∧
      (∀ e ∈ members.flatten, ∃ b, live.get e.id = some b) ∧
      (∀ b, placements b evs = ((placed.get b).map (diskDepth b)).toList) ∧
      (∀ b d, FileAt s1 b d ↔ FileAt s b d ∨ .landed b d ∈ evs ∨ ∃ ok, .wrote b d ok ∈ evs) ∧
      GroupRecorded (members.map (settleDepths live placed)) rs s1 s' := by
  obtain ⟨live, s0, hsurvey, h₁⟩ := runs_bind.1 h
  obtain ⟨evs0, rfl, hall, hlive, htrue, hids⟩ := surveyed_runs hsurvey
  obtain ⟨placed, s1, hover, h2⟩ := runs_bind.1 h₁
  obtain ⟨evs1, hplaced1, -, hacc⟩ := overtaken_runs hover
  obtain ⟨r, s2, hland, h3⟩ := runs_bind.1 h2
  obtain ⟨_, rfl, hplaced2⟩ := landed_runs hland
  have hplaced := hplaced1.trans hplaced2
  set landing := toLandGroup live members.flatten placed with hlanding
  have hids' : ∀ e ∈ members.flatten, ∃ b, live.get e.id = some b :=
    fun e he => hids e.id (mem_map.2 ⟨e, he, rfl⟩)
  have hblocks : s2.blocks = s.blocks := hplaced.blocks
  have hsurveyed : ∀ id b, live.get id = some b ↔ .surveyed id b ∈ evs0 := by
    intro id b
    rw [hlive, get_empty]
    simp
  have hlivetrue : ∀ id, live.get id = some true → Live s id := fun id h => htrue id ((hsurveyed id true).1 h)
  have hentry : ∀ e ∈ accepted (members.map (settleDepths live landing.1)), 1 ≤ e.occurrences ∧ Ready s2 e := by
    intro e he
    obtain ⟨es, hes, hnone, hmem, e', he', hid, hocc⟩ := mem_settled he
    have hflat : e' ∈ members.flatten := mem_flatten.2 ⟨es, hes, he'⟩
    refine ⟨by rw [← hocc]; exact hpos e' hflat, ?_⟩
    obtain ⟨b, hb⟩ := hids' e' hflat
    rw [hid] at hb
    cases b with
    | true => exact .inl ((live_congr (congrArg (fun blocks => blocks.get e.id) hblocks)).2 (hlivetrue _ hb))
    | false =>
      obtain ⟨d, hd⟩ := (settleDepths_none live landing.1 es).1 hnone e' he' (by rw [hid]; exact hb)
      rw [hid] at hd
      exact .inr (by rw [settleDepths_depth live landing.1 es e hmem d hb hd]; rfl)
  have hrec := recorded_runs h3 (fun e he => (hentry e he).1) fun e he => (hentry e he).2
  refine ⟨live, landing.1, evs0 ++ (evs1 ++ landing.2.map fun f => .landed f.1 (diskDepth f.1 f.2.1)), s2, ?_, hblocks,
    ?_, ?_, hlivetrue, hids', ?_, ?_, hrec⟩
  · rw [hrec.recorded.rest, hplaced.rest, append_assoc]
  · rw [hrec.recorded.rest]
  · intro id b
    rw [hsurveyed, mem_append]
    exact ⟨Or.inl, fun h => h.resolve_right fun hmem => hplaced.only _ hmem id b rfl⟩
  · intro b
    rw [placements_append, placements_surveyed hall, nil_append]
    exact placements_group hacc b
  · intro b d
    rw [hplaced.files]
    have hno : ∀ ev, (∀ id b, ev ≠ .surveyed id b) → (ev ∈ evs0 ++
        (evs1 ++ landing.2.map fun f => .landed f.1 (diskDepth f.1 f.2.1)) ↔
        ev ∈ evs1 ++ landing.2.map fun f => .landed f.1 (diskDepth f.1 f.2.1)) := by
      intro ev hev
      rw [mem_append]
      refine ⟨fun h => h.resolve_left fun hmem => ?_, Or.inr⟩
      obtain ⟨id, b, rfl⟩ := hall ev hmem
      exact hev id b rfl
    rw [hno (.landed b d) nofun]
    refine or_congr Iff.rfl (or_congr Iff.rfl (exists_congr fun ok => ?_))
    rw [hno (.wrote b d ok) nofun]

/-- Every placement of a file is in the log. -/
theorem mem_placements {b : BlockId} : d ∈ placements b evs ↔ .landed b d ∈ evs ∨ .wrote b d true ∈ evs := by
  unfold placements
  rw [mem_filterMap]
  constructor
  · rintro ⟨ev, hev, hd⟩
    split at hd
    · split at hd
      · rename_i hid; subst hid; cases hd; exact .inl hev
      · cases hd
    · split at hd
      · rename_i hid; subst hid; cases hd; exact .inr hev
      · cases hd
    · cases hd
  · rintro (hev | hev)
    · exact ⟨_, hev, if_pos rfl⟩
    · exact ⟨_, hev, if_pos rfl⟩

/-- Members fail for the records they name and the files that could not be placed. -/
theorem unrecordable_settled (hlive : ∀ id b, live.get id = some b ↔ .surveyed id b ∈ evs)
    (hplaced : ∀ b, placements b evs = ((placed.get b).map (diskDepth b)).toList) (es : List BatchEntry) :
    Unrecordable s (settleDepths live placed es) ↔ ∃ e ∈ es, s.blocks.get e.id = some .garbage ∨ Unplaced evs e.id := by
  have hrefused : (settleDepths live placed es).2 ≠ none ↔ ∃ e ∈ es, Unplaced evs e.id := by
    rw [Ne, settleDepths_none]
    push Not
    refine exists_congr fun e => and_congr_right fun _ => ?_
    unfold Unplaced
    rw [← hlive, hplaced]
    cases placed.get e.id <;> simp
  have hgarbage : (∃ e ∈ (settleDepths live placed es).1, s.blocks.get e.id = some .garbage) ↔
      ∃ e ∈ es, s.blocks.get e.id = some .garbage := by
    constructor
    · rintro ⟨e, he, hg⟩
      obtain ⟨e', he', hshape⟩ := mem_shape (settleDepths_shape live placed es) he
      have hid : e'.id = e.id := congrArg Prod.fst hshape
      exact ⟨e', he', by rw [hid]; exact hg⟩
    · rintro ⟨e, he, hg⟩
      obtain ⟨e', he', hshape⟩ := mem_shape (settleDepths_shape live placed es).symm he
      have hid : e'.id = e.id := congrArg Prod.fst hshape
      exact ⟨e', he', by rw [hid]; exact hg⟩
  unfold Unrecordable
  rw [hrefused, hgarbage, or_comm, ← exists_or]
  exact exists_congr fun e => by rw [and_or_left]

/-- **A group commit is the serial commit of its members that can be recorded.** A member
fails exactly when it names a record that does not decode or a block that found no place;
every other member adds its own occurrences, as it would have alone; and a block without a
live record was placed once, where its record says. -/
theorem closeGroup_serial (c : Config) (members : List (List BatchEntry)) (hbatch : ∀ es ∈ members, BatchOk es)
    (s s' : Store) (rs : List (Except Err FlushOutcome)) (h : Runs Landing (closeGroup members) s rs s') :
    ∃ evs, s'.log = s.log ++ evs ∧
      List.Forall₂ (fun es r => (∃ err, r = .error err) ↔
        ∃ e ∈ es, s.blocks.get e.id = some .garbage ∨ Unplaced evs e.id) members rs ∧
      (∀ b, rcOf s b + ((successful members rs).map entryRefs).sum.count b < 2 ^ 64 →
        rcOf s' b = rcOf s b + ((successful members rs).map entryRefs).sum.count b) ∧
      (∀ e : Choice, e.Fine → ∃ t, commitSerially c e (successful members rs) s = some t ∧ ∀ b, rcOf t b = rcOf s' b) ∧
      ∀ es ∈ successful members rs, ∀ e ∈ es, ¬ Live s e.id → ∃ d, placements e.id evs = [d] ∧ LiveAt s' e.id d ∧
        FileAt s' e.id d ∧ ∀ d', FileAt s' e.id d' → FileAt s e.id d' ∨ d' = d ∨ .wrote e.id d' false ∈ evs := by
  have hpos : ∀ e ∈ members.flatten, 1 ≤ e.occurrences := by
    intro e he
    obtain ⟨es, hes, hmem⟩ := mem_flatten.1 he
    exact (hbatch es hes).pos e hmem
  obtain ⟨live, placed, evs, s1, hlog, hblocks, hfiles, hlive, htrue, hids, hplaced, hfileAt, hrec⟩ :=
    closeGroup_runs hpos h
  have hcounts : ∀ b, rcOf s' b =
      incrementRefcount^[((successful members rs).map entryRefs).sum.count b] (rcOf s b) := by
    intro b
    rw [hrec.recorded.counts, repliedRefs_settle, repliedRefs_successful]
    unfold rcOf
    rw [hblocks]
  have hfails : List.Forall₂ (fun es r => (∃ err, r = .error err) ↔
      ∃ e ∈ es, s.blocks.get e.id = some .garbage ∨ Unplaced evs e.id) members rs := by
    refine (forall₂_map_left_iff.1 hrec.fails).imp fun es r hr => ?_
    rw [hr, unrecordable_settled hlive hplaced es, hblocks]
  refine ⟨evs, hlog, hfails, fun b hroom => ?_, ?_, ?_⟩
  · rw [hcounts, incrementRefcount_iterate hroom]
  · intro e he
    obtain ⟨t, ht, hcount⟩ := commitSerially_spec c he
      (fun es hes => hbatch es (mem_successful hfails es hes).1)
      fun es hes x hx hg => (mem_successful hfails es hes).2 ⟨x, hx, Or.inl hg⟩
    exact ⟨t, ht, fun b => by rw [hcount, hcounts]⟩
  intro es hes e he hdead
  obtain ⟨hmem, hfine⟩ := mem_successful hfails es hes
  obtain ⟨b, hb⟩ := hids e (mem_flatten.2 ⟨es, hmem, he⟩)
  cases b with
  | true => exact absurd (htrue _ hb) hdead
  | false =>
    -- the block found a place, and only one
    cases hd : placed.get e.id with
    | none => exact absurd ⟨e, he, Or.inr ⟨(hlive _ _).1 hb, by rw [hplaced, hd]; rfl⟩⟩ hfine
    | some raw =>
      have hone : placements e.id evs = [diskDepth e.id raw] := by rw [hplaced, hd]; rfl
      have hin : diskDepth e.id raw ∈ placements e.id evs := by rw [hone]; exact mem_singleton_self _
      refine ⟨diskDepth e.id raw, hone, ?_, ?_, ?_⟩
      · have href : e.id ∈ repliedRefs ((members.map (settleDepths live placed)).map Prod.fst) rs := by
          rw [repliedRefs_settle, repliedRefs_successful]
          have hle : entryRefs es ≤ ((successful members rs).map entryRefs).sum :=
            single_le_sum (fun _ _ => Multiset.zero_le _) _ (mem_map_of_mem hes)
          exact Multiset.mem_of_le hle ((mem_entryRefs (hbatch es hmem).pos).2 ⟨e, he, rfl⟩)
        obtain ⟨d, hlat⟩ := hrec.recorded.touched _ href
        rcases hrec.recorded.placed _ _ hlat with hold | ⟨-, e1, he1, hid, hdepth⟩
        · exact absurd ((live_congr (congrArg (fun blocks => blocks.get e.id) hblocks)).1 ⟨d, hold⟩) hdead
        · obtain ⟨es1, -, -, hin1, -⟩ := mem_settled he1
          rw [settleDepths_depth live placed es1 e1 hin1 raw (by rw [← hid]; exact hb) (by rw [← hid]; exact hd)] at hdepth
          cases hdepth
          exact hlat
      · unfold FileAt
        rw [hfiles]
        exact (hfileAt _ _).2 (Or.inr ((mem_placements.1 hin).imp_right fun hw => ⟨true, hw⟩))
      · intro d' hd'
        have hone' : ∀ d ∈ placements e.id evs, d = diskDepth e.id raw := fun d h => by
          rw [hone] at h; exact mem_singleton.1 h
        unfold FileAt at hd'
        rw [hfiles] at hd'
        rcases (hfileAt _ _).1 hd' with hold | hl | ⟨ok, hw⟩
        · exact Or.inl hold
        · exact Or.inr (Or.inl (hone' d' (mem_placements.2 (Or.inl hl))))
        · cases ok with
          | true => exact Or.inr (Or.inl (hone' d' (mem_placements.2 (Or.inr hw))))
          | false => exact Or.inr (Or.inr hw)

/-- Two members with one staged chunk, and one that names a record that does not decode. -/
def sharedGroup : List (List BatchEntry) :=
  [[⟨abcId, 3, 2, .staged 1 abc, some 1⟩], [⟨abcId, 3, 1, .staged 2 abc, some 2⟩], [⟨xId, 1, 1, .deduped [120], none⟩]]

theorem sharedGroup_batches : ∀ es ∈ sharedGroup, BatchOk es := by
  intro es hes
  simp only [sharedGroup, mem_cons, not_mem_nil, or_false] at hes
  rcases hes with rfl | rfl | rfl <;> exact ⟨by simp, by simp, by simp [Payload.depth]⟩

/-- The first two add three references and the third fails, as it would alone. -/
theorem closeGroup_serial_shared : ∃ rs s', (closeGroup sharedGroup).eval steady
      { Store.empty with blocks := OrdMap.insert ∅ xId .garbage } = some (rs, s') ∧
    (rs.map Except.isOk, rcOf s' abcId, placements abcId s'.log) = ([true, true, false], 3, [1]) ∧
    ∃ t, commitSerially abcConfig steady (successful sharedGroup rs)
        { Store.empty with blocks := OrdMap.insert ∅ xId .garbage } = some t ∧ ∀ b, rcOf t b = rcOf s' b := by
  have hrun : ((closeGroup sharedGroup).eval steady { Store.empty with blocks := OrdMap.insert ∅ xId .garbage }).map
      (fun p => (p.1.map Except.isOk, rcOf p.2 abcId, placements abcId p.2.log)) =
        some ([true, true, false], 3, [1]) := by decide +kernel
  obtain ⟨⟨rs, s'⟩, heval, hres⟩ := Option.map_eq_some_iff.1 hrun
  have hruns := @eval_runs _ _ _ _ Landing steady ⟨rfl, rfl, rfl⟩ rs s' _ _ heval
  obtain ⟨evs, -, -, -, hserial, -⟩ := closeGroup_serial abcConfig sharedGroup sharedGroup_batches _ s' rs hruns
  exact ⟨rs, s', heval, hres, hserial steady steady_fine⟩

end QssStorage
