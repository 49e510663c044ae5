import QssStorage.Proof.Batch

/-!
# Closing a group

The commit station closes several batches as one: a block without a live record gets one
file however many members carry it, and every entry learns where that file is.

* `closeGroup_ok`: **each member that is told success has its references counted.**
-/

namespace QssStorage

open Conc Hand List OrdMap

variable {n : ℕ} {m : Mode} {L : Multiset ℕ} {s0 s1 s2 : Store} {live : OrdMap BlockId Bool}
  {placed : OrdMap BlockId ℕ}
variable {members : List (List BatchEntry)} {es : List BatchEntry} {id : BlockId} {e : BatchEntry}

/-! ## Which files land -/

/-- A block without a live record whose entry brings a file is placed, once; what was
placed before stays. -/
structure Lands (live : OrdMap BlockId Bool) (es : List BatchEntry) (placed placed' : OrdMap BlockId ℕ)
    (files : List (BlockId × ℕ × Bytes)) : Prop where
  mono : ∀ id d, placed.get id = some d → placed'.get id = some d
  source : ∀ id d, placed'.get id = some d → placed.get id = some d ∨ ∃ bytes, (id, d, bytes) ∈ files
  lands : ∀ f ∈ files, placed.get f.1 = none ∧ placed'.get f.1 = some f.2.1 ∧ live.get f.1 = some false ∧
    ∃ e ∈ es, e.id = f.1
  staged : ∀ e ∈ es, live.get e.id = some false → e.payload.depth ≠ none → ∃ d, placed'.get e.id = some d
  nodup : (files.map Prod.fst).Nodup

theorem Lands.weaken {placed' : OrdMap BlockId ℕ} {files : List (BlockId × ℕ × Bytes)}
    (h : Lands live es placed placed' files) (e : BatchEntry)
    (he : live.get e.id = some false → e.payload.depth ≠ none → ∃ d, placed.get e.id = some d) :
    Lands live (e :: es) placed placed' files := by
  refine ⟨h.mono, h.source, ?_, ?_, h.nodup⟩
  · intro f hf
    obtain ⟨h1, h2, h3, e', he', hid⟩ := h.lands f hf
    exact ⟨h1, h2, h3, e', mem_cons_of_mem _ he', hid⟩
  intro e' he' hl hp
  rcases mem_cons.1 he' with rfl | he'
  · obtain ⟨d, hd⟩ := he hl hp
    exact ⟨d, h.mono _ d hd⟩
  · exact h.staged e' he' hl hp

theorem toLandGroup_spec (live : OrdMap BlockId Bool) : ∀ (es : List BatchEntry) (placed : OrdMap BlockId ℕ),
    Lands live es placed (toLandGroup live es placed).1 (toLandGroup live es placed).2 := by
  intro es
  induction es with
  | nil =>
    intro placed
    exact ⟨fun _ _ h => h, fun _ _ h => .inl h, nofun, nofun, nodup_nil⟩
  | cons e es ih =>
    intro placed
    unfold toLandGroup
    split
    · -- the first file of a new block
      rename_i depth bytes hpay hlive hnone
      have h := ih (placed.insert e.id depth)
      have hself : (toLandGroup live es (placed.insert e.id depth)).1.get e.id = some depth :=
        h.mono e.id depth (get_insert_self _ _ _)
      refine ⟨?_, ?_, ?_, ?_, ?_⟩
      · intro id d hd
        refine h.mono id d ?_
        rw [get_insert_of_ne _ _ (by rintro rfl; rw [hnone] at hd; cases hd)]
        exact hd
      · intro id d hd
        rcases h.source id d hd with hd | ⟨b, hb⟩
        · rw [get_insert] at hd
          split at hd
          · rename_i heq
            cases hd
            rw [heq]
            exact .inr ⟨bytes, mem_cons_self⟩
          · exact .inl hd
        · exact .inr ⟨b, mem_cons_of_mem _ hb⟩
      · intro f hf
        rcases mem_cons.1 hf with rfl | hf
        · exact ⟨hnone, hself, hlive, e, mem_cons_self, rfl⟩
        obtain ⟨h1, h2, h3, e', he', hid⟩ := h.lands f hf
        refine ⟨?_, h2, h3, e', mem_cons_of_mem _ he', hid⟩
        rw [get_insert] at h1
        split at h1
        · cases h1
        · exact h1
      · intro e' he' hl hp
        rcases mem_cons.1 he' with rfl | he'
        · exact ⟨depth, hself⟩
        · exact h.staged e' he' hl hp
      · rw [map_cons, nodup_cons]
        refine ⟨?_, h.nodup⟩
        intro hmem
        obtain ⟨f, hf, hid⟩ := mem_map.1 hmem
        have h1 := (h.lands f hf).1
        rw [hid, get_insert_self] at h1
        cases h1
    · -- nothing to land: no file, a live record, or placed already
      rename_i hnot
      refine (ih placed).weaken e ?_
      intro hl hp
      cases hpay : e.payload with
      | deduped bytes => rw [hpay] at hp; exact absurd rfl hp
      | staged depth bytes =>
        cases hd : placed.get e.id with
        | some d => exact ⟨d, rfl⟩
        | none => exact absurd hd (hnot depth bytes hpay hl)

/-! ## What the entries learn -/

theorem settleDepths_shape (live : OrdMap BlockId Bool) (placed : OrdMap BlockId ℕ) : ∀ es : List BatchEntry,
    (settleDepths live placed es).1.map BatchEntry.shape = es.map BatchEntry.shape := by
  intro es
  induction es with
  | nil => rfl
  | cons e es ih =>
    unfold settleDepths
    dsimp only
    split <;> simp only [map_cons, ih, BatchEntry.shape]

/-- A member is refused if and only if an entry without a live record has no file. -/
theorem settleDepths_none (live : OrdMap BlockId Bool) (placed : OrdMap BlockId ℕ) : ∀ es : List BatchEntry,
    (settleDepths live placed es).2 = none ↔ ∀ e ∈ es, live.get e.id = some false → ∃ d, placed.get e.id = some d := by
  intro es
  induction es with
  | nil => exact ⟨fun _ => nofun, fun _ => rfl⟩
  | cons e es ih =>
    unfold settleDepths
    simp only [mem_cons, forall_eq_or_imp]
    split
    · rename_i depth hl hd
      rw [ih]
      exact ⟨fun h => ⟨fun _ => ⟨depth, hd⟩, h⟩, fun h => h.2⟩
    · rename_i hl hd
      refine ⟨nofun, fun h => ?_⟩
      obtain ⟨d, hd'⟩ := h.1 hl
      cases hd.symm.trans hd'
    rename_i h1 h2
    rw [ih]
    refine ⟨fun h => ⟨fun hl => ?_, h⟩, fun h => h.2⟩
    cases hd : placed.get e.id with
    | some d => exact ⟨d, rfl⟩
    | none => exact absurd hd (h2 hl)

/-- An entry without a live record learns where the group put its file. -/
theorem settleDepths_depth (live : OrdMap BlockId Bool) (placed : OrdMap BlockId ℕ) : ∀ (es : List BatchEntry)
    (e : BatchEntry), e ∈ (settleDepths live placed es).1 → ∀ d, live.get e.id = some false →
    placed.get e.id = some d → e.depth = some d := by
  intro es
  induction es with
  | nil => intro e he; cases he
  | cons e' es ih =>
    intro e he d hl hd
    unfold settleDepths at he
    dsimp only at he
    split at he
    · rename_i depth hl' hd'
      rcases mem_cons.1 he with rfl | he
      · simp only at hd
        rw [hd'] at hd
        exact hd
      · exact ih e he d hl hd
    · rename_i hl' hd'
      rcases mem_cons.1 he with rfl | he
      · rw [hd'] at hd; cases hd
      · exact ih e he d hl hd
    · rename_i h1 h2
      rcases mem_cons.1 he with rfl | he
      · exact absurd hd (h1 d hl)
      · exact ih e he d hl hd

/-! ## Reads and overtakes at group width -/

/-- What the group knows of live records: a `true` is right, a `false` may be a failed read. -/
def Surveyed (m : Mode) (s : Store) (live : OrdMap BlockId Bool) : Prop :=
  ∀ id b, live.get id = some b → (b = true → Live s id) ∧ (m.Clean → b = false → ¬ Live s id)

theorem Surveyed.insert {b : Bool} (h : Surveyed m s0 live)
    (hb : (b = true → Live s0 id) ∧ (m.Clean → b = false → ¬ Live s0 id)) : Surveyed m s0 (live.insert id b) := by
  intro id' b' hget
  rw [get_insert] at hget
  split at hget
  · rename_i heq
    cases hget
    rw [heq]
    exact hb
  · exact h id' b' hget

theorem surveyBlock_ok {x : Hand} (hx : x.views = 0) (hL : stripeOf n id ∈ L) : wp (ledger n m) (surveyBlock id)
      (fun b g => g = hold L s0 + x ∧ (b = true → Live s0 id) ∧ (m.Clean → b = false → ¬ Live s0 id))
      (hold L s0 + x) := by
  refine wp_step hx ?_
  intro s r hc hag e he v s' hf _
  have hlive := hag.live_iff hL
  split at hf
  · rename_i answer hread hrec
    cases hf
    refine ⟨fun b _ => SameBlock.refl _ b, x, s0, hx, hag, hc.log _, rfl, ?_, fun _ => ?_⟩
    · rintro rfl; exact hlive.1 (hasLiveRecord_true.1 hrec)
    · rintro rfl hl
      cases (hasLiveRecord_true.2 (hlive.2 hl)).symm.trans hrec
  rename_i hnot
  cases hf
  refine ⟨fun b _ => SameBlock.refl _ b, x, s0, hx, hag, hc.log _, rfl, nofun, fun hm => ?_⟩
  -- without failures only a record that does not decode has no answer
  have hread : e.read = true := (hm.2 e he).2.2.1
  cases hrec : hasLiveRecord id s with
  | ok answer => exact absurd hrec (hnot answer hread)
  | error err => exact absurd (hasLiveRecord_error hrec) (hc.strict hm.1).not_garbage

theorem readLiveGroup_ok {x : Hand} (hx : x.views = 0) : ∀ {ids : List BlockId} {live : OrdMap BlockId Bool},
    (∀ id ∈ ids, stripeOf n id ∈ L) → Surveyed m s0 live →
    wp (ledger n m) (readLiveGroup ids live)
      (fun live' g => g = hold L s0 + x ∧ Surveyed m s0 live' ∧ (∀ id ∈ ids, ∃ b, live'.get id = some b) ∧
        ∀ id b, live.get id = some b → live'.get id = some b) (hold L s0 + x) := by
  intro ids
  induction ids with
  | nil => intro live _ hs; exact ⟨rfl, hs, nofun, fun _ _ h => h⟩
  | cons id ids ih =>
    intro live hL hs
    have hL' : ∀ id ∈ ids, stripeOf n id ∈ L := fun id hid => hL id (mem_cons_of_mem _ hid)
    -- with an answer for this id, the others
    have hrest : ∀ {live1 : OrdMap BlockId Bool} {b : Bool}, Surveyed m s0 live1 → live1.get id = some b →
        (∀ id b, live.get id = some b → live1.get id = some b) →
        wp (ledger n m) (readLiveGroup ids live1)
          (fun live' g => g = hold L s0 + x ∧ Surveyed m s0 live' ∧ (∀ id' ∈ id :: ids, ∃ b, live'.get id' = some b) ∧
            ∀ id b, live.get id = some b → live'.get id = some b) (hold L s0 + x) := by
      intro live1 b hs1 hb hmono
      refine wp_mono ?_ (ih hL' hs1)
      rintro live' g ⟨rfl, hs', hall, hmono'⟩
      refine ⟨rfl, hs', ?_, fun id b h => hmono' id b (hmono id b h)⟩
      intro id' hid'
      rcases mem_cons.1 hid' with rfl | hid'
      · exact ⟨b, hmono' _ b hb⟩
      · exact hall id' hid'
    unfold readLiveGroup
    split
    · rename_i b hb
      exact hrest hs hb fun _ _ h => h
    rename_i hnone
    have hfresh : ∀ a id' b', live.get id' = some b' → (live.insert id a).get id' = some b' := by
      intro a id' b' h
      rw [get_insert_of_ne _ _ (by rintro rfl; rw [hnone] at h; cases h)]
      exact h
    refine wp_bind (wp_mono ?_ (surveyBlock_ok hx (hL id mem_cons_self)))
    rintro answer g ⟨rfl, hanswer⟩
    exact hrest (hs.insert hanswer) (get_insert_self _ _ _) (hfresh _)

/-- Every placed block has its file. -/
def Placement (s : Store) (placed : OrdMap BlockId ℕ) : Prop :=
  ∀ id d, placed.get id = some d → FileAt s id (diskDepth id d)

/-- The strays of a group are the files it placed. -/
def Accounted (placed : OrdMap BlockId ℕ) (p : Multiset (BlockId × ℕ)) : Prop :=
  ∀ q ∈ p, ∃ d, placed.get q.1 = some d ∧ q.2 = diskDepth q.1 d

/-- The blocks placed are blocks of entries without a live record. -/
def Within (live : OrdMap BlockId Bool) (es : List BatchEntry) (placed : OrdMap BlockId ℕ) : Prop :=
  ∀ id d, placed.get id = some d → live.get id = some false ∧ ∃ e ∈ es, e.id = id

/-- How the overtake of a group ends. -/
def AfterOvertakeGroup (n : ℕ) (m : Mode) (L : Multiset ℕ) (s0 : Store) (live : OrdMap BlockId Bool)
    (es todo : List BatchEntry) (placed' : OrdMap BlockId ℕ) (g : Hand) : Prop :=
  ∃ s1 p, Grew n L s0 s1 ∧ g = Hand.hold L s1 + Hand.ofStrays p ∧ Placement s1 placed' ∧ Within live es placed' ∧
    (m.Clean → Accounted placed' p ∧
      ∀ e ∈ todo, live.get e.id = some false → e.payload.depth = none → ∃ d, placed'.get e.id = some d)

theorem overtakeGroup_ok (hL : ∀ e ∈ es, stripeOf n e.id ∈ L) :
    ∀ (todo : List BatchEntry) (placed : OrdMap BlockId ℕ) (p : Multiset (BlockId × ℕ)) {s1 : Store},
    (∀ e ∈ todo, e ∈ es) → Grew n L s0 s1 → Placement s1 placed → Within live es placed →
    (m.Clean → Accounted placed p) →
    wp (ledger n m) (overtakeGroup live todo placed)
      (fun placed' g => AfterOvertakeGroup n m L s0 live es todo placed' g ∧
        ∀ id d, placed.get id = some d → placed'.get id = some d) (hold L s1 + ofStrays p) := by
  intro todo
  induction todo with
  | nil =>
    intro placed p s1 _ hgrew hpl hw hacc
    exact ⟨⟨s1, p, hgrew, rfl, hpl, hw, fun hm => ⟨hacc hm, nofun⟩⟩, fun _ _ h => h⟩
  | cons e todo ih =>
    intro placed p s1 hsub hgrew hpl hw hacc
    have hsub' : ∀ e ∈ todo, e ∈ es := fun e he => hsub e (mem_cons_of_mem _ he)
    have heL := hL e (hsub e mem_cons_self)
    -- with this entry dealt with, the others
    have hrest : ∀ {placed1 : OrdMap BlockId ℕ} {s2 : Store} {q : Multiset (BlockId × ℕ)}, Grew n L s0 s2 →
        Placement s2 placed1 → Within live es placed1 → (m.Clean → Accounted placed1 q) →
        (∀ id d, placed.get id = some d → placed1.get id = some d) →
        (m.Clean → live.get e.id = some false → e.payload.depth = none → ∃ d, placed1.get e.id = some d) →
        wp (ledger n m) (overtakeGroup live todo placed1)
          (fun placed' g => AfterOvertakeGroup n m L s0 live es (e :: todo) placed' g ∧
            ∀ id d, placed.get id = some d → placed'.get id = some d) (hold L s2 + ofStrays q) := by
      intro placed1 s2 q hg2 hpl2 hw2 hacc2 hmono he
      refine wp_mono ?_ (ih placed1 q hsub' hg2 hpl2 hw2 hacc2)
      rintro placed' g ⟨⟨s3, q', hg3, rfl, hpl3, hw3, hclean⟩, hmono'⟩
      refine ⟨⟨s3, q', hg3, rfl, hpl3, hw3, fun hm => ⟨(hclean hm).1, ?_⟩⟩, fun id d h => hmono' id d (hmono id d h)⟩
      intro e' he' hl hd
      rcases mem_cons.1 he' with rfl | he'
      · obtain ⟨d, hd'⟩ := he hm hl hd
        exact ⟨d, hmono' _ d hd'⟩
      · exact (hclean hm).2 e' he' hl hd
    unfold overtakeGroup
    split
    · rename_i bytes hl hpay hnone
      refine wp_bind (wp_chooseDepth rfl fun d hd => ?_)
      refine wp_bind (wp_mono ?_ (writeBlock_ok rfl heL))
      rintro r g ⟨s2, q, hg2, rfl, hok, herr⟩
      have hpl2 : Placement s2 placed := by
        intro id d hd
        obtain ⟨-, e', he', rfl⟩ := hw id d hd
        exact (hg2 _ (hL e' he')).2 _ (hpl _ d hd)
      rw [← ofStrays_add]
      cases r with
      | error err =>
        have hm : ¬ m.Clean := herr err rfl
        exact hrest (hgrew.trans hg2) hpl2 hw (fun hm' => absurd hm' hm) (fun _ _ h => h) fun hm' => absurd hm' hm
      | ok u =>
        obtain ⟨hfile, rfl⟩ := hok u rfl
        refine hrest (hgrew.trans hg2) ?_ ?_ ?_ ?_ fun _ _ _ => ⟨d, get_insert_self _ _ _⟩
        · intro id d' hd'
          rw [get_insert] at hd'
          split at hd'
          · rename_i heq; cases hd'; rw [heq]; exact hfile
          · exact hpl2 id d' hd'
        · intro id d' hd'
          rw [get_insert] at hd'
          split at hd'
          · rename_i heq; rw [heq]; exact ⟨hl, e, hsub e mem_cons_self, rfl⟩
          · exact hw id d' hd'
        · intro hm q' hq'
          rcases Multiset.mem_add.1 hq' with hq' | hq'
          · rw [Multiset.mem_singleton.1 hq']
            exact ⟨d, get_insert_self _ _ _, rfl⟩
          · obtain ⟨d', hd', heq⟩ := hacc hm q' hq'
            refine ⟨d', ?_, heq⟩
            rw [get_insert_of_ne _ _ (by intro h; rw [h, hnone] at hd'; cases hd')]
            exact hd'
        · intro id d' hd'
          rw [get_insert_of_ne _ _ (by rintro rfl; rw [hnone] at hd'; cases hd')]
          exact hd'
    · rename_i hnot
      refine hrest hgrew hpl hw hacc (fun _ _ h => h) ?_
      intro _ hl hpay
      cases hp : e.payload with
      | staged depth bytes => rw [hp] at hpay; cases hpay
      | deduped bytes =>
        cases hd : placed.get e.id with
        | some d => exact ⟨d, rfl⟩
        | none => exact absurd hd (hnot bytes hl hp)

/-! ## The close -/

/-- The references behind the outcomes of a group. -/
def repliedRefs (members : List (List BatchEntry)) (outcomes : List (Except Err FlushOutcome)) : Multiset BlockId :=
  ((members.zip outcomes).map replyRefs).sum

theorem repliedRefs_cons (es : List BatchEntry) (members : List (List BatchEntry)) (r : Except Err FlushOutcome)
    (rs : List (Except Err FlushOutcome)) :
    repliedRefs (es :: members) (r :: rs) = replyRefs (es, r) + repliedRefs members rs := by
  unfold repliedRefs
  rw [zip_cons_cons, map_cons, sum_cons]

/-- Settling depths does not change what a member adds. -/
theorem repliedRefs_settle (live : OrdMap BlockId Bool) (placed : OrdMap BlockId ℕ) : ∀ (members : List (List BatchEntry))
    (rs : List (Except Err FlushOutcome)),
    repliedRefs ((members.map (settleDepths live placed)).map Prod.fst) rs = repliedRefs members rs := by
  intro members
  induction members with
  | nil => intro rs; rfl
  | cons es members ih =>
    intro rs
    cases rs with
    | nil => rfl
    | cons r rs =>
      rw [map_cons, map_cons, repliedRefs_cons, repliedRefs_cons, ih]
      congr 1
      cases r with
      | error e => rfl
      | ok a => exact entryRefs_shape (settleDepths_shape live placed es)

theorem groupReplies_spec : ∀ {settled : List (List BatchEntry × Option Err)} {outcomes : List FlushOutcome},
    outcomes.length = settled.length →
    (groupReplies settled outcomes).length = settled.length ∧
    repliedRefs (settled.map Prod.fst) (groupReplies settled outcomes) = entryRefs (accepted settled) := by
  intro settled
  induction settled with
  | nil => intro outcomes h; exact ⟨by cases outcomes <;> rfl, rfl⟩
  | cons member settled ih =>
    intro outcomes h
    cases outcomes with
    | nil => cases h
    | cons o outcomes =>
      rw [length_cons, length_cons, Nat.add_right_cancel_iff] at h
      obtain ⟨hlen, hrefs⟩ := ih h
      match member with
      | (es, some e) =>
        refine ⟨congrArg (· + 1) hlen, ?_⟩
        change repliedRefs (es :: settled.map Prod.fst) (.error e :: groupReplies settled outcomes) = _
        rw [repliedRefs_cons, hrefs]
        exact zero_add _
      | (es, none) =>
        refine ⟨congrArg (· + 1) hlen, ?_⟩
        change repliedRefs (es :: settled.map Prod.fst) (.ok o :: groupReplies settled outcomes) = _
        rw [repliedRefs_cons, hrefs]
        exact (entryRefs_append es (accepted settled)).symm

/-- Without a refusal every member of a committed group is told success. -/
theorem groupReplies_ok : ∀ {settled : List (List BatchEntry × Option Err)} {outcomes : List FlushOutcome},
    (∀ member ∈ settled, member.2 = none) → ∀ r ∈ groupReplies settled outcomes, ∃ o, r = .ok o := by
  intro settled
  induction settled with
  | nil => intro outcomes _ r hr; cases outcomes <;> cases hr
  | cons member settled ih =>
    intro outcomes h r hr
    obtain ⟨es, refusal⟩ := member
    have hnone : refusal = none := h _ mem_cons_self
    subst hnone
    cases outcomes with
    | nil => cases hr
    | cons o outcomes =>
      rcases mem_cons.1 hr with rfl | hr
      · exact ⟨o, rfl⟩
      · exact ih (fun member hmem => h member (mem_cons_of_mem _ hmem)) r hr

theorem mem_accepted {settled : List (List BatchEntry × Option Err)} :
    e ∈ accepted settled ↔ ∃ member ∈ settled, member.2 = none ∧ e ∈ member.1 := by
  unfold accepted
  rw [mem_flatten]
  constructor
  · rintro ⟨l, hl, he⟩
    obtain ⟨member, hmem, rfl⟩ := mem_map.1 hl
    split at he
    · rename_i hnone; exact ⟨member, hmem, Option.isNone_iff_eq_none.1 hnone, he⟩
    · cases he
  · rintro ⟨member, hmem, hnone, he⟩
    exact ⟨member.1, mem_map.2 ⟨member, hmem, by rw [hnone]; rfl⟩, he⟩

/-- How a group ends: one outcome per member, with the references of those that succeeded. -/
def ClosedGroup (m : Mode) (L : Multiset ℕ) (members : List (List BatchEntry))
    (rs : List (Except Err FlushOutcome)) (g : Hand) : Prop :=
  ∃ s1 l, rs.length = members.length ∧ g = Hand.hold L s1 + (Hand.ofRefs (repliedRefs members rs) + l) ∧ Leak m l ∧
    (m.Clean → ∀ r ∈ rs, ∃ o, r = .ok o)

/-- Members replayed alone: only reached after a failure. -/
theorem replayAlone_ok (hm : ¬ m.Clean) : ∀ {settled : List (List BatchEntry × Option Err)} {s0 : Store},
    (∀ e ∈ accepted settled, stripeOf n e.id ∈ L) → (∀ e ∈ accepted settled, 1 ≤ e.occurrences) →
    Settled m s0 (accepted settled) 0 →
    wp (ledger n m) (replayAlone settled) (ClosedGroup m L (settled.map Prod.fst)) (hold L s0 + 0) := by
  intro settled
  induction settled with
  | nil =>
    intro s0 _ _ _
    exact ⟨s0, 0, rfl, by rw [repliedRefs]; rfl, leak_zero, fun hm' => absurd hm' hm⟩
  | cons member settled ih =>
    intro s0 hL hpos hset
    -- the outcome of this member in front of the others'
    have hcons : ∀ (es : List BatchEntry) (r : Except Err FlushOutcome) (x : Hand) {s : Store}, x.views = 0 →
        (∀ e ∈ accepted settled, stripeOf n e.id ∈ L) → (∀ e ∈ accepted settled, 1 ≤ e.occurrences) →
        Settled m s (accepted settled) 0 →
        wp (ledger n m) ((replayAlone settled).bind fun rest => .ret (r :: rest))
          (ClosedGroup m L (es :: settled.map Prod.fst)) (hold L s + (ofRefs (replyRefs (es, r)) + x)) := by
      intro es r x s hx hL hpos hset
      have h := ih hL hpos hset
      rw [add_zero] at h
      refine wp_bind (wp_framed h ?_)
      rintro rs g ⟨s1, l, hlen, rfl, hl, -⟩
      refine ⟨s1, l + x, congrArg (· + 1) hlen, ?_, hl.add (leak_of_not_clean hx hm), fun hm' => absurd hm' hm⟩
      rw [repliedRefs_cons, ofRefs_add]
      abel
    match member with
    | (es, some e) =>
      have h := hcons es (.error e) 0 rfl hL hpos hset
      exact h
    | (es, none) =>
      have hacc : accepted ((es, none) :: settled) = es ++ accepted settled := rfl
      rw [hacc] at hL hpos hset
      have hpos1 : ∀ e ∈ es, 1 ≤ e.occurrences := fun e he => hpos e (mem_append_left _ he)
      have hL2 : ∀ e ∈ accepted settled, stripeOf n e.id ∈ L := fun e he => hL e (mem_append_right _ he)
      have hset2 : Settled m s0 (accepted settled) 0 := hset.subset (fun e he => mem_append_right _ he) hm
      refine wp_bind (wp_mono ?_ (wp_record (fun e he => hL e (mem_append_left _ he)) hpos1
        (hset.subset (fun e he => mem_append_left _ he) hm) (fun s a s' h => recordEntries_ok hpos1 h)
        fun s err hready h => recordEntries_error hpos1 hready h))
      rintro r g ⟨s1, l, hkept, hok, herr⟩
      have hrest := fun x hx => hcons es r x hx hL2
        (fun e he => hpos e (mem_append_right _ he)) (hset2.kept hL2 hkept hm 0)
      cases r with
      | ok a =>
        obtain ⟨rfl, hl, -⟩ := hok a rfl
        exact hrest l hl.1
      | error e =>
        obtain ⟨rfl, hl⟩ := herr e rfl
        have h := hrest l hl.1
        have hzero : ofRefs (replyRefs (es, .error e)) + l = l := zero_add l
        rw [hzero] at h
        exact h

/-- An entry of a settled member is an entry of the member, up to its depth. -/
theorem mem_settled (h : e ∈ accepted (members.map (settleDepths live placed))) :
    ∃ es ∈ members, (settleDepths live placed es).2 = none ∧ e ∈ (settleDepths live placed es).1 ∧
      ∃ e' ∈ es, e'.id = e.id ∧ e'.occurrences = e.occurrences := by
  obtain ⟨member, hmem, hnone, he⟩ := mem_accepted.1 h
  obtain ⟨es, hes, rfl⟩ := mem_map.1 hmem
  obtain ⟨e', he', heq⟩ := mem_shape (settleDepths_shape live placed es) he
  exact ⟨es, hes, hnone, he, e', he', congrArg Prod.fst heq, congrArg (fun t => t.2.1) heq⟩

/-- Once the files of a group are placed, the members that are not refused are settled. -/
theorem settled_group {p : Multiset (BlockId × ℕ)} (hL : ∀ e ∈ members.flatten, stripeOf n e.id ∈ L)
    (hsurvey : Surveyed m s0 live) (hall : ∀ id ∈ members.flatten.map BatchEntry.id, ∃ b, live.get id = some b)
    (hgrew : Grew n L s0 s2) (hpl : Placement s2 placed) (hw : Within live members.flatten placed)
    (hacc : m.Clean → Accounted placed p)
    (hplaced : m.Clean → ∀ e ∈ members.flatten, live.get e.id = some false → ∃ d, placed.get e.id = some d) :
    Settled m s2 (accepted (members.map (settleDepths live placed))) p := by
  refine ⟨?_, fun hm q hq => ?_⟩
  · intro e he
    obtain ⟨es, hes, hnone, hmem, e', he', hid, -⟩ := mem_settled he
    have hflat : e' ∈ members.flatten := mem_flatten.2 ⟨es, hes, he'⟩
    obtain ⟨b, hb⟩ := hall e.id (by rw [← hid]; exact mem_map.2 ⟨e', hflat, rfl⟩)
    cases b with
    | true =>
      have hl := (hsurvey _ _ hb).1 rfl
      exact .inl ((live_congr (hgrew _ (by rw [← hid]; exact hL e' hflat)).1).2 hl)
    | false =>
      obtain ⟨d, hd⟩ := (settleDepths_none live placed es).1 hnone e' he' (by rw [hid]; exact hb)
      rw [hid] at hd
      exact .inr ⟨d, settleDepths_depth live placed es e hmem d hb hd, hpl _ d hd⟩
  · -- without failures no member is refused
    obtain ⟨d, hd, hq2⟩ := hacc hm q hq
    obtain ⟨hl, e', he', hid⟩ := hw _ d hd
    refine ⟨?_, ?_, ?_⟩
    · intro hlive
      have hq1 : stripeOf n q.1 ∈ L := by rw [← hid]; exact hL e' he'
      exact (hsurvey _ _ hl).2 hm rfl ((live_congr (hgrew _ hq1).1).1 hlive)
    · obtain ⟨es, hes, he'⟩ := mem_flatten.1 he'
      have hnone : (settleDepths live placed es).2 = none :=
        (settleDepths_none live placed es).2 fun e he hl =>
          hplaced hm e (mem_flatten.2 ⟨es, hes, he⟩) hl
      obtain ⟨e, he, heq⟩ := mem_shape (settleDepths_shape live placed es).symm he'
      refine ⟨e, mem_accepted.2 ⟨_, mem_map.2 ⟨es, hes, rfl⟩, hnone, he⟩, ?_⟩
      exact (congrArg Prod.fst heq).trans hid
    · intro e he hide
      obtain ⟨es, -, -, hmem, -⟩ := mem_settled he
      refine ⟨hide.symm, ?_⟩
      rw [settleDepths_depth live placed es e hmem d (by rw [hide]; exact hl) (by rw [hide]; exact hd), hq2]
      rfl

/-- **A group closed by the station**: each member that is told success has its references
counted, and no other member has. -/
theorem closeGroup_ok (hL : ∀ e ∈ members.flatten, stripeOf n e.id ∈ L)
    (hpos : ∀ e ∈ members.flatten, 1 ≤ e.occurrences) :
    wp (ledger n m) (closeGroup members) (ClosedGroup m L members) (hold L s0 + 0) := by
  have hL' : ∀ id ∈ members.flatten.map BatchEntry.id, stripeOf n id ∈ L := by
    intro id hid
    obtain ⟨e, he, rfl⟩ := mem_map.1 hid
    exact hL e he
  have hempty : ∀ {α : Type} (id : BlockId) (a : α), (∅ : OrdMap BlockId α).get id ≠ some a := by
    intro α id a h
    rw [get_empty] at h
    cases h
  refine wp_bind (wp_mono ?_ (readLiveGroup_ok rfl hL' fun id b h => absurd h (hempty id b)))
  rintro live g ⟨rfl, hsurvey, hall, -⟩
  have hnone : m.Clean → Accounted (∅ : OrdMap BlockId ℕ) 0 := fun _ q hq => absurd hq (Multiset.notMem_zero q)
  refine wp_bind (wp_mono ?_ (overtakeGroup_ok hL members.flatten ∅ 0 (fun e he => he) (Grew.refl s0)
    (fun id d h => absurd h (hempty id d)) (fun id d h => absurd h (hempty id d)) hnone))
  rintro placed g ⟨⟨s1, p, hgrew, rfl, hpl, hw, hclean⟩, -⟩
  have hlands := toLandGroup_spec live members.flatten placed
  have hfilesL : ∀ f ∈ (toLandGroup live members.flatten placed).2, stripeOf n f.1 ∈ L := by
    intro f hf
    obtain ⟨-, -, -, e, he, hid⟩ := hlands.lands f hf
    rw [← hid]
    exact hL e he
  refine wp_bind (wp_mono ?_ (landBatch_ok rfl hfilesL))
  rintro r g ⟨s2, q, hgrew', rfl, hok, herr⟩
  cases r with
  | error err =>
    -- no record was written: every member is told so
    have hm := herr err rfl
    have hzero : ∀ ms : List (List BatchEntry), repliedRefs ms (ms.map fun _ => .error err) = 0 := by
      intro ms
      induction ms with
      | nil => rfl
      | cons es ms ih => rw [map_cons, repliedRefs_cons, ih]; rfl
    refine ⟨s2, _, length_map _, ?_, leak_of_not_clean (g := ofStrays q + ofStrays p) rfl hm, fun hm' => absurd hm' hm⟩
    rw [hzero, ofRefs_zero, zero_add]
  | ok u =>
    obtain ⟨hfiles, hq⟩ := hok u rfl
    have hplaced : m.Clean → ∀ e ∈ members.flatten, live.get e.id = some false →
        ∃ d, (toLandGroup live members.flatten placed).1.get e.id = some d := by
      intro hm e he hl
      cases hdep : e.payload.depth with
      | some d => exact hlands.staged e he hl (by rw [hdep]; exact nofun)
      | none =>
        obtain ⟨d, hd⟩ := (hclean hm).2 e he hl hdep
        exact ⟨d, hlands.mono _ d hd⟩
    have hset : Settled m s2 (accepted (members.map (settleDepths live (toLandGroup live members.flatten placed).1)))
        (q + p) := by
      refine settled_group hL hsurvey hall (hgrew.trans hgrew') ?_ ?_ ?_ hplaced
      · intro id d hd
        rcases hlands.source id d hd with hd | ⟨bytes, hmem⟩
        · obtain ⟨-, e, he, rfl⟩ := hw id d hd
          exact (hgrew' _ (hL e he)).2 _ (hpl _ d hd)
        · exact hfiles _ hmem
      · intro id d hd
        rcases hlands.source id d hd with hd | ⟨bytes, hmem⟩
        · exact hw id d hd
        · obtain ⟨-, -, h3, h4⟩ := hlands.lands _ hmem
          exact ⟨h3, h4⟩
      intro hm q' hq'
      rcases Multiset.mem_add.1 hq' with hq' | hq'
      · obtain ⟨f, hf, rfl⟩ := hq q' hq'
        exact ⟨f.2.1, (hlands.lands f hf).2.1, rfl⟩
      · obtain ⟨d, hd, heq⟩ := (hclean hm).1 q' hq'
        exact ⟨d, hlands.mono _ d hd, heq⟩
    -- what the accepted entries inherit from the members
    have hmem : ∀ e ∈ accepted (members.map (settleDepths live (toLandGroup live members.flatten placed).1)),
        stripeOf n e.id ∈ L ∧ 1 ≤ e.occurrences := by
      intro e he
      obtain ⟨es, hes, -, -, e', he', hid, hocc⟩ := mem_settled he
      have hflat : e' ∈ members.flatten := mem_flatten.2 ⟨es, hes, he'⟩
      rw [← hid, ← hocc]
      exact ⟨hL e' hflat, hpos e' hflat⟩
    have hLs := fun e he => (hmem e he).1
    have hposs := fun e he => (hmem e he).2
    rw [← ofStrays_add]
    refine wp_bind (wp_mono ?_ (wp_record hLs hposs hset (fun s a s' h => (recordGroup_ok hposs h).2)
      fun s err hready h => recordGroup_error hposs hready h))
    rintro r g ⟨s3, l, hkept, hok3, herr3⟩
    cases r with
    | ok outcomes =>
      obtain ⟨rfl, hl, s, s', hbody⟩ := hok3 outcomes rfl
      obtain ⟨hlen, hrefs⟩ := groupReplies_spec (recordGroup_ok hposs hbody).1
      rw [repliedRefs_settle] at hrefs
      rw [length_map] at hlen
      refine ⟨s3, l, hlen, by rw [hrefs], hl, fun hm => groupReplies_ok ?_⟩
      intro member hmember
      obtain ⟨es, hes, rfl⟩ := mem_map.1 hmember
      exact (settleDepths_none _ _ es).2 fun e he => hplaced hm e (mem_flatten.2 ⟨es, hes, he⟩)
    | error err =>
      obtain ⟨rfl, hl⟩ := herr3 err rfl
      have hset' := hset.kept hLs hkept hl.2 0
      have h := replayAlone_ok (m := m) hl.2 hLs hposs hset'
      rw [add_zero] at h
      refine wp_framed h ?_
      rintro rs g ⟨s4, l', hlen, rfl, hl', -⟩
      rw [repliedRefs_settle]
      rw [length_map, length_map] at hlen
      exact ⟨s4, l' + l, hlen, by abel, hl'.add hl.leak, fun hm => absurd hm hl.2⟩

end QssStorage
