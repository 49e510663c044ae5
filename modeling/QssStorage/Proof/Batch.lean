import QssStorage.Proof.Objects

/-!
# Closing one batch

A batch is closed under the stripes of its blocks: files first, then the records. What
its closer knows at each point is said of the state its stripes vouch for.

* `wp_record`: **the transaction of a close** turns strays into references.
-/

namespace QssStorage

open Conc Hand List

variable {s : Store} {b id : BlockId} {es : List BatchEntry} {d : ℕ} {bytes : Bytes} {x : Hand} {l : List Event}
  {p : Multiset (BlockId × ℕ)}

variable {n : ℕ} {m : Mode} {L : Multiset ℕ} {s0 s1 s2 : Store}

/-! ## What a closer knows from one step to the next -/

/-- Files were added to blocks of the stripes `L`, and their records left alone. -/
def Grew (n : ℕ) (L : Multiset ℕ) (s s' : Store) : Prop :=
  ∀ b, stripeOf n b ∈ L → s'.blocks.get b = s.blocks.get b ∧ ∀ d, FileAt s b d → FileAt s' b d

/-- Live records of the stripes `L` stayed live, and files stayed. -/
def Kept (n : ℕ) (L : Multiset ℕ) (s s' : Store) : Prop :=
  ∀ b, stripeOf n b ∈ L → (Live s b → Live s' b) ∧ ∀ d, FileAt s b d → FileAt s' b d

theorem Grew.refl (s : Store) : Grew n L s s := fun _ _ => ⟨rfl, fun _ h => h⟩

theorem Grew.trans (h : Grew n L s0 s1) (h' : Grew n L s1 s2) : Grew n L s0 s2 :=
  fun b hb => ⟨(h' b hb).1.trans (h b hb).1, fun d hd => (h' b hb).2 d ((h b hb).2 d hd)⟩

theorem Kept.refl (s : Store) : Kept n L s s := fun _ _ => ⟨id, fun _ h => h⟩

theorem live_congr {s s' : Store} (h : s'.blocks.get b = s.blocks.get b) : Live s' b ↔ Live s b := by
  unfold Live LiveAt
  rw [h]

theorem Agree.live_iff (h : Agree n L s0 s) (hb : stripeOf n b ∈ L) : Live s b ↔ Live s0 b :=
  live_congr (h b hb).1

theorem Agree.file_iff (h : Agree n L s0 s) (hb : stripeOf n b ∈ L) : FileAt s b d ↔ FileAt s0 b d := by
  unfold FileAt
  rw [(h b hb).2 d]

theorem hasLiveRecord_congr {s s' : Store} (h : s'.blocks.get b = s.blocks.get b) :
    hasLiveRecord b s' = hasLiveRecord b s := by
  unfold hasLiveRecord
  rw [h]

theorem hasLiveRecord_true : hasLiveRecord b s = .ok true ↔ Live s b := by
  unfold hasLiveRecord Live LiveAt
  cases hb : s.blocks.get b with
  | none => simp
  | some cell =>
    cases cell with
    | garbage | record blk => simp

theorem hasLiveRecord_error {e : Err} (h : hasLiveRecord b s = .error e) : s.blocks.get b = some .garbage := by
  unfold hasLiveRecord at h
  split at h
  · cases h
  · assumption
  · cases h

/-! ## A file appears -/

/-- A new file of a block whose stripe is held is a stray in the hand of its writer. -/
theorem Core.place {x r : Hand}
    (hc : Core m s (x + r)) :
    Core m { s with files := s.files.insert (toLex (id, d)) bytes, log := l }
      (ofStrays {(id, d)} + x + r) := by
  refine (hc.putFile id d bytes ?_ ?_ ?_ ?_ ?_).log l
  · intro p hp
    rw [add_strays] at hp
    simp only [add_strays, ofStrays, Multiset.mem_add] at hp ⊢
    tauto
  · simp [ofStrays]
  · simp [ofStrays]
  · simp [ofStrays]
  · simp [ofStrays]

theorem grew_place (hag : Agree n L s0 s) :
    Grew n L s0 { s with files := s.files.insert (toLex (id, d)) bytes, log := l } := by
  intro b hb
  refine ⟨(hag b hb).1, fun d' hd' => ?_⟩
  have hf := (hag.file_iff hb).2 hd'
  unfold FileAt at hf ⊢
  rw [OrdMap.get_insert]
  split
  · rfl
  · exact hf

theorem file_place : FileAt { s with files := s.files.insert (toLex (id, d)) bytes, log := l } id d := by
  unfold FileAt
  rw [OrdMap.get_insert_self]
  rfl

theorem sameBlock_place (hL : stripeOf n id ∈ L)
    (hb : stripeOf n b ∉ L) :
    SameBlock s { s with files := s.files.insert (toLex (id, d)) bytes, log := l } b := by
  refine sameBlock_outside hL (fun _ => rfl) (fun hne d' => OrdMap.get_insert_of_ne _ _ ?_) hb
  intro heq
  exact hne (congrArg Prod.fst (toLex.injective heq))

/-- How a step that places a file ends: with the file, a stray so far, or with an error. -/
def Placing (n : ℕ) (m : Mode) (L : Multiset ℕ) (s0 : Store) (x : Hand) (id : BlockId) (d : ℕ)
    (r : Except Err Unit) (g : Hand) : Prop :=
  ∃ s1 p, Grew n L s0 s1 ∧ g = Hand.hold L s1 + (Hand.ofStrays p + x) ∧
    (∀ u, r = .ok u → FileAt s1 id d ∧ p = {(id, d)}) ∧ ∀ e, r = .error e → ¬ m.Clean

theorem Placing.failed {err : Err} (hm : ¬ m.Clean) : Placing n m L s x id d (.error err) (hold L s + x) :=
  ⟨s, 0, Grew.refl s, by rw [ofStrays_zero, zero_add], nofun, fun _ _ => hm⟩

theorem writeBlock_ok {depth : ℕ} (hx : x.views = 0)
    (hL : stripeOf n id ∈ L) :
    wp (ledger n m) (writeBlock id depth bytes) (Placing n m L s0 x id (diskDepth id depth)) (hold L s0 + x) := by
  refine wp_step hx ?_
  intro s r hc hag e he v s' hf _
  have hv : ∀ p, (ofStrays p + x).views = 0 := fun p => by rw [add_views, hx]; rfl
  cases ho : e.write with
  | ok =>
    simp only [ho, Option.some.injEq, Prod.mk.injEq] at hf
    obtain ⟨rfl, rfl⟩ := hf
    exact ⟨fun b hb => sameBlock_place hL hb, _, _, hv _, fun b _ => SameBlock.refl _ b, hc.place,
      _, _, grew_place hag, rfl, fun _ _ => ⟨file_place, rfl⟩, fun _ h => by cases h⟩
  | failed =>
    simp only [ho, Option.some.injEq, Prod.mk.injEq] at hf
    obtain ⟨rfl, rfl⟩ := hf
    exact ⟨fun b _ => SameBlock.refl _ b, x, s0, hx, hag, hc, Placing.failed (not_clean he (by simp [Choice.Fine, ho]))⟩
  | applied =>
    simp only [ho, Option.some.injEq, Prod.mk.injEq] at hf
    obtain ⟨rfl, rfl⟩ := hf
    exact ⟨fun b hb => sameBlock_place hL hb, _, _, hv _, fun b _ => SameBlock.refl _ b, hc.place,
      _, _, grew_place hag, rfl, fun _ h => (by cases h), fun _ _ => not_clean he (by simp [Choice.Fine, ho])⟩

theorem landBlock_ok {depth : ℕ} (hx : x.views = 0)
    (hL : stripeOf n id ∈ L) :
    wp (ledger n m) (landBlock id depth bytes) (Placing n m L s0 x id (diskDepth id depth)) (hold L s0 + x) := by
  refine wp_step hx ?_
  intro s r hc hag e he v s' hf _
  by_cases ho : e.rename = true
  · simp only [ho, if_true, Option.some.injEq, Prod.mk.injEq] at hf
    obtain ⟨rfl, rfl⟩ := hf
    exact ⟨fun b hb => sameBlock_place hL hb, _, _, by rw [add_views, hx]; rfl, fun b _ => SameBlock.refl _ b,
      hc.place, _, _, grew_place hag, rfl, fun _ _ => ⟨file_place, rfl⟩, nofun⟩
  · have hs' : v = .error .io ∧ s' = s := by
      cases ho' : e.rename <;> simp_all
    obtain ⟨rfl, rfl⟩ := hs'
    exact ⟨fun b _ => SameBlock.refl _ b, x, s0, hx, hag, hc, Placing.failed (not_clean he (by simp [Choice.Fine, ho]))⟩

/-- **A list of renames**: every file is there, or something failed. -/
theorem landBatch_ok : ∀ {files : List (BlockId × ℕ × Bytes)} {s0 : Store} {x : Hand}, x.views = 0 →
    (∀ f ∈ files, stripeOf n f.1 ∈ L) →
    wp (ledger n m) (landBatch files)
      (fun r g => ∃ s1 p, Grew n L s0 s1 ∧ g = hold L s1 + (ofStrays p + x) ∧
        (∀ u, r = .ok u → (∀ f ∈ files, FileAt s1 f.1 (diskDepth f.1 f.2.1)) ∧
          ∀ q ∈ p, ∃ f ∈ files, q = (f.1, diskDepth f.1 f.2.1)) ∧ ∀ e, r = .error e → ¬ m.Clean)
      (hold L s0 + x) := by
  intro files
  induction files with
  | nil =>
    intro s0 x hx _
    refine wp_attempt hx ?_ ?_
    · exact fun hm => ⟨s0, 0, Grew.refl s0, by rw [ofStrays_zero, zero_add], nofun, fun _ _ => hm⟩
    · exact ⟨s0, 0, Grew.refl s0, by rw [ofStrays_zero, zero_add], fun _ _ => ⟨nofun, by simp⟩, nofun⟩
  | cons f files ih =>
    intro s0 x hx hL
    refine wp_andThen (wp_mono ?_ (landBlock_ok hx (hL f mem_cons_self)))
    rintro r g ⟨s1, p, hgrew, rfl, hok, herr⟩
    refine ⟨?_, fun e he => ⟨s1, p, hgrew, rfl, nofun, fun _ _ => herr e he⟩⟩
    intro u hu
    obtain ⟨hfile, hp⟩ := hok u hu
    have hx' : (ofStrays p + x).views = 0 := by rw [add_views, hx]; rfl
    refine wp_mono ?_ (ih hx' fun f hf => hL f (mem_cons_of_mem _ hf))
    rintro r' g' ⟨s2, q, hgrew', rfl, hok', herr'⟩
    refine ⟨s2, q + p, hgrew.trans hgrew', ?_, ?_, herr'⟩
    · rw [ofStrays_add, add_assoc (ofStrays q)]
    intro u hu
    obtain ⟨hfiles, hq⟩ := hok' u hu
    refine ⟨?_, ?_⟩
    · intro f' hf'
      rcases mem_cons.1 hf' with rfl | hf'
      · exact (hgrew' _ (hL _ mem_cons_self)).2 _ hfile
      · exact hfiles f' hf'
    intro q' hq'
    rcases Multiset.mem_add.1 hq' with hq' | hq'
    · obtain ⟨f', hf', rfl⟩ := hq q' hq'
      exact ⟨f', mem_cons_of_mem _ hf', rfl⟩
    · rw [hp] at hq'
      exact ⟨f, mem_cons_self, Multiset.mem_singleton.1 hq'⟩

/-! ## The transaction of a close -/

/-- Every entry has a live record or a file, and every stray belongs to entries about to be
recorded. -/
structure Settled (m : Mode) (s : Store) (es : List BatchEntry) (p : Multiset (BlockId × ℕ)) : Prop where
  ready : ∀ e ∈ es, Live s e.id ∨ ∃ d, e.depth = some d ∧ FileAt s e.id (diskDepth e.id d)
  strays : m.Clean → ∀ q ∈ p, ¬ Live s q.1 ∧ (∃ e ∈ es, e.id = q.1) ∧ ∀ e ∈ es, e.id = q.1 → PlacedBy e q.1 q.2

theorem Settled.kept (h : Settled m s0 es p)
    (hL : ∀ e ∈ es, stripeOf n e.id ∈ L) (hk : Kept n L s0 s1) (hm : ¬ m.Clean) (q : Multiset (BlockId × ℕ)) :
    Settled m s1 es q := by
  refine ⟨?_, fun hm' => absurd hm' hm⟩
  intro e he
  rcases h.ready e he with hl | ⟨d, hd, hf⟩
  · exact .inl ((hk _ (hL e he)).1 hl)
  · exact .inr ⟨d, hd, (hk _ (hL e he)).2 _ hf⟩

theorem Settled.subset {es es' : List BatchEntry} (h : Settled m s0 es p)
    (hsub : ∀ e ∈ es', e ∈ es) (hm : ¬ m.Clean) : Settled m s0 es' p :=
  ⟨fun e he => h.ready e (hsub e he), fun hm' => absurd hm' hm⟩

theorem Recorded.kept_of_agree {new : BlockId → ℕ → Prop} {refs : Multiset BlockId} {s s' : Store}
    (h : Recorded new refs s s') (hag : Agree n L s0 s) : Kept n L s0 s' := by
  intro b hb
  refine ⟨fun hl => ?_, fun d hd => ?_⟩
  · obtain ⟨d, hd⟩ := (hag.live_iff hb).2 hl
    exact ⟨d, h.kept b d hd⟩
  · rw [h.rest]
    exact (hag.file_iff hb).2 hd

/-- **The transaction of a close.** It takes the strays of its entries and gives their
references. -/
theorem wp_record {α : Type} {body : Store → Except Err (α × Store)}
    (hL : ∀ e ∈ es, stripeOf n e.id ∈ L) (hpos : ∀ e ∈ es, 1 ≤ e.occurrences)
    (hset : Settled m s0 es p)
    (hok : ∀ s a s', body s = .ok (a, s') → Recorded (fun b d => ∃ e ∈ es, PlacedBy e b d) (entryRefs es) s s')
    (herr : ∀ s err, (∀ e ∈ es, Ready s e) → body s = .error err → ∃ e ∈ es, s.blocks.get e.id = some .garbage) :
    wp (ledger n m) (transact body)
      (fun r g => ∃ s1 l, Kept n L s0 s1 ∧ (∀ a, r = .ok a → g = hold L s1 + (ofRefs (entryRefs es) + l) ∧ Leak m l ∧
          ∃ s s', body s = .ok (a, s')) ∧
        ∀ e, r = .error e → g = hold L s1 + l ∧ Failed m l)
      (hold L s0 + ofStrays p) := by
  refine wp_transact rfl ?_ ?_ ?_
  · intro s r hc hag err hb
    refine ⟨s0, _, Kept.refl s0, nofun, fun _ _ => ⟨rfl, rfl, fun hm => ?_⟩⟩
    have hready : ∀ e ∈ es, Ready s e := by
      intro e he
      rcases hset.ready e he with hl | ⟨d, hd, -⟩
      · exact .inl ((hag.live_iff (hL e he)).2 hl)
      · exact .inr (by rw [hd]; rfl)
    -- an exact store has no record that does not decode
    obtain ⟨e, -, hg⟩ := herr s err hready hb
    exact (hc.strict hm.1).not_garbage hg
  · exact fun hm => ⟨s0, _, Kept.refl s0, nofun, fun _ _ => ⟨rfl, rfl, hm⟩⟩
  · intro s r hc hag a s' hb hfits
    have hrec := hok s a s' hb
    have hnew : ∀ b d, ¬ Live s b → (∃ e ∈ es, PlacedBy e b d) → FileAt s b d := by
      rintro b d hn ⟨e, he, rfl, hd⟩
      rcases hset.ready e he with hl | ⟨d', hd', hf⟩
      · exact absurd ((hag.live_iff (hL e he)).2 hl) hn
      · rw [hd', Option.map_some, Option.some.injEq] at hd
        rw [← hd]
        exact (hag.file_iff (hL e he)).2 hf
    -- without failures, every stray of ours is live now
    have hlive : m.Clean → ∀ q ∈ p, LiveAt s' q.1 q.2 := by
      intro hm q hq
      obtain ⟨hn, ⟨e, he, hid⟩, hall⟩ := hset.strays hm q hq
      have hq1 : stripeOf n q.1 ∈ L := by rw [← hid]; exact hL e he
      obtain ⟨d, hd⟩ := hrec.touched q.1 ((mem_entryRefs hpos).2 ⟨e, he, hid⟩)
      rcases hrec.placed _ _ hd with hl | ⟨-, e', he', hp'⟩
      · exact absurd ((hag.live_iff hq1).1 ⟨d, hl⟩) hn
      · have h1 := (hall e' he' hp'.1.symm).2
        rw [hp'.2, Option.some.injEq] at h1
        rw [← h1]
        exact hd
    have hout : ∀ b, stripeOf n b ∉ L → SameBlock s s' b := by
      intro b hb'
      refine ⟨hrec.outside b fun hmem => ?_, fun d => by rw [hrec.rest]⟩
      obtain ⟨e, he, rfl⟩ := (mem_entryRefs hpos).1 hmem
      exact hb' (hL e he)
    by_cases hm : m.Clean
    · refine ⟨hout, ofRefs (entryRefs es), s', rfl, fun b _ => SameBlock.refl _ b, ?_,
        ⟨s', 0, hrec.kept_of_agree hag, ?_, nofun⟩, fun hm' => absurd hm hm'⟩
      swap
      · rintro a' ha'
        cases ha'
        exact ⟨by rw [add_zero], leak_zero, s, s', hb⟩
      refine hc.recorded hrec hfits hnew (by simp [ofRefs, ofStrays]) ?_ rfl rfl
      intro q hq
      simp only [add_strays, ofStrays, ofRefs, zero_add, Multiset.mem_add] at hq ⊢
      rcases hq with hq | hq
      · exact .inr (hlive hm q hq)
      · exact .inl hq
    · have hl : Leak m (ofStrays p) := leak_of_not_clean rfl hm
      refine ⟨hout, ofRefs (entryRefs es) + ofStrays p, s', rfl, fun b _ => SameBlock.refl _ b, ?_,
        ⟨s', ofStrays p, hrec.kept_of_agree hag, ?_, nofun⟩,
        fun _ => ⟨s', _, hrec.kept_of_agree hag, nofun, fun _ _ => ⟨rfl, rfl, hm⟩⟩⟩
      swap
      · rintro a' ha'
        cases ha'
        exact ⟨rfl, hl, s, s', hb⟩
      refine hc.recorded hrec hfits hnew ?_ (fun q hq => Or.inl ?_) rfl rfl
      · simp [ofRefs, ofStrays]
      · simpa [ofRefs, ofStrays] using hq

/-! ## One batch -/

/-- What a close never changes of an entry. -/
def BatchEntry.shape (e : BatchEntry) : BlockId × ℕ × Payload := (e.id, e.occurrences, e.payload)

theorem entryRefs_shape {es es' : List BatchEntry} (h : es.map BatchEntry.shape = es'.map BatchEntry.shape) :
    entryRefs es = entryRefs es' := by
  have key : ∀ l : List BatchEntry, entryRefs l = ((l.map BatchEntry.shape).map fun t => Multiset.replicate t.2.1 t.1).sum := by
    intro l
    unfold entryRefs
    rw [map_map]
    rfl
  rw [key, key, h]

/-- Two lists of the same shapes have the same entries up to the depth. -/
theorem mem_shape {α β : Type} {f : α → β} {l l' : List α} (h : l'.map f = l.map f) {a : α} (ha : a ∈ l') :
    ∃ a' ∈ l, f a' = f a := by
  have : f a ∈ l.map f := by rw [← h]; exact mem_map.2 ⟨a, ha, rfl⟩
  exact mem_map.1 this

theorem readLive_ok (hx : x.views = 0) : ∀ {es : List BatchEntry}, (∀ e ∈ es, stripeOf n e.id ∈ L) →
    wp (ledger n m) (readLive es)
      (fun r g => g = hold L s0 + x ∧
        (∀ rows, r = .ok rows → rows.map Prod.fst = es ∧ ∀ row ∈ rows, hasLiveRecord row.1.id s0 = .ok row.2) ∧
        ∀ e, r = .error e → ¬ m.Clean) (hold L s0 + x) := by
  intro es
  induction es with
  | nil =>
    intro _
    refine ⟨rfl, ?_, nofun⟩
    rintro rows h
    cases h
    exact ⟨rfl, nofun⟩
  | cons e es ih =>
    intro hL
    refine wp_andThen (wp_readStore hx ?_ ?_)
    · exact fun hm => ⟨nofun, fun _ _ => ⟨rfl, nofun, fun _ _ => hm⟩⟩
    intro s r hc hag
    have heq := hasLiveRecord_congr (hag _ (hL e mem_cons_self)).1
    refine ⟨?_, fun err herr => ⟨rfl, nofun, fun _ _ hm => (hc.strict hm.1).not_garbage (hasLiveRecord_error herr)⟩⟩
    intro live hlive
    refine wp_andThen (wp_mono ?_ (ih fun e he => hL e (mem_cons_of_mem _ he)))
    rintro r' g ⟨rfl, hok, herr⟩
    refine ⟨?_, fun err he => ⟨rfl, nofun, fun _ _ => herr err he⟩⟩
    intro rows hrows
    obtain ⟨hmap, hall⟩ := hok rows hrows
    refine ⟨rfl, ?_, nofun⟩
    rintro rows' h'
    cases h'
    refine ⟨by rw [map_cons, hmap], ?_⟩
    intro row hrow
    rcases mem_cons.1 hrow with rfl | hrow
    · rw [← hlive, heq]
    · exact hall row hrow

/-- What is known of a row once the dedup hits without a record have been written. -/
def Overtaken (s : Store) (row : BatchEntry × Bool) : Prop :=
  (row.2 = false → row.1.payload.depth = none → ∃ d, row.1.depth = some d ∧ FileAt s row.1.id (diskDepth row.1.id d)) ∧
  (row.2 = true ∨ row.1.payload.depth ≠ none → row.1.depth = row.1.payload.depth)

/-- How the overtake of `rows` ends. -/
def AfterOvertake (n : ℕ) (m : Mode) (L : Multiset ℕ) (s0 : Store) (x : Hand) (rows : List (BatchEntry × Bool))
    (r : Except Err (List (BatchEntry × Bool))) (g : Hand) : Prop :=
  ∃ s1 p, Grew n L s0 s1 ∧ g = Hand.hold L s1 + (Hand.ofStrays p + x) ∧ (∀ rows', r = .ok rows' →
      rows'.map (fun row => (row.1.shape, row.2)) = rows.map (fun row => (row.1.shape, row.2)) ∧
      (∀ row ∈ rows', Overtaken s1 row) ∧ ∀ q ∈ p, ∃ row ∈ rows', row.2 = false ∧ PlacedBy row.1 q.1 q.2) ∧
    ∀ e, r = .error e → ¬ m.Clean

theorem overtake_ok : ∀ {rows : List (BatchEntry × Bool)} {s0 : Store} {x : Hand}, x.views = 0 →
    (∀ row ∈ rows, stripeOf n row.1.id ∈ L) → (∀ row ∈ rows, row.1.depth = row.1.payload.depth) →
    wp (ledger n m) (overtake rows) (AfterOvertake n m L s0 x rows) (hold L s0 + x) := by
  intro rows
  induction rows with
  | nil =>
    intro s0 x hx _ _
    refine ⟨s0, 0, Grew.refl s0, by rw [ofStrays_zero, zero_add], ?_, nofun⟩
    rintro rows' h
    cases h
    exact ⟨rfl, nofun, by simp⟩
  | cons row rows ih =>
    intro s0 x hx hL hdepth
    have hL' : ∀ row ∈ rows, stripeOf n row.1.id ∈ L := fun row hrow => hL row (mem_cons_of_mem _ hrow)
    have hdepth' : ∀ row ∈ rows, row.1.depth = row.1.payload.depth :=
      fun row hrow => hdepth row (mem_cons_of_mem _ hrow)
    have hid := hL row mem_cons_self
    -- the row as it comes out, then the others
    have hrest : ∀ {s1 : Store} {p : Multiset (BlockId × ℕ)} (row' : BatchEntry × Bool), Grew n L s0 s1 →
        (row'.1.shape, row'.2) = (row.1.shape, row.2) → Overtaken s1 row' →
        (∀ q ∈ p, row'.2 = false ∧ PlacedBy row'.1 q.1 q.2) →
        wp (ledger n m) ((overtake rows).andThen fun rest => .ret (.ok (row' :: rest)))
          (AfterOvertake n m L s0 x (row :: rows)) (hold L s1 + (ofStrays p + x)) := by
      intro s1 p row' hgrew hshape hover hp
      refine wp_andThen (wp_mono ?_ (ih (by rw [add_views, hx]; rfl) hL' hdepth'))
      rintro r g ⟨s2, q, hgrew', rfl, hok, herr⟩
      have hsum : ofStrays q + (ofStrays p + x) = ofStrays (q + p) + x := by
        rw [ofStrays_add, add_assoc]
      refine ⟨?_, fun e he => ⟨s2, q + p, hgrew.trans hgrew', by rw [hsum], nofun, fun _ _ => herr e he⟩⟩
      intro rest hr
      obtain ⟨hmap, hall, hq⟩ := hok rest hr
      refine ⟨s2, q + p, hgrew.trans hgrew', by rw [hsum], ?_, nofun⟩
      rintro rows' h'
      cases h'
      have hid' : row'.1.id = row.1.id := congrArg (fun t => t.1.1) hshape
      refine ⟨by rw [map_cons, map_cons, hmap, hshape], ?_, ?_⟩
      · intro row'' hrow''
        rcases mem_cons.1 hrow'' with rfl | hrow''
        · refine ⟨fun h1 h2 => ?_, hover.2⟩
          obtain ⟨d, hd, hf⟩ := hover.1 h1 h2
          exact ⟨d, hd, (hgrew' _ (by rw [hid']; exact hid)).2 _ hf⟩
        · exact hall row'' hrow''
      · intro q' hq'
        rcases Multiset.mem_add.1 hq' with hq' | hq'
        · obtain ⟨row'', hrow'', h⟩ := hq q' hq'
          exact ⟨row'', mem_cons_of_mem _ hrow'', h⟩
        · exact ⟨row', mem_cons_self, hp q' hq'⟩
    obtain ⟨entry, live⟩ := row
    have hrow := hdepth (entry, live) mem_cons_self
    -- a row that needs no write
    have hkeep : (live = true ∨ entry.payload.depth ≠ none) →
        wp (ledger n m) ((overtake rows).andThen fun rest => .ret (.ok ((entry, live) :: rest)))
          (AfterOvertake n m L s0 x ((entry, live) :: rows)) (hold L s0 + x) := by
      intro h
      have := hrest (p := 0) (entry, live) (Grew.refl s0) rfl ⟨fun h1 h2 => ?_, fun _ => hrow⟩ (by simp)
      · rwa [ofStrays_zero, zero_add] at this
      · rcases h with h | h
        · simp only at h1; rw [h1] at h; cases h
        · exact absurd h2 h
    cases live with
    | true => exact hkeep (.inl rfl)
    | false =>
      cases hp : entry.payload with
      | staged depth bytes =>
        have h := hkeep (.inr (by rw [hp]; exact nofun))
        unfold overtake
        simp only [hp]
        exact h
      | deduped bytes =>
        unfold overtake
        simp only [hp]
        refine wp_bind (wp_chooseDepth hx fun d hd => ?_)
        refine wp_andThen (wp_mono ?_ (writeBlock_ok hx hid))
        rintro r g ⟨s1, p, hgrew, rfl, hok, herr⟩
        refine ⟨?_, fun e he => ⟨s1, p, hgrew, rfl, nofun, fun _ _ => herr e he⟩⟩
        intro u hu
        obtain ⟨hfile, rfl⟩ := hok u hu
        refine hrest _ hgrew (by simp only [BatchEntry.shape, hp]) ⟨fun _ _ => ⟨d, rfl, hfile⟩, ?_⟩ ?_
        · rintro (h | h)
          · cases h
          · exact absurd rfl h
        · intro q hq
          rw [Multiset.mem_singleton.1 hq]
          exact ⟨rfl, rfl, rfl⟩

theorem mem_toLand {rows : List (BatchEntry × Bool)} {f : BlockId × ℕ × Bytes} :
    f ∈ toLand rows ↔ ∃ row ∈ rows, row.2 = false ∧ row.1.id = f.1 ∧ row.1.payload = .staged f.2.1 f.2.2 := by
  induction rows with
  | nil => simp [toLand]
  | cons row rows ih =>
    obtain ⟨⟨id, len, occurrences, payload, depth⟩, live⟩ := row
    obtain ⟨id', depth', bytes'⟩ := f
    simp only [mem_cons, exists_eq_or_imp, ← ih]
    cases live with
    | true => cases payload <;> simp [toLand]
    | false =>
      cases payload with
      | deduped _ => simp [toLand]
      | staged d b =>
        simp only [toLand, mem_cons, Prod.mk.injEq, true_and, Payload.staged.injEq]
        refine or_congr_left ⟨?_, ?_⟩
        · rintro ⟨h1, h2, h3⟩
          exact ⟨h1.symm, h2.symm, h3.symm⟩
        · rintro ⟨h1, h2, h3⟩
          exact ⟨h1.symm, h2.symm, h3.symm⟩

/-- Once its files are placed a batch is settled. -/
theorem settled_batch {rows rows' : List (BatchEntry × Bool)} {p q : Multiset (BlockId × ℕ)}
    (hL : ∀ e ∈ es, stripeOf n e.id ∈ L) (hb : BatchOk es) (hrows : rows.map Prod.fst = es)
    (hlive : ∀ row ∈ rows, hasLiveRecord row.1.id s0 = .ok row.2)
    (hshape : rows'.map (fun row => (row.1.shape, row.2)) = rows.map (fun row => (row.1.shape, row.2)))
    (hover : ∀ row ∈ rows', Overtaken s1 row)
    (hp : ∀ q ∈ p, ∃ row ∈ rows', row.2 = false ∧ PlacedBy row.1 q.1 q.2) (hgrew : Grew n L s0 s1)
    (hgrew' : Grew n L s1 s2) (hfiles : ∀ f ∈ toLand rows', FileAt s2 f.1 (diskDepth f.1 f.2.1))
    (hq : ∀ q' ∈ q, ∃ f ∈ toLand rows', q' = (f.1, diskDepth f.1 f.2.1)) :
    Settled m s2 (rows'.map Prod.fst) (q + p) := by
  -- a row has the id and the flag of one whose record was read
  have hread : ∀ row ∈ rows', stripeOf n row.1.id ∈ L ∧ hasLiveRecord row.1.id s2 = .ok row.2 := by
    intro row hrow
    obtain ⟨row0, hrow0, heq⟩ := mem_shape hshape hrow
    have hid : row0.1.id = row.1.id := congrArg (fun t => t.1.1) heq
    have hL0 : stripeOf n row.1.id ∈ L := by
      rw [← hid]
      exact hL _ (by rw [← hrows]; exact mem_map.2 ⟨row0, hrow0, rfl⟩)
    refine ⟨hL0, ?_⟩
    rw [hasLiveRecord_congr ((hgrew.trans hgrew') _ hL0).1, ← hid, hlive row0 hrow0]
    exact congrArg (fun t => Except.ok t.2) heq
  have hids : (rows'.map fun row => row.1.id).Nodup := by
    have h1 : rows'.map (fun row => row.1.id) = rows.map fun row => row.1.id := by
      have := congrArg (List.map fun t : (BlockId × ℕ × Payload) × Bool => t.1.1) hshape
      rw [map_map, map_map] at this
      exact this
    rw [h1]
    have := hb.nodup
    rw [← hrows, map_map] at this
    exact this
  refine ⟨?_, fun _ => ?_⟩
  · intro e he
    obtain ⟨row, hrow, rfl⟩ := mem_map.1 he
    obtain ⟨hrowL, hlive'⟩ := hread row hrow
    cases hflag : row.2 with
    | true => rw [hflag] at hlive'; exact .inl (hasLiveRecord_true.1 hlive')
    | false =>
      right
      cases hpay : row.1.payload with
      | deduped bytes =>
        obtain ⟨d, hd, hf⟩ := (hover row hrow).1 hflag (by rw [hpay]; rfl)
        exact ⟨d, hd, (hgrew' _ hrowL).2 _ hf⟩
      | staged depth bytes =>
        refine ⟨depth, ?_, hfiles (row.1.id, depth, bytes) (mem_toLand.2 ⟨row, hrow, hflag, rfl, hpay⟩)⟩
        rw [(hover row hrow).2 (.inr (by rw [hpay]; exact nofun)), hpay]
        rfl
  · intro q' hq'
    -- a stray is the file of one row
    have hrow : ∃ row ∈ rows', row.2 = false ∧ PlacedBy row.1 q'.1 q'.2 := by
      rcases Multiset.mem_add.1 hq' with hq' | hq'
      · obtain ⟨f, hf, rfl⟩ := hq q' hq'
        obtain ⟨row, hrow, hflag, hid, hpay⟩ := mem_toLand.1 hf
        refine ⟨row, hrow, hflag, hid.symm, ?_⟩
        rw [(hover row hrow).2 (.inr (by rw [hpay]; exact nofun)), hpay]
        rfl
      · exact hp q' hq'
    obtain ⟨row, hrow, hflag, hplaced⟩ := hrow
    refine ⟨?_, ⟨row.1, mem_map.2 ⟨row, hrow, rfl⟩, hplaced.1.symm⟩, ?_⟩
    · rw [hplaced.1, ← hasLiveRecord_true, (hread row hrow).2, hflag]
      exact nofun
    intro e he hid
    obtain ⟨row', hrow', rfl⟩ := mem_map.1 he
    have : row' = row := inj_on_of_nodup_map hids hrow' hrow (hid.trans hplaced.1)
    rw [this]
    exact hplaced

/-- How a close of `es` ends: with the references of its entries, or having failed. -/
def Closed (m : Mode) (L : Multiset ℕ) (es : List BatchEntry) (r : Except Err FlushOutcome) (g : Hand) : Prop :=
  ∃ s1 l, (∀ a, r = .ok a → g = Hand.hold L s1 + (Hand.ofRefs (entryRefs es) + l) ∧ Leak m l) ∧
    ∀ e, r = .error e → g = Hand.hold L s1 + l ∧ Failed m l

theorem commitBatch_ok (hL : ∀ e ∈ es, stripeOf n e.id ∈ L) (hb : BatchOk es) :
    wp (ledger n m) (commitBatch es) (Closed m L es) (hold L s0 + 0) := by
  refine wp_andThen (wp_mono ?_ (readLive_ok rfl hL))
  rintro r g ⟨rfl, hok, herr⟩
  refine ⟨?_, fun e he => ⟨s0, 0, nofun, fun _ _ => ⟨rfl, rfl, herr e he⟩⟩⟩
  intro rows hr
  obtain ⟨hrows, hlive⟩ := hok rows hr
  have hmem : ∀ row ∈ rows, row.1 ∈ es := fun row hrow => by rw [← hrows]; exact mem_map.2 ⟨row, hrow, rfl⟩
  refine wp_andThen (wp_mono ?_ (overtake_ok rfl (fun row hrow => hL _ (hmem row hrow))
    fun row hrow => hb.depth _ (hmem row hrow)))
  rintro r1 g ⟨s1, p, hgrew, rfl, hok1, herr1⟩
  refine ⟨?_, fun e he => ⟨s1, ofStrays p + 0, nofun, fun _ _ => ⟨rfl, rfl, herr1 e he⟩⟩⟩
  intro rows' hr1
  obtain ⟨hshape, hover, hp⟩ := hok1 rows' hr1
  have hmem' : ∀ row ∈ rows', stripeOf n row.1.id ∈ L ∧ 1 ≤ row.1.occurrences := by
    intro row hrow
    obtain ⟨row0, hrow0, heq⟩ := mem_shape hshape hrow
    have hid : row0.1.id = row.1.id := congrArg (fun t => t.1.1) heq
    have hocc : row0.1.occurrences = row.1.occurrences := congrArg (fun t => t.1.2.1) heq
    rw [← hid, ← hocc]
    exact ⟨hL _ (hmem row0 hrow0), hb.pos _ (hmem row0 hrow0)⟩
  refine wp_andThen (wp_mono ?_ (landBatch_ok rfl fun f hf => ?_))
  swap
  · obtain ⟨row, hrow, -, hid, -⟩ := mem_toLand.1 hf
    rw [← hid]
    exact (hmem' row hrow).1
  rintro r2 g ⟨s2, q, hgrew', rfl, hok2, herr2⟩
  refine ⟨?_, fun e he => ⟨s2, ofStrays q + (ofStrays p + 0), nofun, fun _ _ => ⟨rfl, rfl, herr2 e he⟩⟩⟩
  intro u hr2
  obtain ⟨hfiles, hq⟩ := hok2 u hr2
  have hset := settled_batch (m := m) hL hb hrows hlive hshape hover hp hgrew hgrew' hfiles hq
  have hstray : ofStrays q + (ofStrays p + 0) = ofStrays (q + p) := by
    rw [add_zero, ofStrays_add]
  have hrefs : entryRefs (rows'.map Prod.fst) = entryRefs es := by
    refine entryRefs_shape ?_
    have := congrArg (List.map Prod.fst) hshape
    rw [← hrows]
    rw [map_map, map_map] at this ⊢
    exact this
  have hpos : ∀ e ∈ rows'.map Prod.fst, 1 ≤ e.occurrences := by
    intro e he
    obtain ⟨row, hrow, rfl⟩ := mem_map.1 he
    exact (hmem' row hrow).2
  rw [hstray]
  refine wp_mono ?_ (wp_record ?_ hpos hset ?_ ?_)
  · rintro r3 g ⟨s3, l, -, hok3, herr3⟩
    rw [hrefs] at hok3
    exact ⟨s3, l, fun a ha => ⟨(hok3 a ha).1, (hok3 a ha).2.1⟩, herr3⟩
  · intro e he
    obtain ⟨row, hrow, rfl⟩ := mem_map.1 he
    exact (hmem' row hrow).1
  · exact fun s a s' h => recordEntries_ok hpos h
  · exact fun s err hready h => recordEntries_error hpos hready h

/-- **A batch closed by its own request** adds the references of its entries. -/
theorem closeAlone_ok (c : Config) (hb : BatchOk es) : wp (ledger c.stripes m) (closeAlone c es)
      (fun r g => (∀ a, r = .ok a → ∃ l, g = ofRefs (entryRefs es) + l ∧ Leak m l) ∧ ∀ e, r = .error e → Failed m g) 0 := by
  refine wp_bind (wp_lockBatch rfl fun s => ?_)
  refine wp_bind (wp_mono ?_ (commitBatch_ok (fun e he => mem_batchStripes (mem_map.2 ⟨e, he, rfl⟩)) hb))
  rintro r g ⟨s1, l, hok, herr⟩
  cases r with
  | ok a =>
    obtain ⟨rfl, hl⟩ := hok a rfl
    refine wp_bind (wp_unlockBatch (by rw [add_views, hl.1]; rfl) ?_)
    exact ⟨fun _ _ => ⟨l, rfl, hl⟩, nofun⟩
  | error e =>
    obtain ⟨rfl, hl⟩ := herr e rfl
    exact wp_bind (wp_unlockBatch hl.1 ⟨nofun, fun _ _ => hl⟩)

end QssStorage
