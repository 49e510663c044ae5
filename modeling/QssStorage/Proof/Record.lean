import QssStorage.Proof.Balance

/-!
# What the write path records

The transactions of the write path add references to block records, insert records for
new blocks and heal degraded ones. `Recorded` says what such a transaction does, whatever
the entries it was made of, and composes.

* `Core.recorded`: the references come into the hand of whoever recorded them.
-/

namespace QssStorage

open List

variable {m : Mode} {s s' s'' : Store} {new new' : BlockId → ℕ → Prop} {refs refs' : Multiset BlockId}
variable {id b : BlockId} {e : BatchEntry} {err : Err} {es : List BatchEntry}
variable {members : List (List BatchEntry × Option Err)}

/-- The block has a record that is not degraded. -/
def Live (s : Store) (b : BlockId) : Prop := ∃ d, LiveAt s b d

theorem LiveAt.unique {d d' : ℕ} (h : LiveAt s b d) (h' : LiveAt s b d') : d = d' := by
  obtain ⟨blk, hb, -, rfl⟩ := h
  obtain ⟨blk', hb', -, rfl⟩ := h'
  cases hb.symm.trans hb'
  rfl

/-- Counting up to less than `2 ^ 64` is adding. -/
theorem incrementRefcount_iterate {rc k : ℕ} (h : rc + k < 2 ^ 64) :
    incrementRefcount^[k] rc = rc + k := by
  induction k with
  | zero => rfl
  | succ k ih =>
    rw [Function.iterate_succ_apply', ih (by omega)]
    exact Nat.mod_eq_of_lt h

/-- The state `s'` is `s` with the references `refs` counted: if `s'` fits, none of the counts
went around. A record that is new, or live again, puts its file where `new` says. -/
structure Recorded (new : BlockId → ℕ → Prop) (refs : Multiset BlockId) (s s' : Store) : Prop where
  rest : s' = { s with blocks := s'.blocks, overran := s'.overran }
  counts : ∀ b, rcOf s' b = incrementRefcount^[refs.count b] (rcOf s b)
  fits : s'.Fits → s.Fits ∧ ∀ b, rcOf s' b = rcOf s b + refs.count b
  kept : ∀ b d, LiveAt s b d → LiveAt s' b d
  placed : ∀ b d, LiveAt s' b d → LiveAt s b d ∨ (¬ Live s b ∧ new b d)
  outside : ∀ b, b ∉ refs → s'.blocks.get b = s.blocks.get b
  decodes : ∀ b ∈ refs, s.blocks.get b ≠ some .garbage
  touched : ∀ b ∈ refs, Live s' b

theorem Recorded.refl (new : BlockId → ℕ → Prop) (s : Store) : Recorded new 0 s s :=
  ⟨rfl, fun b => by simp, fun h => ⟨h, fun b => by simp⟩, fun _ _ h => h, fun _ _ h => .inl h,
    fun _ _ => rfl, by simp, by simp⟩

theorem Recorded.mono (h : Recorded new refs s s') (hnew : ∀ b d, new b d → new' b d) : Recorded new' refs s s' :=
  { h with placed := fun b d hl => (h.placed b d hl).imp_right fun hn => ⟨hn.1, hnew b d hn.2⟩ }

/-- Records that do not decode stay as they are. -/
theorem Recorded.garbage_iff (h : Recorded new refs s s') (b : BlockId) :
    s'.blocks.get b = some .garbage ↔ s.blocks.get b = some .garbage := by
  by_cases hb : b ∈ refs
  · obtain ⟨d, blk, hblk, -⟩ := h.touched b hb
    rw [hblk]
    exact ⟨nofun, fun hg => absurd hg (h.decodes b hb)⟩
  · rw [h.outside b hb]

theorem Recorded.trans (h : Recorded new refs s s') (h' : Recorded new refs' s' s'') :
    Recorded new (refs + refs') s s'' := by
  refine ⟨?_, ?_, ?_, ?_, ?_, ?_, ?_, ?_⟩
  · have h1 := h.rest
    have h2 := h'.rest
    rw [h1] at h2
    exact h2
  · intro b
    rw [h'.counts, h.counts, ← Function.iterate_add_apply, Multiset.count_add, add_comm]
  · intro hfits
    obtain ⟨hfits', h2⟩ := h'.fits hfits
    obtain ⟨hfits'', h1⟩ := h.fits hfits'
    exact ⟨hfits'', fun b => by rw [h2, h1, Multiset.count_add, add_assoc]⟩
  · exact fun b d hl => h'.kept b d (h.kept b d hl)
  · intro b d hl
    rcases h'.placed b d hl with hl | ⟨hn, hnew⟩
    · exact h.placed b d hl
    · exact .inr ⟨fun ⟨d', hd'⟩ => hn ⟨d', h.kept b d' hd'⟩, hnew⟩
  · intro b hb
    rw [Multiset.mem_add, not_or] at hb
    rw [h'.outside b hb.2, h.outside b hb.1]
  · intro b hb hg
    rcases Multiset.mem_add.1 hb with hb | hb
    · exact h.decodes b hb hg
    · exact h'.decodes b hb ((h.garbage_iff b).2 hg)
  · intro b hb
    rcases Multiset.mem_add.1 hb with hb | hb
    · obtain ⟨d, hl⟩ := h.touched b hb
      exact ⟨d, h'.kept b d hl⟩
    · exact h'.touched b hb

/-! ## One reference -/

theorem bumpBlockRc_some {s s' : Store} {blk' : Block} (h : bumpBlockRc id s = .ok (some blk', s')) :
    ∃ blk, s.blocks.get id = some (.record blk) ∧ blk.degraded = false ∧
      s' = s.counted id { blk with rc := incrementRefcount blk.rc } blk.rc := by
  unfold bumpBlockRc at h
  split at h
  · cases h
  · cases h
  rename_i blk hblk
  split at h
  · cases h
  · rename_i hdeg
    simp only [Except.ok.injEq, Prod.mk.injEq] at h
    exact ⟨blk, hblk, by simpa using hdeg, h.2.symm⟩

theorem bumpBlockRc_none {s s' : Store} (h : bumpBlockRc id s = .ok (none, s')) :
    s' = s ∧ (s.blocks.get id = none ∨ ∃ blk, s.blocks.get id = some (.record blk) ∧ blk.degraded = true) := by
  unfold bumpBlockRc at h
  split at h
  · rename_i hb; cases h; exact ⟨rfl, .inl hb⟩
  · cases h
  · rename_i blk hblk
    split at h
    · rename_i hdeg; cases h; exact ⟨rfl, .inr ⟨blk, hblk, hdeg⟩⟩
    · cases h

theorem bumpBlockRc_error {s : Store} {e : Err} (h : bumpBlockRc id s = .error e) : s.blocks.get id = some .garbage := by
  unfold bumpBlockRc at h
  split at h
  · cases h
  · assumption
  · split at h <;> cases h

theorem Strict.not_garbage {s : Store} (h : Strict s) : s.blocks.get b ≠ some .garbage := by
  intro hb
  obtain ⟨blk, hblk, -⟩ := h.blocks b _ hb
  cases hblk

/-- A live record with one more reference is written. -/
theorem recorded_put {blk : Block} {rc : ℕ} (hrc : rcOf s id = rc)
    (hblk : blk.rc = incrementRefcount rc) (hdeg : blk.degraded = false)
    (hdec : s.blocks.get id ≠ some .garbage)
    (hlive : ∀ d, LiveAt s id d → diskDepth id blk.depth = d)
    (hnew : ¬ Live s id → new id (diskDepth id blk.depth)) :
    Recorded new {id} s (s.counted id blk rc) := by
  have hget : ∀ b, (s.counted id blk rc).blocks.get b =
      if b = id then some (.record blk) else s.blocks.get b := fun b => s.blocks.get_insert id b _
  have hself : LiveAt (s.counted id blk rc) id (diskDepth id blk.depth) :=
    ⟨blk, by rw [hget, if_pos rfl], hdeg, rfl⟩
  -- the one count that moves
  have hcount : ∀ b, rcOf (s.counted id blk rc) b =
      incrementRefcount^[Multiset.count b {id}] (rcOf s b) := by
    intro b
    by_cases hb : b = id
    · subst hb
      rw [rcOf_record (by rw [hget, if_pos rfl]), hblk, hrc, Multiset.count_singleton_self]
      rfl
    · rw [Multiset.count_eq_zero_of_notMem (by simpa using hb)]
      unfold rcOf
      rw [hget, if_neg hb]
      rfl
  refine ⟨rfl, hcount, ?_, ?_, ?_, ?_, ?_, ?_⟩
  · intro hfits
    obtain ⟨hroom, hold⟩ := Bool.or_eq_false_iff.1 hfits
    refine ⟨hold, fun b => ?_⟩
    rw [hcount]
    by_cases hb : b = id
    · have hlt : rc + 1 < 2 ^ 64 := not_le.1 (of_decide_eq_false hroom)
      rw [hb, Multiset.count_singleton_self, hrc, incrementRefcount_iterate hlt]
    · rw [Multiset.count_eq_zero_of_notMem (by simpa using hb)]
      rfl
  · intro b d hl
    by_cases hb : b = id
    · subst hb; rw [← hlive d hl]; exact hself
    · obtain ⟨blk', h1, h2⟩ := hl
      exact ⟨blk', by rw [hget, if_neg hb]; exact h1, h2⟩
  · intro b d hl
    by_cases hb : b = id
    · subst hb
      rw [hl.unique hself]
      by_cases hs : Live s b
      · obtain ⟨d', hd'⟩ := hs
        rw [hlive d' hd']
        exact .inl hd'
      · exact .inr ⟨hs, hnew hs⟩
    · obtain ⟨blk', h1, h2⟩ := hl
      rw [hget, if_neg hb] at h1
      exact .inl ⟨blk', h1, h2⟩
  · intro b hb
    rw [hget, if_neg (by simpa using hb)]
  · intro b hb
    rw [Multiset.mem_singleton.1 hb]; exact hdec
  · intro b hb
    rw [Multiset.mem_singleton.1 hb]; exact ⟨_, hself⟩

theorem recorded_bump (new : BlockId → ℕ → Prop) {blk' : Block} (h : bumpBlockRc id s = .ok (some blk', s')) :
    Recorded new {id} s s' := by
  obtain ⟨blk, hblk, hdeg, rfl⟩ := bumpBlockRc_some h
  refine recorded_put (rcOf_record hblk) rfl hdeg (by rw [hblk]; exact nofun) ?_ ?_
  · rintro d ⟨blk', h1, -, rfl⟩
    rw [hblk] at h1
    cases h1
    rfl
  · exact fun hn => absurd ⟨_, blk, hblk, hdeg, rfl⟩ hn

theorem not_live_of_bump_none (h : bumpBlockRc id s = .ok (none, s')) : s' = s ∧ ¬ Live s id := by
  obtain ⟨rfl, hb⟩ := bumpBlockRc_none h
  refine ⟨rfl, ?_⟩
  rintro ⟨d, blk, hblk, hdeg, -⟩
  rcases hb with hb | ⟨blk', hb, hdeg'⟩
  · rw [hb] at hblk; cases hblk
  · rw [hb] at hblk; cases hblk; rw [hdeg] at hdeg'; cases hdeg'

theorem recorded_insert {len depth : ℕ} {blk : Block} (hn : ¬ Live s id)
    (h : insertNewBlock id len depth s = .ok (blk, s')) :
    Recorded (fun b d => b = id ∧ diskDepth b depth = d) {id} s s' := by
  unfold insertNewBlock at h
  have hlive : ∀ d, LiveAt s id d → diskDepth id depth = d := fun d hd => absurd ⟨d, hd⟩ hn
  split at h
  · rename_i hb
    simp only [Except.ok.injEq, Prod.mk.injEq] at h
    rw [← h.2]
    refine recorded_put ?_ rfl rfl (by rw [hb]; exact nofun) hlive fun _ => ⟨rfl, rfl⟩
    unfold rcOf
    rw [hb]
  · cases h
  · rename_i present hb
    simp only [Except.ok.injEq, Prod.mk.injEq] at h
    rw [← h.2]
    exact recorded_put (rcOf_record hb) rfl rfl (by rw [hb]; exact nofun) hlive
      fun _ => ⟨rfl, rfl⟩

theorem insertNewBlock_error {len depth : ℕ} {e : Err} (h : insertNewBlock id len depth s = .error e) :
    s.blocks.get id = some .garbage := by
  unfold insertNewBlock at h
  split at h
  · cases h
  · assumption
  · cases h

/-- A live record can always be bumped. -/
theorem bumpRemaining_live (new : BlockId → ℕ → Prop) (k : ℕ) (hl : Live s id) :
    ∃ s', bumpRemaining id k s = .ok s' ∧ Recorded new (Multiset.replicate k id) s s' := by
  induction k generalizing s with
  | zero => exact ⟨s, rfl, Recorded.refl _ s⟩
  | succ k ih =>
    obtain ⟨d, blk, hblk, hdeg, -⟩ := hl
    have hbump : bumpBlockRc id s = .ok (some { blk with rc := incrementRefcount blk.rc },
        s.counted id { blk with rc := incrementRefcount blk.rc } blk.rc) := by
      unfold bumpBlockRc
      simp only [hblk, hdeg]
      rfl
    have hrec := recorded_bump new hbump
    obtain ⟨s', hs', hrec'⟩ := ih (hrec.touched id (Multiset.mem_singleton_self _))
    refine ⟨s', ?_, ?_⟩
    · unfold bumpRemaining
      simp only [hbump]
      exact hs'
    · rw [Multiset.replicate_succ, ← Multiset.singleton_add]
      exact hrec.trans hrec'

/-! ## Entries, batches, groups -/

/-- Where the entry says its file is. -/
def PlacedBy (e : BatchEntry) (b : BlockId) (d : ℕ) : Prop := b = e.id ∧ e.depth.map (diskDepth b) = some d

/-- **The records of one entry** count its occurrences. -/
theorem recordEntry_ok {inserted : Bool} (hpos : 1 ≤ e.occurrences) (h : recordEntry e s = .ok (inserted, s')) :
    Recorded (PlacedBy e) (Multiset.replicate e.occurrences e.id) s s' := by
  have hrep : Multiset.replicate e.occurrences e.id = {e.id} + Multiset.replicate (e.occurrences - 1) e.id := by
    rw [Multiset.singleton_add, ← Multiset.replicate_succ]
    congr 1
    omega
  rw [hrep]
  -- the first reference, then the rest on a record that is live by then
  have hrest : ∀ {s1 : Store} {flag : Bool}, Recorded (PlacedBy e) {e.id} s s1 →
      (bumpRemaining e.id (e.occurrences - 1) s1).map (fun s => (flag, s)) = .ok (inserted, s') →
      Recorded (PlacedBy e) ({e.id} + Multiset.replicate (e.occurrences - 1) e.id) s s' := by
    intro s1 flag h₁ h₂
    obtain ⟨s2, hs2, hrec⟩ := bumpRemaining_live (PlacedBy e) (e.occurrences - 1)
      (h₁.touched _ (Multiset.mem_singleton_self _))
    rw [hs2] at h₂
    simp only [Except.map, Except.ok.injEq, Prod.mk.injEq] at h₂
    rw [← h₂.2]
    exact h₁.trans hrec
  unfold recordEntry at h
  split at h
  · cases h
  · rename_i hb
    exact hrest (recorded_bump _ hb) h
  rename_i hb
  obtain ⟨rfl, hn⟩ := not_live_of_bump_none hb
  split at h
  · cases h
  rename_i depth hd
  split at h
  · cases h
  · rename_i hi
    refine hrest ((recorded_insert hn hi).mono ?_) h
    rintro b d ⟨rfl, rfl⟩
    exact ⟨rfl, by rw [hd]; rfl⟩

theorem recordEntry_error (h : recordEntry e s = .error err) :
    s.blocks.get e.id = some .garbage ∨ (¬ Live s e.id ∧ e.depth = none) := by
  -- bumping a record that is live does not fail
  have hrest : ∀ {s1 : Store} {flag : Bool}, Live s1 e.id →
      (bumpRemaining e.id (e.occurrences - 1) s1).map (fun s => (flag, s)) ≠ .error err := by
    intro s1 flag h₁ h₂
    obtain ⟨s2, hs2, -⟩ := bumpRemaining_live (fun _ _ => True) (e.occurrences - 1) h₁
    rw [hs2] at h₂
    cases h₂
  unfold recordEntry at h
  split at h
  · rename_i hb; exact .inl (bumpBlockRc_error hb)
  · rename_i hb
    exact absurd h (hrest ((recorded_bump (fun _ _ => True) hb).touched _ (Multiset.mem_singleton_self _)))
  rename_i hb
  obtain ⟨rfl, hn⟩ := not_live_of_bump_none hb
  split at h
  · rename_i hd; exact .inr ⟨hn, hd⟩
  · split at h
    · rename_i hi; exact .inl (insertNewBlock_error hi)
    · rename_i hi
      exact absurd h (hrest ((recorded_insert hn hi).touched _ (Multiset.mem_singleton_self _)))

theorem entryRefs_cons (e : BatchEntry) (es : List BatchEntry) :
    entryRefs (e :: es) = Multiset.replicate e.occurrences e.id + entryRefs es := by
  unfold entryRefs
  rw [map_cons, sum_cons]

theorem mem_entryRefs (hpos : ∀ e ∈ es, 1 ≤ e.occurrences) : b ∈ entryRefs es ↔ ∃ e ∈ es, e.id = b := by
  induction es with
  | nil => simp [entryRefs]
  | cons e es ih =>
    have h1 := hpos e mem_cons_self
    rw [entryRefs_cons, Multiset.mem_add, Multiset.mem_replicate, ih fun e he => hpos e (mem_cons_of_mem _ he)]
    simp only [mem_cons, exists_eq_or_imp]
    constructor
    · rintro (⟨-, rfl⟩ | h)
      · exact .inl rfl
      · exact .inr h
    · rintro (rfl | h)
      · exact .inl ⟨by omega, rfl⟩
      · exact .inr h

/-- **The records of a batch** count the occurrences of its entries. -/
theorem recordEntries_ok {o o' : FlushOutcome} (hpos : ∀ e ∈ es, 1 ≤ e.occurrences)
    (h : recordEntries es o s = .ok (o', s')) :
    Recorded (fun b d => ∃ e ∈ es, PlacedBy e b d) (entryRefs es) s s' := by
  induction es generalizing s o with
  | nil =>
    simp only [recordEntries, Except.ok.injEq, Prod.mk.injEq] at h
    rw [h.2]
    exact Recorded.refl _ _
  | cons e es ih =>
    rw [entryRefs_cons]
    -- one entry, then the others
    have hstep : ∀ {s1 : Store} {b : Bool} {o : FlushOutcome}, recordEntry e s = .ok (b, s1) →
        recordEntries es o s1 = .ok (o', s') →
        Recorded (fun b d => ∃ e' ∈ e :: es, PlacedBy e' b d) (Multiset.replicate e.occurrences e.id + entryRefs es) s s' := by
      intro s1 b o h₁ h₂
      refine ((recordEntry_ok (hpos e mem_cons_self) h₁).mono ?_).trans
        ((ih (fun e he => hpos e (mem_cons_of_mem _ he)) h₂).mono ?_)
      · exact fun b d hp => ⟨e, mem_cons_self, hp⟩
      · rintro b d ⟨e', he', hp⟩
        exact ⟨e', mem_cons_of_mem _ he', hp⟩
    unfold recordEntries at h
    split at h
    · cases h
    · rename_i hr; exact hstep hr h
    · rename_i hr; exact hstep hr h

/-- The entry can be recorded: it has a live record, or a place. -/
def Ready (s : Store) (e : BatchEntry) : Prop := Live s e.id ∨ e.depth.isSome

theorem Ready.recorded (h : Ready s e) (hr : Recorded new refs s s') : Ready s' e :=
  h.imp_left fun ⟨d, hd⟩ => ⟨d, hr.kept _ d hd⟩

/-- **What can fail**, once every entry is ready, is a record that does not decode. -/
theorem recordEntries_error {o : FlushOutcome} (hpos : ∀ e ∈ es, 1 ≤ e.occurrences) (hready : ∀ e ∈ es, Ready s e)
    (h : recordEntries es o s = .error err) :
    ∃ e ∈ es, s.blocks.get e.id = some .garbage := by
  induction es generalizing s o with
  | nil => cases h
  | cons e es ih =>
    have hstep : ∀ {s1 : Store} {b : Bool} {o : FlushOutcome}, recordEntry e s = .ok (b, s1) →
        recordEntries es o s1 = .error err → ∃ e' ∈ e :: es, s.blocks.get e'.id = some .garbage := by
      intro s1 b o h₁ h₂
      have hrec := recordEntry_ok (hpos e mem_cons_self) h₁
      obtain ⟨e', he', hg⟩ := ih (fun e he => hpos e (mem_cons_of_mem _ he))
        (fun e he => (hready e (mem_cons_of_mem _ he)).recorded hrec) h₂
      exact ⟨e', mem_cons_of_mem _ he', (hrec.garbage_iff _).1 hg⟩
    unfold recordEntries at h
    split at h
    · rename_i hr
      refine ⟨e, mem_cons_self, ?_⟩
      rcases recordEntry_error hr with hg | ⟨hn, hd⟩
      · exact hg
      · rcases hready e mem_cons_self with hl | hd'
        · exact absurd hl hn
        · rw [hd] at hd'; cases hd'
    · rename_i hr; exact hstep hr h
    · rename_i hr; exact hstep hr h

/-- The entries of the members of a group that were not refused. -/
def accepted (members : List (List BatchEntry × Option Err)) : List BatchEntry :=
  (members.map fun member => if member.2.isNone then member.1 else []).flatten

theorem entryRefs_append (es es' : List BatchEntry) : entryRefs (es ++ es') = entryRefs es + entryRefs es' := by
  unfold entryRefs
  rw [map_append, sum_append]

/-- **The records of a group** count the occurrences of every member that was not refused. -/
theorem recordGroup_ok {outcomes : List FlushOutcome} (hpos : ∀ e ∈ accepted members, 1 ≤ e.occurrences)
    (h : recordGroup members s = .ok (outcomes, s')) :
    outcomes.length = members.length ∧
      Recorded (fun b d => ∃ e ∈ accepted members, PlacedBy e b d) (entryRefs (accepted members)) s s' := by
  induction members generalizing s outcomes with
  | nil =>
    simp only [recordGroup, Except.ok.injEq, Prod.mk.injEq] at h
    rw [← h.1, ← h.2]
    exact ⟨rfl, Recorded.refl _ _⟩
  | cons member members ih =>
    -- the outcomes of the rest, with this member's in front
    have hrest : ∀ {s1 : Store} {o : FlushOutcome},
        (recordGroup members s1).map (fun r => (o :: r.1, r.2)) = .ok (outcomes, s') →
        ∃ os, recordGroup members s1 = .ok (os, s') ∧ outcomes = o :: os := by
      intro s1 o h₁
      cases hr : recordGroup members s1 with
      | error e => rw [hr] at h₁; cases h₁
      | ok r => rw [hr] at h₁; cases h₁; exact ⟨r.1, rfl, rfl⟩
    match member with
    | (es, some e) =>
      obtain ⟨os, hos, rfl⟩ := hrest h
      have hacc : accepted ((es, some e) :: members) = accepted members := rfl
      rw [hacc] at hpos ⊢
      obtain ⟨hlen, hrec⟩ := ih hpos hos
      exact ⟨by rw [length_cons, length_cons, hlen], hrec⟩
    | (es, none) =>
      have hacc : accepted ((es, none) :: members) = es ++ accepted members := rfl
      rw [hacc] at hpos ⊢
      unfold recordGroup at h
      split at h
      · cases h
      rename_i o s1 hr
      obtain ⟨os, hos, rfl⟩ := hrest h
      obtain ⟨hlen, hrec⟩ := ih (fun e he => hpos e (mem_append_right _ he)) hos
      refine ⟨by rw [length_cons, length_cons, hlen], ?_⟩
      rw [entryRefs_append]
      refine ((recordEntries_ok (fun e he => hpos e (mem_append_left _ he)) hr).mono ?_).trans (hrec.mono ?_)
      · rintro b d ⟨e, he, hp⟩; exact ⟨e, mem_append_left _ he, hp⟩
      · rintro b d ⟨e, he, hp⟩; exact ⟨e, mem_append_right _ he, hp⟩

theorem recordGroup_error (hpos : ∀ e ∈ accepted members, 1 ≤ e.occurrences)
    (hready : ∀ e ∈ accepted members, Ready s e) (h : recordGroup members s = .error err) : ∃ e ∈ accepted members, s.blocks.get e.id = some .garbage := by
  induction members generalizing s with
  | nil => cases h
  | cons member members ih =>
    have hrest : ∀ {s1 : Store} {o : FlushOutcome}, (recordGroup members s1).map (fun r => (o :: r.1, r.2)) = .error err →
        recordGroup members s1 = .error err := by
      intro s1 o h₁
      cases hr : recordGroup members s1 with
      | error e => rw [hr] at h₁; cases h₁; rfl
      | ok r => rw [hr] at h₁; cases h₁
    match member with
    | (es, some e) => exact ih hpos hready (hrest h)
    | (es, none) =>
      have hacc : accepted ((es, none) :: members) = es ++ accepted members := rfl
      rw [hacc] at hpos hready ⊢
      have hpos' : ∀ e ∈ es, 1 ≤ e.occurrences := fun e he => hpos e (mem_append_left _ he)
      unfold recordGroup at h
      split at h
      · rename_i hr
        obtain ⟨e, he, hg⟩ := recordEntries_error hpos' (fun e he => hready e (mem_append_left _ he)) hr
        exact ⟨e, mem_append_left _ he, hg⟩
      rename_i hr
      have hrec := recordEntries_ok hpos' hr
      obtain ⟨e, he, hg⟩ := ih (fun e he => hpos e (mem_append_right _ he))
        (fun e he => (hready e (mem_append_right _ he)).recorded hrec) (hrest h)
      exact ⟨e, mem_append_right _ he, (hrec.garbage_iff _).1 hg⟩

/-! ## On the ledger -/

/-- **The references counted come into hand.** Strays that are live now are strays no more. -/
theorem Core.recorded {g g' : Hand} (h : Core m s g) (hr : Recorded new refs s s') (hfits : s'.Fits)
    (hnew : ∀ b d, ¬ Live s b → new b d → FileAt s b d) (hrefs : g'.refs = refs + g.refs)
    (hstray : ∀ p ∈ g.strays, p ∈ g'.strays ∨ LiveAt s' p.1 p.2)
    (ht : g'.tickets = g.tickets) (hd : g'.duties = g.duties) : Core m s' g' := by
  have hrest := hr.rest
  have hfiles : s'.files = s.files := by rw [hrest]
  have hnamed : named m.parts s' = named m.parts s := by rw [hrest]; rfl
  refine h.rebuild (by rw [hrest]) (by rw [hrest]) (by rw [hrest]) ht hd ?_ ?_ ?_ ?_
  · intro b
    rw [(hr.fits hfits).2, h.counts, hnamed, hrefs]
    simp only [Multiset.count_add]
    omega
  · intro b d hl
    unfold FileAt
    rw [hfiles]
    rcases hr.placed b d hl with hl | ⟨hn, hb⟩
    · exact h.placed b d hl
    · exact hnew b d hn hb
  · intro b d hf
    unfold FileAt at hf
    rw [hfiles] at hf
    rcases h.strays b d hf with hl | hs
    · exact .inl (hr.kept b d hl)
    · exact (hstray _ hs).symm
  · intro hm
    have hS := h.strict hm
    refine ⟨?_, ?_, ?_⟩
    · intro b cell hb
      by_cases hmem : b ∈ refs
      · -- touched: live, and counted at least once
        obtain ⟨d, blk, hblk, hdeg, -⟩ := hr.touched b hmem
        cases hblk.symm.trans hb
        have hc := (hr.fits hfits).2 b
        rw [rcOf_record hblk] at hc
        have hpos : 1 ≤ refs.count b := Multiset.one_le_count_iff_mem.2 hmem
        exact ⟨blk, rfl, hdeg, by omega⟩
      · rw [hr.outside b hmem] at hb
        exact hS.blocks b cell hb
    · rw [hrest]; exact hS.objects
    · rw [hrest]; exact hS.usage

end QssStorage
