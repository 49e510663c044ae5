import QssStorage.Spec.BlockDisk

/-!
# Which directory entries of a landed block are on stable storage

At `fsync` durability `write_block` and `land_batch` fsync the fanout directories of a block
up to the first that has been fsynced since the store was opened. That one is not fsynced again.
An fsync covers the entries that are in the directory when it runs, so a fanout
directory made after its parent's last fsync has an entry that nothing covers: the blocks
root is fsynced when the store is opened, so every new first-level directory is one.

* `covered_iff`: **a block is covered if and only if every directory on its path that was made
  under a known-durable one had been covered before.**
-/

namespace QssStorage.BlockDisk

open List

variable {α : Type} {w w' : World} {p d dir q x : Path} {durable ds : List Path} {id : BlockId} {depth : ℕ}
  {staged : List StagedBlock}

variable {faults : ℕ → Bool} {durability : Durability}

/-! ## Calls that succeed -/

theorem bind_ok {α β : Type} {x : Io α} {f : α → Io β} {b : β} :
    Io.bind x f w = (some b, w') ↔ ∃ a w1, x w = (some a, w1) ∧ f a w1 = (some b, w') := by
  unfold Io.bind
  rcases x w with ⟨_ | a, w1⟩
  · simp
  · simp

theorem orElse_ok {x cleanup : Io Unit} : Io.orElse x cleanup w = (some (), w') ↔ x w = (some (), w') := by
  unfold Io.orElse
  rcases x w with ⟨_ | a, w1⟩
  · simp
  · simp

/-- A call that succeeds changes the tree and nothing else. -/
theorem call_ok {f : DirTree Name → Option (DirTree Name)}
    (h : call faults f w = (some (), w')) : f w.tree = some w'.tree ∧ w'.durable = w.durable := by
  unfold call at h
  dsimp only at h
  split at h
  · cases h
  split at h
  next tree ht =>
    cases h
    exact ⟨ht, rfl⟩
  next => cases h

theorem writeNewFile_ok (h : writeNewFile faults p w = (some (), w')) : w'.tree = w.tree.add p ∧ w'.durable = w.durable := by
  obtain ⟨ht, hdur⟩ := call_ok h
  unfold DirTree.create at ht
  split_ifs at ht
  exact ⟨(Option.some.inj ht).symm, hdur⟩

theorem fsyncFile_ok (h : fsyncFile faults p w = (some (), w')) : w'.tree = w.tree ∧ w'.durable = w.durable := by
  obtain ⟨ht, hdur⟩ := call_ok h
  split_ifs at ht
  exact ⟨(Option.some.inj ht).symm, hdur⟩

theorem fsyncDir_ok (h : fsyncDir faults d w = (some (), w')) :
    w'.tree = w.tree.fsyncDir d ∧ w'.durable = w.durable ∧ (d = [] ∨ w.tree.present d = true) := by
  obtain ⟨ht, hdur⟩ := call_ok h
  split_ifs at ht with hd
  exact ⟨(Option.some.inj ht).symm, hdur, by simpa using hd⟩

theorem rename_ok {a b : Path} (h : rename faults a b w = (some (), w')) :
    w'.tree = (w.tree.remove a).add b ∧ w'.durable = w.durable := by
  obtain ⟨ht, hdur⟩ := call_ok h
  unfold DirTree.rename at ht
  split_ifs at ht
  exact ⟨(Option.some.inj ht).symm, hdur⟩

/-- What `mkdir` of each of some directories does. -/
theorem mkdirs_ok {qs : List Path} : ∀ {w w' : World},
    Io.each (fun q => call faults fun t => some (t.mkdir q)) qs w = (some (), w') →
    w'.durable = w.durable ∧ ∀ q, (w'.tree.present q = true ↔ w.tree.present q = true ∨ q ∈ qs) ∧
      (w'.tree.synced q = true ↔ w.tree.synced q = true ∧ (q ∈ qs → w.tree.present q = true)) := by
  induction qs with
  | nil => intro w w' h; cases h; simp
  | cons x qs ih =>
    intro w w' h
    obtain ⟨_, w1, hx, hrest⟩ := bind_ok.1 h
    obtain ⟨htree, hdur⟩ := call_ok hx
    obtain ⟨hdur', hq⟩ := ih hrest
    refine ⟨hdur'.trans hdur, fun q => ?_⟩
    have hpres := (hq q).1
    have hsync := (hq q).2
    rw [← Option.some.inj htree] at hpres hsync
    rw [DirTree.present_mkdir] at hpres hsync
    rw [DirTree.synced_mkdir] at hsync
    simp only [mem_cons]
    refine ⟨hpres.trans (or_assoc.trans or_left_comm), hsync.trans ⟨?_, ?_⟩⟩
    · rintro ⟨⟨hs, hx⟩, hqs⟩
      exact ⟨hs, fun h => h.elim hx fun hq => (hqs hq).elim hx fun hp => hp⟩
    · rintro ⟨hs, hp⟩
      exact ⟨⟨hs, fun h => hp (.inl h)⟩, fun h => .inr (hp (.inr h))⟩

theorem createDirAll_ok
    (h : createDirAll faults dir w = (some (), w')) :
    w'.durable = w.durable ∧ ∀ q, q ≠ [] → q <+: dir → w'.tree.present q = true ∧
      (w'.tree.synced q = true ↔ w.tree.present q = true ∧ w.tree.synced q = true) := by
  obtain ⟨hdur, hq⟩ := mkdirs_ok h
  refine ⟨hdur, fun q hne hpre => ?_⟩
  have hmem := DirTree.mem_chainDown.2 ⟨hne, hpre⟩
  have hpres := (hq q).1
  have hsync := (hq q).2
  exact ⟨hpres.2 (.inr hmem), hsync.trans ⟨fun h => ⟨h.2 hmem, h.1⟩, fun h => ⟨h.2, fun _ => h.1⟩⟩⟩

/-- What fsyncs of some directories cover: the entries in them. -/
theorem fsyncs_ok : ∀ {w w' : World}, Io.each (fsyncDir faults) ds w = (some (), w') →
    w'.durable = w.durable ∧ (∀ q, w'.tree.present q = w.tree.present q) ∧ (∀ d ∈ ds, d = [] ∨ w.tree.present d = true) ∧
      ∀ q, w'.tree.synced q = true ↔ (q ≠ [] ∧ q.dropLast ∈ ds ∧ w.tree.present q = true) ∨ w.tree.synced q = true := by
  induction ds with
  | nil => intro w w' h; cases h; simp
  | cons d ds ih =>
    intro w w' h
    obtain ⟨_, w1, hd, hrest⟩ := bind_ok.1 h
    obtain ⟨htree, hdur, hd'⟩ := fsyncDir_ok hd
    obtain ⟨hdur', hpres, hthere, hsync⟩ := ih hrest
    have hsame : ∀ q, w1.tree.present q = w.tree.present q := fun q => by rw [htree]; rfl
    refine ⟨hdur'.trans hdur, fun q => (hpres q).trans (hsame q), ?_, fun q => ?_⟩
    · intro e he
      rcases mem_cons.1 he with rfl | he'
      · exact hd'
      · rw [← hsame e]
        exact hthere e he'
    rw [hsync q, hsame q, htree, DirTree.synced_fsyncDir]
    rw [mem_cons]
    constructor
    · rintro (⟨hne, hin, hp⟩ | ⟨hne, hin, hp⟩ | hs)
      · exact .inl ⟨hne, .inr hin, hp⟩
      · exact .inl ⟨hne, .inl hin, hp⟩
      · exact .inr hs
    · rintro (⟨hne, hin | hin, hp⟩ | hs)
      · exact .inr (.inl ⟨hne, hin, hp⟩)
      · exact .inl ⟨hne, hin, hp⟩
      · exact .inr (.inr hs)

/-! ## What is fsynced -/

/-- The directories known to be durable, with everything above them. -/
structure Known (durable : List Path) : Prop where
  root : [] ∈ durable
  above : ∀ {x y}, x ∈ durable → y <+: x → y ∈ durable

theorem chainUp_nil : chainUp [] = [[]] := rfl

theorem chainUp_concat (p : Path) (n : Name) : chainUp (p ++ [n]) = (p ++ [n]) :: chainUp p := by
  simp [chainUp, inits_append]

theorem mem_chainToSync (hk : Known durable) : x ∈ chainToSync durable dir ↔ x <+: dir ∧ x ∉ durable := by
  induction dir using List.reverseRecOn with
  | nil =>
    have hstop : chainToSync durable [] = [] := by
      simp [chainToSync, chainUp_nil, hk.root]
    rw [hstop, prefix_nil]
    constructor
    · exact fun h => absurd h not_mem_nil
    · rintro ⟨rfl, h⟩
      exact absurd hk.root h
  | append_singleton p n ih =>
    unfold chainToSync at ih ⊢
    rw [chainUp_concat, takeWhile_cons, prefix_concat_iff]
    by_cases hin : p ++ [n] ∈ durable
    · simp only [hin, not_true, decide_false, Bool.false_eq_true, if_false]
      constructor
      · exact fun h => absurd h (not_mem_nil)
      · rintro ⟨rfl | hx, hnot⟩
        · exact absurd hin hnot
        · exact absurd (hk.above hin (hx.trans (prefix_append _ _))) hnot
    simp only [hin, not_false_eq_true, decide_true, if_true, mem_cons, ih]
    constructor
    · rintro (rfl | ⟨hx, hnot⟩)
      · exact ⟨.inl rfl, hin⟩
      · exact ⟨.inr hx, hnot⟩
    · rintro ⟨rfl | hx, hnot⟩
      · exact .inl rfl
      · exact .inr ⟨hx, hnot⟩

/-- What climbing from `p` adds to directories `old` planned before and those `new` just
planned below `p`. -/
theorem mem_climb {durable old : List Path} (hroot : [] ∈ durable)
    (hk : ∀ {x y : Path}, x ∈ old ∨ x ∈ durable → y <+: x → y ∈ old ∨ y ∈ durable) :
    ∀ {new : List Path}, (∀ y ∈ new, p.length < y.length) → (x ∈ climb durable (old ++ new) (chainUp p) ↔
        x ∈ old ++ new ∨ (x <+: p ∧ x ∉ durable)) := by
  induction p using List.reverseRecOn with
  | nil =>
    intro new _
    rw [chainUp_nil, climb, if_pos hroot, prefix_nil]
    constructor
    · exact .inl
    · rintro (h | ⟨rfl, h⟩)
      · exact h
      · exact absurd hroot h
  | append_singleton p n ih =>
    intro new hnew
    rw [chainUp_concat, climb, prefix_concat_iff]
    by_cases hdur : p ++ [n] ∈ durable
    · rw [if_pos hdur]
      constructor
      · exact .inl
      rintro (h | ⟨rfl | hx, hnot⟩)
      · exact h
      · exact absurd hdur hnot
      · rcases hk (.inr hdur) (hx.trans (prefix_append p [n])) with hold | hd
        · exact mem_append_left _ hold
        · exact absurd hd hnot
    rw [if_neg hdur]
    by_cases hin : p ++ [n] ∈ old ++ new
    · -- planned for an earlier landing directory, with everything above it
      have hold : p ++ [n] ∈ old := by
        rcases mem_append.1 hin with h | h
        · exact h
        · exact absurd (hnew _ h) (lt_irrefl _)
      rw [if_pos hin]
      constructor
      · exact .inl
      rintro (h | ⟨rfl | hx, hnot⟩)
      · exact h
      · exact hin
      · rcases hk (.inl hold) (hx.trans (prefix_append p [n])) with hold' | hd
        · exact mem_append_left _ hold'
        · exact absurd hd hnot
    · rw [if_neg hin, append_assoc]
      have hnew' : ∀ y ∈ new ++ [p ++ [n]], p.length < y.length := by
        intro y hy
        rcases mem_append.1 hy with h | h
        · have := hnew y h
          simp only [length_append, length_singleton] at this
          omega
        · rw [mem_singleton.1 h]
          simp
      rw [ih hnew']
      simp only [mem_append, mem_singleton]
      constructor
      · rintro ((h | h | rfl) | ⟨hx, hnot⟩)
        · exact .inl (.inl h)
        · exact .inl (.inr h)
        · exact .inr ⟨.inl rfl, hdur⟩
        · exact .inr ⟨.inr hx, hnot⟩
      · rintro ((h | h) | ⟨rfl | hx, hnot⟩)
        · exact .inl (.inl h)
        · exact .inl (.inr (.inl h))
        · exact .inl (.inr (.inr rfl))
        · exact .inr ⟨hx, hnot⟩

/-- The directories planned and those known, with everything above them. -/
def Closed (durable chain : List Path) : Prop :=
  ∀ {x y : Path}, x ∈ chain ∨ x ∈ durable → y <+: x → y ∈ chain ∨ y ∈ durable

theorem mem_planLanding {durable chain : List Path} (hroot : [] ∈ durable)
    (hc : Closed durable chain) (hdir : dir ≠ []) :
    x ∈ planLanding durable chain dir ↔ x ∈ chain ∨ x = dir ∨ (x <+: dir ∧ x ∉ durable) := by
  obtain ⟨p, n, rfl⟩ : ∃ p n, dir = p ++ [n] :=
    ⟨dir.dropLast, dir.getLast hdir, (dropLast_append_getLast hdir).symm⟩
  unfold planLanding
  rw [chainUp_concat, tail_cons, prefix_concat_iff]
  by_cases hin : p ++ [n] ∈ chain
  · rw [if_pos hin]
    have hmem : x ∈ climb durable (chain ++ []) (chainUp p) ↔
        x ∈ chain ++ [] ∨ (x <+: p ∧ x ∉ durable) := mem_climb hroot hc (by simp)
    rw [append_nil] at hmem
    rw [hmem]
    constructor
    · rintro (h | ⟨hx, hnot⟩)
      · exact .inl h
      · exact .inr (.inr ⟨.inr hx, hnot⟩)
    rintro (h | rfl | ⟨rfl | hx, hnot⟩)
    · exact .inl h
    · exact .inl hin
    · exact .inl hin
    · exact .inr ⟨hx, hnot⟩
  · rw [if_neg hin, mem_climb hroot hc (by simp)]
    simp only [mem_append, mem_singleton]
    constructor
    · rintro ((h | rfl) | ⟨hx, hnot⟩)
      · exact .inl h
      · exact .inr (.inl rfl)
      · exact .inr (.inr ⟨.inr hx, hnot⟩)
    · rintro (h | rfl | ⟨rfl | hx, hnot⟩)
      · exact .inl (.inl h)
      · exact .inl (.inr rfl)
      · exact .inl (.inr rfl)
      · exact .inr ⟨hx, hnot⟩

theorem closed_planLanding {durable chain : List Path} (hk : Known durable)
    (hc : Closed durable chain) (hdir : dir ≠ []) :
    Closed durable (planLanding durable chain dir) := by
  intro x y hx hy
  by_cases hyd : y ∈ durable
  · exact .inr hyd
  left
  rw [mem_planLanding hk.root hc hdir] at hx ⊢
  rcases hx with (h | rfl | ⟨hx, -⟩) | h
  · rcases hc (.inl h) hy with hin | hd
    · exact .inl hin
    · exact absurd hd hyd
  · exact .inr (.inr ⟨hy, hyd⟩)
  · exact .inr (.inr ⟨hy.trans hx, hyd⟩)
  · exact absurd (hk.above h hy) hyd

theorem fanoutDir_ne_nil (id : BlockId) (depth : ℕ) : fanoutDir id depth ≠ [] := by
  have hlen : 1 ≤ (fanoutDir id depth).length := by
    have hpos := id.len_pos
    have hsize := id.size
    have hwidth : id.len ≤ maxBlockIdSize := by
      rcases id.width with h | h
      · rw [h]; decide
      · rw [h]
    simp only [fanoutDir, BlockId.asSlice, diskDepth, length_map, length_take]
    omega
  intro h
  rw [h] at hlen
  exact absurd hlen (by decide)

/-- **What `land_batch` fsyncs**: the landing directories, and every directory above them that
is not known to be durable. -/
theorem mem_landingChain (hk : Known durable) : x ∈ landingChain durable staged ↔
      ∃ b ∈ staged, x = b.fanoutDir ∨ (x <+: b.fanoutDir ∧ x ∉ durable) := by
  have hfold : ∀ (l : List StagedBlock) (chain : List Path), Closed durable chain →
      (x ∈ l.foldl (fun chain b => planLanding durable chain b.fanoutDir) chain ↔
        x ∈ chain ∨ ∃ b ∈ l, x = b.fanoutDir ∨ (x <+: b.fanoutDir ∧ x ∉ durable)) := by
    intro l
    induction l with
    | nil => intro chain _; simp
    | cons b l ih =>
      intro chain hc
      have hdir : b.fanoutDir ≠ [] := fanoutDir_ne_nil b.id b.depth
      rw [foldl_cons, ih _ (closed_planLanding hk hc hdir), mem_planLanding hk.root hc hdir]
      simp only [mem_cons, exists_eq_or_imp, or_assoc]
  have hempty : Closed durable [] := by
    rintro x y (h | h) hy
    · exact absurd h not_mem_nil
    · exact .inr (hk.above h hy)
  unfold landingChain
  rw [mem_insertionSort, hfold staged [] hempty]
  simp

/-! ## What holds whenever a request is served -/

/-- A directory of the writer's own: fanout directories, or the temp directory. -/
def OwnDir (d : Path) : Prop := d = [.tmp] ∨ ∀ n ∈ d, ∃ b, n = .fanout b

/-- The directories known to be durable are the writer's own, and they are there. -/
structure Inv (w : World) : Prop where
  known : Known w.durable
  own : ∀ d ∈ w.durable, OwnDir d
  there : ∀ d ∈ w.durable, d ≠ [] → w.tree.present d = true

theorem ownDir_fanout (h : d <+: fanoutDir id depth) : OwnDir d := by
  refine .inr fun n hn => ?_
  obtain ⟨b, -, rfl⟩ := mem_map.1 (h.subset hn)
  exact ⟨b, rfl⟩

/-- A call that removes nothing of the writer's own directories keeps the invariant. -/
theorem Inv.call {f : DirTree Name → Option (DirTree Name)} (h : Inv w)
    (hf : ∀ t t' d, f t = some t' → OwnDir d → d ≠ [] → t.present d = true → t'.present d = true) :
    Inv (call faults f w).2 := by
  unfold BlockDisk.call
  dsimp only
  split
  · exact ⟨h.known, h.own, h.there⟩
  · split
    next tree ht =>
      exact ⟨h.known, h.own, fun d hd hne => hf _ _ d ht (h.own d hd) hne (h.there d hd hne)⟩
    next => exact ⟨h.known, h.own, h.there⟩

theorem Inv.bind {α β : Type} {x : Io α} {f : α → Io β} (hx : Inv (x w).2)
    (hf : ∀ a w', Inv w' → Inv (f a w').2) : Inv (Io.bind x f w).2 := by
  unfold Io.bind
  rcases hr : x w with ⟨_ | a, w'⟩
  · rwa [hr] at hx
  · rw [hr] at hx
    exact hf a w' hx

theorem Inv.orElse {x cleanup : Io Unit} (hx : Inv (x w).2)
    (hc : ∀ w', Inv w' → Inv (cleanup w').2) : Inv (Io.orElse x cleanup w).2 := by
  unfold Io.orElse
  rcases hr : x w with ⟨_ | a, w'⟩
  · rw [hr] at hx
    exact hc w' hx
  · rwa [hr] at hx

theorem Inv.each {f : α → Io Unit} {as : List α}
    (hf : ∀ a w, Inv w → Inv (f a w).2) : ∀ {w : World}, Inv w → Inv (Io.each f as w).2 := by
  induction as with
  | nil => exact fun h => h
  | cons a as ih =>
    intro w h
    exact Inv.bind (hf a w h) fun _ w' hw' => ih hw'

/-- Files are not among the writer's own directories. -/
theorem ne_of_ownDir (hd : OwnDir d) (hq : ¬ OwnDir q) : d ≠ q := by
  rintro rfl
  exact hq hd

theorem not_ownDir_temp (b : StagedBlock) : ¬ OwnDir b.tempPath := by
  rintro (h | h)
  · cases h
  · obtain ⟨x, hx⟩ := h .tmp mem_cons_self
    cases hx

theorem not_ownDir_block (id : BlockId) (depth : ℕ) : ¬ OwnDir (blockDiskPath id depth) := by
  have hmem : Name.block id ∈ blockDiskPath id depth := by simp [blockDiskPath]
  rintro (h | h)
  · rw [h] at hmem
    simp at hmem
  · obtain ⟨x, hx⟩ := h _ hmem
    cases hx

theorem Inv.createDirAll (h : Inv w) : Inv (createDirAll faults dir w).2 := by
  refine Inv.each (fun q w h => h.call ?_) h
  intro t t' d ht _ _ hp
  rw [← Option.some.inj ht]
  exact DirTree.present_mkdir.2 (.inr hp)

theorem Inv.fsyncDir (h : Inv w) : Inv (fsyncDir faults d w).2 := by
  refine h.call ?_
  intro t t' d ht _ _ hp
  split_ifs at ht
  rw [← Option.some.inj ht]
  exact hp

theorem Inv.fsyncFile (h : Inv w) : Inv (fsyncFile faults p w).2 := by
  refine h.call ?_
  intro t t' d ht _ _ hp
  split_ifs at ht
  rwa [← Option.some.inj ht]

theorem Inv.writeNewFile (h : Inv w) : Inv (writeNewFile faults p w).2 := by
  refine h.call ?_
  intro t t' d ht _ _ hp
  unfold DirTree.create at ht
  split_ifs at ht
  rw [← Option.some.inj ht]
  exact DirTree.present_add.2 (.inr hp)

theorem Inv.removeFile (hp : ¬ OwnDir p) (h : Inv w) : Inv (removeFile faults p w).2 := by
  refine h.call ?_
  intro t t' d ht hown _ hd
  rw [← Option.some.inj ht]
  exact DirTree.present_remove.2 ⟨ne_of_ownDir hown hp, hd⟩

theorem Inv.rename (hp : ¬ OwnDir p) (h : Inv w) : Inv (rename faults p q w).2 := by
  refine h.call ?_
  intro t t' d ht hown _ hd
  unfold DirTree.rename at ht
  split_ifs at ht
  rw [← Option.some.inj ht]
  exact DirTree.present_add.2 (.inr (DirTree.present_remove.2 ⟨ne_of_ownDir hown hp, hd⟩))

theorem Inv.nextNonce (h : Inv w) : Inv (nextNonce w).2 :=
  ⟨h.known, h.own, h.there⟩

/-- Fsyncing some directories, and taking them for durable after that. -/
theorem Inv.syncThenMark (h : Inv w) (hk : Known (ds ++ w.durable))
    (hown : ∀ d ∈ ds, OwnDir d) :
    Inv (Io.bind (Io.each (BlockDisk.fsyncDir faults) ds) (fun _ => markDurable ds) w).2 := by
  have hsync : Inv (Io.each (BlockDisk.fsyncDir faults) ds w).2 :=
    Inv.each (fun d w h => h.fsyncDir) h
  unfold Io.bind
  rcases hr : Io.each (BlockDisk.fsyncDir faults) ds w with ⟨_ | u, w'⟩
  · rwa [hr] at hsync
  obtain ⟨hdur, hpres, hthere, -⟩ := fsyncs_ok hr
  refine ⟨?_, ?_, ?_⟩
  · simpa [markDurable, hdur] using hk
  · intro d hd
    simp only [markDurable, hdur] at hd
    rcases mem_append.1 hd with hd' | hd'
    · exact hown d hd'
    · exact h.own d hd'
  intro d hd hne
  simp only [markDurable, hdur] at hd ⊢
  rw [hpres]
  rcases mem_append.1 hd with hd' | hd'
  · exact (hthere d hd').resolve_left hne
  · exact h.there d hd' hne

/-- Adding directories with everything above them that is not known yet. -/
theorem Known.append (hk : Known durable)
    (hds : ∀ x ∈ ds, ∀ y, y <+: x → y ∉ durable → y ∈ ds) : Known (ds ++ durable) where
  root := mem_append_right _ hk.root
  above := by
    intro x y hx hy
    by_cases hyd : y ∈ durable
    · exact mem_append_right _ hyd
    rcases mem_append.1 hx with h | h
    · exact mem_append_left _ (hds x h y hy hyd)
    · exact absurd (hk.above h hy) hyd

theorem Inv.fsyncChain (h : Inv w) : Inv (fsyncChainDeepestUp faults (fanoutDir id depth) w).2 := by
  refine h.syncThenMark ?_ ?_
  · refine h.known.append fun x hx y hy hyd => ?_
    rw [mem_chainToSync h.known] at hx ⊢
    exact ⟨hy.trans hx.1, hyd⟩
  · intro d hd
    exact ownDir_fanout ((mem_chainToSync h.known).1 hd).1

theorem Inv.landing (h : Inv w) : Inv (Io.bind (Io.each (BlockDisk.fsyncDir faults) (landingChain w.durable staged))
      (fun _ => markDurable (landingChain w.durable staged)) w).2 := by
  refine h.syncThenMark ?_ ?_
  · refine h.known.append fun x hx y hy hyd => ?_
    rw [mem_landingChain h.known] at hx ⊢
    obtain ⟨b, hb, rfl | ⟨hx, -⟩⟩ := hx
    · exact ⟨b, hb, .inr ⟨hy, hyd⟩⟩
    · exact ⟨b, hb, .inr ⟨hy.trans hx, hyd⟩⟩
  · intro d hd
    obtain ⟨b, -, rfl | ⟨hx, -⟩⟩ := (mem_landingChain h.known).1 hd
    · exact ownDir_fanout (prefix_refl _)
    · exact ownDir_fanout hx

/-- **Every request keeps the invariant, also one that fails.** -/
theorem Inv.serve (h : Inv w) (request : Request) : Inv (serve faults .fsync request w).2 := by
  cases request with
  | write id depth =>
    refine h.createDirAll.bind fun _ w1 h1 => h1.nextNonce.bind fun nonce w2 h2 => ?_
    have htemp := not_ownDir_temp ⟨id, depth, nonce⟩
    refine Inv.orElse ?_ fun w' h' => h'.removeFile htemp
    refine h2.writeNewFile.bind fun _ w3 h3 => ?_
    refine Inv.bind ?_ fun _ w4 h4 => (h4.rename htemp).bind fun _ w5 h5 => h5.fsyncDir
    exact h3.fsyncFile.bind fun _ w h => h.fsyncChain
  | stage id depth =>
    refine Inv.bind ?_ fun _ w h => h
    refine h.createDirAll.bind fun _ w1 h1 => h1.nextNonce.bind fun nonce w2 h2 => ?_
    refine Inv.bind ?_ fun _ w h => h
    exact h2.writeNewFile.orElse fun w' h' => h'.removeFile (not_ownDir_temp ⟨id, depth, nonce⟩)
  | sync staged => exact Inv.each (fun b w h => h.fsyncFile) h
  | land staged =>
    refine Inv.bind (Inv.each (fun b w h => h.rename (not_ownDir_temp b)) h) fun _ w1 h1 => ?_
    exact h1.landing
  | discard b => exact h.removeFile (not_ownDir_temp b)
  | unlink id depth => exact h.removeFile (not_ownDir_block id depth)

theorem inv_openWriter (t : DirTree Name) : Inv (openWriter .fsync t) where
  known := by
    refine ⟨mem_cons_self, fun {x y} hx hy => ?_⟩
    have hcases : x = [] ∨ x = [.tmp] := by simpa [openWriter] using hx
    rcases hcases with rfl | rfl
    · rw [prefix_nil.1 hy]
      exact mem_cons_self
    have hy' : y = [] ∨ y = [.tmp] := by
      rcases prefix_cons_iff.1 hy with rfl | ⟨z, rfl, hz⟩
      · exact .inl rfl
      · exact .inr (by rw [prefix_nil.1 hz])
    simpa [openWriter] using hy'
  own := by
    intro d hd
    have hcases : d = [] ∨ d = [.tmp] := by simpa [openWriter] using hd
    rcases hcases with rfl | rfl
    · exact .inr (by simp)
    · exact .inl rfl
  there := by
    intro d hd hne
    have hcases : d = [] ∨ d = [.tmp] := by simpa [openWriter] using hd
    rcases hcases with rfl | rfl
    · exact absurd rfl hne
    · have hmk : (t.mkdir [.tmp]).present [.tmp] = true := DirTree.present_mkdir.2 (.inl rfl)
      simpa [openWriter] using hmk

variable (faults) in
theorem inv_serveAll (t : DirTree Name) (requests : List Request) :
    Inv (serveAll faults .fsync (openWriter .fsync t) requests) := by
  have hall : ∀ (l : List Request) {w : World}, Inv w → Inv (serveAll faults .fsync w l) := by
    intro l
    induction l with
    | nil => exact fun h => h
    | cons r l ih => exact fun h => ih (h.serve r)
  exact hall requests (inv_openWriter t)

/-! ## What a successful call leaves covered -/

theorem ne_fanout_prefix (hp : ¬ OwnDir p)
    (hq : q <+: fanoutDir id depth) : q ≠ p :=
  ne_of_ownDir (ownDir_fanout hq) hp

theorem prefix_blockDiskPath : q <+: blockDiskPath id depth ↔ q = blockDiskPath id depth ∨ q <+: fanoutDir id depth :=
  prefix_concat_iff

theorem dropLast_blockDiskPath (id : BlockId) (depth : ℕ) :
    (blockDiskPath id depth).dropLast = fanoutDir id depth := dropLast_concat

theorem dropLast_ne_of_isPrefixOf (hne : q ≠ []) (hq : q <+: d) : q.dropLast ≠ d := by
  intro heq
  have hle := hq.length_le
  have hpos := length_pos_iff.2 hne
  rw [← heq, length_dropLast] at hle
  omega

/-- **What `write_block` leaves covered**: the file, and of the directories above it those in a
directory not known to be durable, or covered before. -/
theorem write_covers (hi : Inv w)
    (h : writeBlock faults .fsync id depth w = (some (), w')) :
    w'.tree.Covered (blockDiskPath id depth) ↔ ∀ q, q ≠ [] → q <+: fanoutDir id depth → q.dropLast ∈ w.durable →
        w.tree.present q = true ∧ w.tree.synced q = true := by
  obtain ⟨_, w1, h1, h⟩ := bind_ok.1 h
  obtain ⟨nonce, w2, h2, h⟩ := bind_ok.1 h
  cases h2
  obtain ⟨_, w3, h3, h⟩ := bind_ok.1 (orElse_ok.1 h)
  obtain ⟨_, w5, h5, h⟩ := bind_ok.1 h
  obtain ⟨_, w6, h6, h7⟩ := bind_ok.1 h
  obtain ⟨_, w4, h4, h5⟩ := bind_ok.1 h5
  obtain ⟨_, w5', hsync, hmark⟩ := bind_ok.1 h5
  cases hmark
  have htemp := not_ownDir_temp ⟨id, depth, w1.nonce⟩
  have hblock := not_ownDir_block id depth
  -- the fanout directories are made, and then the temp file is written and fsynced
  obtain ⟨hdur1, hmade⟩ := createDirAll_ok h1
  obtain ⟨ht3, hdur3⟩ := writeNewFile_ok h3
  obtain ⟨ht4, hdur4⟩ := fsyncFile_ok h4
  have hdur : w4.durable = w.durable := by rw [hdur4, hdur3]; exact hdur1
  have htree4 : w4.tree = w1.tree.add (StagedBlock.tempPath ⟨id, depth, w1.nonce⟩) := by
    rw [ht4, ht3]
  -- the chain is fsynced, the file is renamed, its directory is fsynced
  obtain ⟨-, hpres5, -, hsync5⟩ := fsyncs_ok hsync
  obtain ⟨ht6, -⟩ := rename_ok h6
  have h7' : fsyncDir faults (fanoutDir id depth) w6 = (some (), w') := h7
  obtain ⟨ht7, -, -⟩ := fsyncDir_ok h7'
  have hfile : w'.tree.present (blockDiskPath id depth) = true ∧ w'.tree.synced (blockDiskPath id depth) = true := by
    have hp : w6.tree.present (blockDiskPath id depth) = true := by
      rw [ht6]
      exact DirTree.present_add.2 (.inl rfl)
    rw [ht7]
    exact ⟨hp, DirTree.synced_fsyncDir.2
      (.inl ⟨by simp [blockDiskPath], dropLast_blockDiskPath id depth, hp⟩)⟩
  have hdir : ∀ q, q ≠ [] → q <+: fanoutDir id depth → w'.tree.present q = true ∧
      (w'.tree.synced q = true ↔ q.dropLast ∉ w.durable ∨ w.tree.present q = true ∧ w.tree.synced q = true) := by
    intro q hne hq
    have hqt : q ≠ StagedBlock.tempPath ⟨id, depth, w1.nonce⟩ := ne_fanout_prefix htemp hq
    have hqb : q ≠ StagedBlock.finalPath ⟨id, depth, w1.nonce⟩ := ne_fanout_prefix hblock hq
    have hqd := dropLast_ne_of_isPrefixOf hne hq
    obtain ⟨hp1, hs1⟩ := hmade q hne hq
    have hp4 : w4.tree.present q = true := by
      rw [htree4]
      exact DirTree.present_add.2 (.inr hp1)
    have hp5 : w5'.tree.present q = true := by rw [hpres5]; exact hp4
    have hs4 : w4.tree.synced q = true ↔ w.tree.present q = true ∧ w.tree.synced q = true := by
      rw [htree4, DirTree.synced_add, ← hs1]
      exact ⟨And.right, fun hs => ⟨hqt, hs⟩⟩
    have hs5 : w5'.tree.synced q = true ↔ q.dropLast ∉ w.durable ∨ w.tree.present q = true ∧ w.tree.synced q = true := by
      rw [hsync5 q, ← hs4, mem_chainToSync (hdur ▸ hi.known), hdur]
      have habove : q.dropLast <+: fanoutDir id depth := (List.dropLast_prefix q).trans hq
      exact or_congr ⟨fun h => h.2.1.2, fun h => ⟨hne, ⟨habove, h⟩, hp4⟩⟩ Iff.rfl
    constructor
    · rw [ht7, ht6]
      exact DirTree.present_add.2 (.inr (DirTree.present_remove.2 ⟨hqt, hp5⟩))
    rw [ht7, DirTree.synced_fsyncDir, ht6, DirTree.synced_add, DirTree.synced_remove]
    constructor
    · rintro (⟨-, heq, -⟩ | ⟨-, -, hs⟩)
      · exact absurd heq hqd
      · exact hs5.1 hs
    · exact fun h => .inr ⟨hqb, hqt, hs5.2 h⟩
  constructor
  · intro hcov q hne hq hknown
    have hs := ((hdir q hne hq).2.1 (hcov q hne (hq.trans (prefix_append _ _))).2)
    exact hs.resolve_left fun h => h hknown
  intro hset q hne hq
  rcases prefix_blockDiskPath.1 hq with rfl | hq'
  · exact hfile
  obtain ⟨hp, hs⟩ := hdir q hne hq'
  refine ⟨hp, hs.2 ?_⟩
  by_cases hknown : q.dropLast ∈ w.durable
  · exact .inr (hset q hne hq' hknown)
  · exact .inl hknown

theorem finalPath_ne_tempPath (b b' : StagedBlock) : b.finalPath ≠ b'.tempPath := by
  intro heq
  have hmem : Name.block b.id ∈ b'.tempPath := by
    rw [← heq]
    simp [StagedBlock.finalPath, blockDiskPath]
  simp [StagedBlock.tempPath] at hmem

/-- What the renames of a batch do: the files are at their final paths, and the directories
are as they were. -/
theorem renames_ok : ∀ {w w' : World}, Io.each (fun b => rename faults b.tempPath b.finalPath) staged w = (some (), w') →
    w'.durable = w.durable ∧ (∀ q, OwnDir q → w'.tree.present q = w.tree.present q ∧ w'.tree.synced q = w.tree.synced q) ∧
      (∀ b, w.tree.present (StagedBlock.finalPath b) = true → w'.tree.present (StagedBlock.finalPath b) = true) ∧
      ∀ b ∈ staged, w'.tree.present b.finalPath = true := by
  induction staged with
  | nil => intro w w' h; cases h; simp
  | cons b staged ih =>
    intro w w' h
    obtain ⟨_, w1, hb, hrest⟩ := bind_ok.1 h
    obtain ⟨htree, hdur⟩ := rename_ok hb
    obtain ⟨hdur', hown, hkept, hlanded⟩ := ih hrest
    have hb1 : w1.tree.present b.finalPath = true := by
      rw [htree]
      exact DirTree.present_add.2 (.inl rfl)
    refine ⟨hdur'.trans hdur, fun q hq => ?_, fun c hc => ?_, ?_⟩
    · have htemp := ne_of_ownDir hq (not_ownDir_temp b)
      have hfinal : q ≠ b.finalPath := ne_of_ownDir hq (not_ownDir_block b.id b.depth)
      obtain ⟨hp, hs⟩ := hown q hq
      rw [hp, hs, htree]
      simp [DirTree.add, DirTree.remove, htemp, hfinal]
    · refine hkept c ?_
      rw [htree]
      exact DirTree.present_add.2
        (.inr (DirTree.present_remove.2 ⟨finalPath_ne_tempPath c b, hc⟩))
    · intro c hc
      rcases mem_cons.1 hc with rfl | hc'
      · exact hkept c hb1
      · exact hlanded c hc'

/-- **What `land_batch` leaves covered**: as `write_block`, and also what is in a directory that
another block of the batch lands in. -/
theorem land_covers (hi : Inv w)
    (h : landBatch faults .fsync staged w = (some (), w')) :
    (∀ b ∈ staged, w'.tree.Covered b.finalPath) ↔ ∀ b ∈ staged, ∀ q, q ≠ [] → q <+: b.fanoutDir → q.dropLast ∈ w.durable →
        (∀ b' ∈ staged, q.dropLast ≠ b'.fanoutDir) →
        w.tree.present q = true ∧ w.tree.synced q = true := by
  obtain ⟨_, w1, h1, h⟩ := bind_ok.1 h
  obtain ⟨_, w2, hsync, hmark⟩ := bind_ok.1 h
  cases hmark
  obtain ⟨hdur, hown, -, hlanded⟩ := renames_ok h1
  obtain ⟨-, hpres, hthere, hsynced⟩ := fsyncs_ok hsync
  have hchain : ∀ x, x ∈ landingChain w1.durable staged ↔
      ∃ b ∈ staged, x = b.fanoutDir ∨ (x <+: b.fanoutDir ∧ x ∉ w.durable) := by
    intro x
    rw [mem_landingChain (hdur ▸ hi.known), hdur]
  have hfile : ∀ b ∈ staged, w2.tree.present b.finalPath = true ∧ w2.tree.synced b.finalPath = true := by
    intro b hb
    have hp : w1.tree.present b.finalPath = true := hlanded b hb
    refine ⟨by rw [hpres]; exact hp, (hsynced _).2 (.inl ⟨?_, ?_, hp⟩)⟩
    · simp [StagedBlock.finalPath, blockDiskPath]
    · have hparent : b.finalPath.dropLast = b.fanoutDir := dropLast_blockDiskPath b.id b.depth
      rw [hparent]
      exact (hchain _).2 ⟨b, hb, .inl rfl⟩
  have hdir : ∀ b ∈ staged, ∀ q, q ≠ [] → q <+: b.fanoutDir → w.tree.present q = true ∧ w2.tree.present q = true ∧
      (w2.tree.synced q = true ↔ q.dropLast ∈ landingChain w1.durable staged ∨ w.tree.synced q = true) := by
    intro b hb q hne hq
    obtain ⟨hp, hs⟩ := hown q (ownDir_fanout hq)
    have hp1 : w1.tree.present q = true := by
      by_cases hknown : q ∈ w.durable
      · rw [hp]
        exact hi.there q hknown hne
      · exact (hthere q ((hchain q).2 ⟨b, hb, .inr ⟨hq, hknown⟩⟩)).resolve_left hne
    refine ⟨by rw [← hp]; exact hp1, by rw [hpres]; exact hp1, ?_⟩
    rw [hsynced q, hs]
    exact or_congr ⟨fun h => h.2.1, fun h => ⟨hne, h, hp1⟩⟩ Iff.rfl
  constructor
  · intro hcov b hb q hne hq hknown hother
    obtain ⟨hp, -, hs⟩ := hdir b hb q hne hq
    refine ⟨hp, ?_⟩
    have hsq := (hcov b hb q hne (hq.trans (prefix_append _ _))).2
    rcases hs.1 hsq with hin | hold
    · obtain ⟨b', hb', heq | ⟨-, hnot⟩⟩ := (hchain _).1 hin
      · exact absurd heq (hother b' hb')
      · exact absurd hknown hnot
    · exact hold
  · intro hset b hb q hne hq
    rcases prefix_blockDiskPath.1 hq with rfl | hq'
    · exact hfile b hb
    obtain ⟨-, hp, hs⟩ := hdir b hb q hne hq'
    refine ⟨hp, hs.2 ?_⟩
    by_cases hin : q.dropLast ∈ landingChain w1.durable staged
    · exact .inl hin
    right
    have hnot : ∀ b' ∈ staged, ¬ (q.dropLast = b'.fanoutDir ∨
        (q.dropLast <+: b'.fanoutDir ∧ q.dropLast ∉ w.durable)) := by
      intro b' hb' hx
      exact hin ((hchain _).2 ⟨b', hb', hx⟩)
    have hknown : q.dropLast ∈ w.durable := by
      by_contra hk
      exact hnot b hb (.inr ⟨(List.dropLast_prefix q).trans hq', hk⟩)
    exact (hset b hb q hne hq' hknown fun b' hb' heq => hnot b' hb' (.inl heq)).2

/-! ## Which blocks are covered -/

/-- The blocks that are at their final paths when a request has succeeded. -/
def Request.lands : Request → List (BlockId × ℕ)
  | .write id depth => [(id, depth)]
  | .land staged => staged.map fun b => (b.id, b.depth)
  | _ => []

/-- Every fanout directory that the blocks' paths have in a directory taken for durable was
there and covered, unless the blocks land in that directory. -/
def Settled (w : World) (blocks : List (BlockId × ℕ)) : Prop :=
  ∀ b ∈ blocks, ∀ q, q ≠ [] → q <+: fanoutDir b.1 b.2 → q.dropLast ∈ w.durable →
    (∀ b' ∈ blocks, q.dropLast ≠ fanoutDir b'.1 b'.2) →
    w.tree.present q = true ∧ w.tree.synced q = true

/-- **The paths of the blocks that a successful request lands are covered if and only if every
directory on them that stands in one taken for durable was covered before.** -/
theorem covered_iff {t : DirTree Name} {requests : List Request} {request : Request} {w' : World}
    (h : serve faults .fsync request (serveAll faults .fsync (openWriter .fsync t) requests) =
      (some (), w')) :
    (∀ b ∈ request.lands, w'.tree.Covered (blockDiskPath b.1 b.2)) ↔
      Settled (serveAll faults .fsync (openWriter .fsync t) requests) request.lands := by
  have hi := inv_serveAll faults t requests
  generalize serveAll faults .fsync (openWriter .fsync t) requests = w at h hi
  cases request with
  | write id depth =>
    have hw := write_covers hi h
    simp only [Request.lands, Settled, forall_mem_singleton]
    rw [hw]
    refine forall_congr' fun q => forall_congr' fun hne => forall_congr' fun hq =>
      forall_congr' fun hknown => ?_
    exact ⟨fun hs _ => hs, fun hs => hs (dropLast_ne_of_isPrefixOf hne hq)⟩
  | land staged =>
    have hl := land_covers hi h
    simp only [Request.lands, Settled, forall_mem_map]
    exact hl
  | stage id depth | sync staged | discard b | unlink id depth => simp [Request.lands, Settled]

theorem full_width : 32 = blockIdSize ∨ 32 = maxBlockIdSize := .inr rfl

/-- A block of a new store. -/
def firstBlock : BlockId where
  bytes := List.replicate 32 0xab
  len := 32
  size := rfl
  width := full_width
  padded := by simp

/-- An empty blocks root. -/
def emptyRoot : DirTree Name := ⟨fun _ => false, fun _ => false⟩

/-- A blocks root with the fanout directory of `firstBlock` in it. -/
def usedRoot : DirTree Name := ⟨fun p => p = [.fanout 0xab], fun _ => false⟩

/-- Another block of that directory. -/
def secondBlock : BlockId where
  bytes := 0xab :: List.replicate 31 0xcd
  len := 32
  size := rfl
  width := full_width
  padded := by simp

/-- Two writes and an unlink. -/
def earlierRequests : List Request := [.write firstBlock 1, .write secondBlock 2, .unlink firstBlock 1]

/-- The store after them. -/
def usedStore : World := serveAll (fun _ => false) .fsync (openWriter .fsync usedRoot) earlierRequests

/-- A block that lands in a directory of before the open is covered, also after other requests. -/
theorem used_store_covered : (serve (fun _ => false) .fsync (.write firstBlock 1) usedStore).1 = some () ∧
    (serve (fun _ => false) .fsync (.write firstBlock 1) usedStore).2.tree.Covered
      (blockDiskPath firstBlock 1) := by
  have hok : (serve (fun _ => false) .fsync (.write firstBlock 1) usedStore).1 = some () := by
    decide +kernel
  refine ⟨hok, ?_⟩
  have hset : Settled usedStore (Request.lands (.write firstBlock 1)) := by
    have hdir : fanoutDir firstBlock 1 = [.fanout 0xab] := by decide +kernel
    have hthere : usedStore.tree.present [.fanout 0xab] = true ∧
        usedStore.tree.synced [.fanout 0xab] = true := by decide +kernel
    intro b hb q hne hq _ _
    rw [mem_singleton.1 hb, hdir] at hq
    rcases prefix_cons_iff.1 hq with rfl | ⟨r, rfl, hr⟩
    · exact absurd rfl hne
    · rw [prefix_nil.1 hr]
      exact hthere
  have hserve : serve (fun _ => false) .fsync (.write firstBlock 1)
      (serveAll (fun _ => false) .fsync (openWriter .fsync usedRoot) earlierRequests) =
        (some (), (serve (fun _ => false) .fsync (.write firstBlock 1) usedStore).2) := by
    rw [← usedStore, ← hok]
  exact (covered_iff hserve).2 hset _ mem_cons_self

/-- **The first block of a new store is not covered**: its fanout directory was made after the
fsync of the root, which is never fsynced again. -/
theorem fresh_store_uncovered :
    let w := openWriter .fsync emptyRoot
    let result := serve (fun _ => false) .fsync (.write firstBlock 1) w
    result.1 = some () ∧
      result.2.tree.present [.fanout 0xab] = true ∧
      result.2.tree.synced [.fanout 0xab] = false ∧
      ¬ result.2.tree.Covered (blockDiskPath firstBlock 1) := by
  decide +kernel

end QssStorage.BlockDisk
