import QssStorage.Proof.Frame
import QssStorage.Conc.Serial

/-!
# The life of a name

A name is a row, a counter and a tree, written one after the other. The RESP server takes
the row for the name and the tree for the namespace, so what it leaves when it is killed
between the two is refused by a create and not found by everything else. The S3 server
looks at the tree alone and writes the counter last, so two creates that both saw no tree
each set the counter to zero.

* `names_sound`: **such runs, with no kill while row and tree disagree.**
-/

namespace QssStorage

open Conc Prog OrdMap
open Store (hasTree tree setTree)

/-! ## What is promised -/

/-- A create of the name is refused as already existing. -/
def RefusedAsExisting : Front → Bytes → Store → Prop
  | .s3, name, s => ((createBucket name).eval steady s).map Prod.fst = some (.error .bucketAlreadyExists)
  | .resp, name, s => ((createNamespace name).eval steady s).map Prod.fst = some (.error .namespaceExists)

/-- A lookup of the name reports it as not found. -/
def ReportedNotFound : Front → Bytes → Store → Prop
  | .s3, name, s => ((headBucket name).eval steady s).map Prod.fst = some (.error .noSuchBucket)
  | .resp, name, s => ((getNamespaceMeta name).eval steady s).map Prod.fst = some (.error .namespaceNotFound)

/-- A lookup of the name finds it. -/
def Usable : Front → Bytes → Store → Prop
  | .s3, name, s => ((headBucket name).eval steady s).map Prod.fst = some (.ok ())
  | .resp, name, s => ∃ m, ((getNamespaceMeta name).eval steady s).map Prod.fst = some (.ok m)

/-- The counter of a bucket that holds records is set to zero, the records staying. -/
def Resets (name : Bytes) (s s' : Store) : Prop :=
  ∃ cell, s.usage.get name = some cell ∧ cell ≠ .record 0 ∧ s'.usage.get name = some (.record 0) ∧
    s'.trees.get name = s.trees.get name ∧ (s.tree name).entries ≠ []

/-- Row and tree of a name agree. -/
def Whole (name : Bytes) (s : Store) : Prop := (s.buckets.get name).isSome = (s.trees.get name).isSome

instance (name : Bytes) (s : Store) : Decidable (Whole name s) := inferInstanceAs (Decidable (_ = _))

/-- No tree is without its row. -/
theorem Whole.free {name : Bytes} {s : Store} (h : Whole name s) : s.buckets.get name = none → s.trees.get name = none := by
  intro hrow
  unfold Whole at h
  rw [hrow] at h
  exact Option.not_isSome_iff_eq_none.1 (by rw [← h]; simp)

/-- A bucket with no record whose counter reads zero. -/
structure Fresh (front : Front) (name : Bytes) (s : Store) : Prop where
  tree : s.trees.get name = some ∅
  usage : s.usage.get name = some (.record 0)
  row : front = .resp → ∃ m, s.buckets.get name = some (.record (.namespaceRow m))

theorem usable_of_fresh {front : Front} {name : Bytes} {s : Store} (h : Fresh front name s) : Usable front name s := by
  have htree : s.hasTree name = true := by unfold hasTree; rw [h.tree]; rfl
  cases front with
  | s3 => simp [Usable, headBucket, bucketExists, Prog.step, eval, htree]
  | resp =>
    obtain ⟨m, hm⟩ := h.row rfl
    refine ⟨m, ?_⟩
    simp [getNamespaceMeta, bucketExists, Prog.step, eval, htree, tryMeta, readStore, andThen, steady, hm,
      decodeNamespaceMeta]

/-! ## One operation with nothing beside it -/

section Alone

variable {name : Bytes} {s : Store}
variable {α : Type} {s' : Store} {f : Store → Store} {Q : Except Err α → Store → Prop} {p : StoreProg (Except Err α)}

theorem resets_irrefl (s : Store) : ¬ Resets name s s := by
  rintro ⟨cell, hcell, hne, hzero, -⟩
  rw [hcell] at hzero
  exact hne (Option.some.inj hzero)

theorem not_resets_of_usage (h : s'.usage.get name = s.usage.get name) : ¬ Resets name s s' := by
  rintro ⟨cell, hcell, hne, hzero, -⟩
  rw [h, hcell] at hzero
  exact hne (Option.some.inj hzero)

theorem not_resets_of_empty (h : s.tree name = ∅) : ¬ Resets name s s' := by
  rintro ⟨-, -, -, -, -, hrecords⟩
  rw [h] at hrecords
  exact hrecords rfl

/-- A transaction on a record moves the counter with the records. -/
theorem RecordTx.not_resets {bucket key : Bytes} {new : Option Object} {noting : List Event}
    (h : RecordTx bucket key new noting s s') : ¬ Resets name s s' := by
  obtain ⟨old, usage, hget, hcharged, rfl⟩ := h
  by_cases hb : name = bucket
  swap
  · refine not_resets_of_usage ?_
    rcases hcharged with ⟨-, -, rfl⟩ | ⟨current, -, rfl⟩
    · rfl
    · exact get_insert_of_ne _ _ hb
  subst hb
  rcases hcharged with ⟨-, -, rfl⟩ | ⟨current, hcurrent, rfl⟩
  · exact not_resets_of_usage rfl
  rintro ⟨cell, hcell, hne, hzero, htrees, -⟩
  simp only [get_insert_self, Option.some.injEq, Cell.record.injEq] at hzero htrees
  rw [hcell, Option.getD_some] at hcurrent
  subst hcurrent
  -- the tree is the one before, so the record is, and the difference is zero
  have hsame : recordedSize new = recordedSize old := by
    have htree : s.tree name = new.elim ((s.tree name).erase key) fun o => (s.tree name).insert key (.record o) := by
      conv_lhs => unfold tree
      rw [← htrees, Option.getD_some]
    cases new with
    | none =>
      rw [htree, Option.elim_none, get_erase_self] at hget
      cases old with
      | none => rfl
      | some o => cases hget
    | some o =>
      rw [htree, Option.elim_some, get_insert_self] at hget
      cases old with
      | none => cases hget
      | some o' => cases hget; rfl
  have hdelta : asI64 (asI64 (recordedSize new) - asI64 (recordedSize old)) = 0 := by rw [hsame, sub_self]; rfl
  rw [hdelta] at hzero
  unfold shifted at hzero
  have hcur : current ≠ 0 := fun h => hne (by rw [h])
  simp only [le_refl, if_true, Int.toNat_zero, add_zero] at hzero
  omega

variable {G : Store → Store → Prop}

/-- A transaction, with nothing failing. -/
theorem alone_transact {body : Store → Except Err (α × Store)} (hrefl : G s s)
    (hok : ∀ a s', body s = .ok (a, s') → G s s' ∧ Q (.ok a) s') (herr : ∀ e, body s = .error e → Q (.error e) s) : Alone Choice.Fine G (transact body) Q s := by
  refine alone_step fun e r s' he hf => ?_
  rw [he.1] at hf
  cases hb : body s with
  | error err => rw [hb] at hf; cases hf; exact ⟨hrefl, herr err hb⟩
  | ok x => rw [hb] at hf; cases hf; exact hok _ _ hb

/-- A write, with nothing failing. -/
theorem alone_write {Q : Except Err Unit → Store → Prop} (hrefl : G s s) (hG : G s (f s)) (hQ : Q (.ok ()) (f s)) : Alone Choice.Fine G (transact fun s => .ok ((), f s)) Q s :=
  alone_transact hrefl (fun a s' h => by cases h; exact ⟨hG, hQ⟩) nofun

theorem alone_readStore {body : Store → Except Err α} (hrefl : G s s) (hQ : Q (body s) s) : Alone Choice.Fine G (readStore body) Q s := by
  refine alone_step fun e r s' he hf => ?_
  rw [he.2.2.1] at hf
  cases hf
  exact ⟨hrefl, hQ⟩

theorem alone_bucketExists {Q : Bool → Store → Prop} (hrefl : G s s) (hQ : Q (s.hasTree name) s) :
    Alone Choice.Fine G (bucketExists name) Q s :=
  alone_step fun e r s' _ hf => by cases hf; exact ⟨hrefl, hQ⟩

theorem alone_tryMeta {Q : Except StorageErr α → Store → Prop}
    (h : Alone Choice.Fine G p (fun r => Q (r.mapError .metaError)) s) : Alone Choice.Fine G (tryMeta p) Q s :=
  alone_bind (h.mono fun r s hr => by cases r <;> exact hr)

theorem alone_tryStore {Q : Except S3Err α → Store → Prop}
    (h : Alone Choice.Fine G p (fun r => Q (r.mapError .internal)) s) : Alone Choice.Fine G (tryStore p) Q s :=
  alone_bind (h.mono fun r s hr => by cases r <;> exact hr)

/-! ### The RESP server -/

theorem whole_setTree {n : Bytes} {t : OrdMap Bytes (Cell Object)} (hn : n ≠ name) :
    Whole n (s.setTree name t) ↔ Whole n s := by
  unfold Whole setTree
  rw [get_insert_of_ne _ _ hn]

/-- How a create of a namespace ends. -/
inductive Created (name : Bytes) (s : Store) : Except StorageErr Unit → Store → Prop
  | ok {s' : Store} (free : s.buckets.get name = none) (fresh : Fresh .resp name s') (whole : ∀ n, Whole n s → Whole n s') :
      Created name s (.ok ()) s'
  | taken (row : (s.buckets.get name).isSome) : Created name s (.error .namespaceExists) s
  | failed (e : Err) : Created name s (.error (.metaError e)) s

/-- A step that resets no counter and keeps a row that is there. -/
def KeepsRow (name : Bytes) (s s' : Store) : Prop :=
  ¬ Resets name s s' ∧ ((s.buckets.get name).isSome → (s'.buckets.get name).isSome)

theorem KeepsRow.refl (s : Store) : KeepsRow name s s := ⟨resets_irrefl s, id⟩

/-- **A create of a namespace**, where no tree is without its row. -/
theorem createNamespace_alone (hfree : s.buckets.get name = none → s.trees.get name = none) :
    Alone Choice.Fine (KeepsRow name) (createNamespace name) (Created name s) s := by
  refine alone_andThen (alone_tryMeta ?_)
  unfold insertBucketIfAbsent
  split
  · exact ⟨nofun, fun e h => by cases h; exact .failed _⟩
  refine alone_andThen (alone_transact (KeepsRow.refl s) (fun claimed s1 hclaim => ?_) fun e h => ?_)
  swap
  · unfold claimName at h; split at h <;> cases h
  unfold claimName at hclaim
  split at hclaim
  · rename_i row hrow
    cases hclaim
    refine ⟨KeepsRow.refl s, fun a ha => ?_, nofun⟩
    cases ha
    exact ⟨fun a ha => by cases ha; exact .taken (by rw [hrow]; rfl), nofun⟩
  rename_i hrow
  cases hclaim
  have htree := hfree hrow
  have hempty : s.tree name = ∅ := by unfold tree; rw [htree]; rfl
  refine ⟨⟨not_resets_of_empty hempty, fun _ => by simp⟩, fun a ha => ?_, nofun⟩
  cases ha
  refine alone_andThen (alone_write (KeepsRow.refl _) ⟨not_resets_of_usage rfl, id⟩
    ⟨fun _ _ => ⟨fun a ha => ?_, nofun⟩, nofun⟩)
  cases ha
  refine alone_bind (alone_bucketExists (KeepsRow.refl _) ?_)
  rw [if_pos (by simp [hasTree, setTree])]
  refine alone_tryMeta (alone_write (KeepsRow.refl _) ⟨not_resets_of_usage rfl, id⟩ ?_)
  refine .ok hrow ⟨?_, ?_, fun _ => ⟨.new name, ?_⟩⟩ fun n hn => ?_
  · simp [setTree, tree, htree]
  · simp [setTree]
  · simp [setTree]
  · by_cases hne : n = name
    · subst hne; simp [Whole, setTree]
    · simpa [Whole, setTree, get_insert_of_ne _ _ hne] using hn

/-- A drop takes the row, the counter and the tree. -/
theorem dropBucket_alone : Alone Choice.Fine (fun s s' => ¬ Resets name s s') (dropBucket name)
      (fun r s' => r = .ok () ∧ s'.buckets.get name = none ∧ s'.trees.get name = none) s := by
  refine alone_andThen (alone_write (resets_irrefl _) (not_resets_of_usage rfl) ⟨fun _ _ => ?_, nofun⟩)
  have hcounter : ¬ Resets name { s with buckets := s.buckets.erase name }
      { s with buckets := s.buckets.erase name, usage := s.usage.erase name } := by
    rintro ⟨-, -, -, hzero, -⟩
    rw [get_erase_self] at hzero
    cases hzero
  refine alone_andThen (alone_write (resets_irrefl _) hcounter ⟨fun _ _ => ?_, nofun⟩)
  refine alone_bind (alone_bucketExists (resets_irrefl _) ?_)
  split
  · refine alone_write (resets_irrefl _) (not_resets_of_usage rfl) ⟨rfl, ?_, ?_⟩
    · exact get_erase_self _ _
    · exact get_erase_self _ _
  · rename_i hfound
    refine ⟨rfl, get_erase_self _ _, ?_⟩
    unfold hasTree at hfound
    exact Option.not_isSome_iff_eq_none.1 hfound

/-- Reading a namespace's row changes nothing. -/
theorem getNamespaceMeta_alone {Q : Except StorageErr NamespaceMeta → Store → Prop} (hQ : ∀ r, Q r s) :
    Alone Choice.Fine (fun s s' => ¬ Resets name s s') (getNamespaceMeta name) Q s := by
  refine alone_bind (alone_bucketExists (resets_irrefl _) ?_)
  split
  · refine alone_andThen (alone_tryMeta (alone_readStore (resets_irrefl _) ⟨fun row _ => ?_, nofun⟩))
    cases row <;> exact hQ _
  · exact hQ _

/-- Looking up another namespace leaves row and tree of this one. -/
theorem getNamespace_alone {other : Bytes} (hne : name ≠ other) (hwhole : Whole name s) :
    Alone Choice.Fine (fun s s' => ¬ Resets name s s') (getNamespace other) (fun _ s' => Whole name s') s := by
  refine alone_bind (alone_bucketExists (resets_irrefl _) ?_)
  split
  · exact alone_tryMeta (alone_write (resets_irrefl _) (not_resets_of_usage rfl) ((whole_setTree hne).2 hwhole))
  · exact hwhole

/-- **A flush leaves row and tree agreeing.** -/
theorem flushNamespace_alone (hwhole : Whole name s) :
    Alone Choice.Fine (fun s s' => ¬ Resets name s s') (flushNamespace name) (fun _ s' => Whole name s') s := by
  unfold flushNamespace
  split
  · exact hwhole
  rename_i hdefault
  refine alone_andThen (getNamespaceMeta_alone fun r => ⟨fun namespaceMeta _ => ?_, fun e _ => hwhole⟩)
  refine alone_andThen ((getNamespace_alone hdefault hwhole).mono fun r s1 hwhole => ⟨fun _ _ => ?_, fun e _ => hwhole⟩)
  refine alone_andThen (alone_bind (alone_bucketExists (resets_irrefl _) ?_))
  split
  swap
  · exact ⟨nofun, fun e _ => hwhole⟩
  refine alone_tryMeta (dropBucket_alone.mono fun r s2 h => ?_)
  obtain ⟨rfl, hrow, htree⟩ := h
  have hwhole2 : Whole name s2 := by unfold Whole; rw [hrow, htree]; rfl
  refine ⟨fun _ _ => alone_andThen ((createNamespace_alone fun _ => htree).weaken (fun _ _ h => h.1) fun r s₃ h => ?_), nofun⟩
  cases h with
  | taken row => rw [hrow] at row; cases row
  | failed e => exact ⟨nofun, fun _ _ => hwhole2⟩
  | ok free fresh whole =>
    refine ⟨fun _ _ => alone_bind (alone_bucketExists (resets_irrefl _) ?_), nofun⟩
    rw [if_pos (by simp [hasTree, fresh.tree])]
    refine alone_tryMeta (alone_write (resets_irrefl _) (not_resets_of_usage rfl) ?_)
    simp [Whole, fresh.tree]

/-! ### The S3 server -/

/-- **A create of a bucket leaves it fresh**, if it says that it created it. -/
theorem createBucket_alone : Alone Choice.Fine (fun s s' => ¬ Resets name s s') (createBucket name)
      (fun r s' => r = .ok () → Fresh .s3 name s') s := by
  refine alone_bind (alone_bucketExists (resets_irrefl _) ?_)
  split
  · intro h; cases h
  rename_i hfound
  have htree : s.trees.get name = none := by
    unfold hasTree at hfound
    exact Option.not_isSome_iff_eq_none.1 hfound
  refine alone_bind (alone_step fun e now s' _ h => ?_)
  cases h
  refine ⟨resets_irrefl _, alone_tryStore ?_⟩
  unfold insertBucket
  split
  · intro h; cases h
  refine alone_andThen (alone_write (resets_irrefl _) (not_resets_of_usage rfl) ⟨fun _ _ => ?_, fun _ h => (by cases h)⟩)
  refine alone_andThen (alone_write (resets_irrefl _) (not_resets_of_usage rfl) ⟨fun _ _ => ?_, fun _ h => (by cases h)⟩)
  have hempty : ∀ buckets, tree (setTree { s with buckets := buckets } name
      (tree { s with buckets := buckets } name)) name = ∅ := by
    intro buckets
    simp [tree, setTree, htree]
  refine alone_write (resets_irrefl _) (not_resets_of_empty (hempty _)) fun _ => ⟨?_, ?_, fun h => (by cases h)⟩
  · simp [setTree, tree, htree]
  · simp

variable (c : Config)

theorem write_steps (hrefl : ∀ s, G s s) (hG : ∀ s, G s (f s)) : Steps G (transact fun s => .ok ((), f s)) fun _ => True :=
  transact_steps' hrefl fun s a s' h => by cases h; exact hG s

theorem bucketExists_steps (hrefl : ∀ s, G s s) : Steps G (bucketExists name) fun _ => True :=
  Steps.step fun e s a s' h => by cases h; exact ⟨hrefl _, trivial⟩

/-- No step of a delete resets the counter. -/
theorem deleteBucket_steps (fuel : ℕ) : Steps (fun s s' => ¬ Resets name s s') (deleteBucket c fuel name) fun _ => True := by
  have hrow : Steps (fun s s' => ¬ Resets name s s') (removeRow name) fun _ => True :=
    write_steps resets_irrefl fun s => not_resets_of_usage rfl
  have hdelete : ∀ key, Steps (fun s s' => ¬ Resets name s s') (deleteObject c name key) fun _ => True := fun key =>
    deleteObject_steps c (fun s s' h => not_resets_of_usage (by rw [h.usage])) fun new s s' h => h.not_resets
  have hcounter : ∀ s : Store, ¬ Resets name s { s with usage := s.usage.erase name } := by
    rintro s ⟨-, -, -, hzero, -⟩
    rw [get_erase_self] at hzero
    cases hzero
  refine Steps.seq ?_ fun r => by cases r <;> exact trivial
  refine Steps.thenTrue hrow fun _ => Steps.thenTrue (write_steps resets_irrefl fun s => not_resets_of_usage rfl) fun _ =>
    Steps.thenTrue (inherits_deleteEach (inherits_steps resets_irrefl) c hdelete fuel none) fun _ => Steps.thenTrue hrow fun _ =>
      Steps.thenTrue (write_steps resets_irrefl hcounter) fun _ => Steps.seq (bucketExists_steps resets_irrefl) fun found => ?_
  split
  · exact write_steps resets_irrefl fun s => not_resets_of_usage rfl
  · exact trivial

/-- A step of a write of a record: the row stays as it is, and the tree stays. -/
def KeepsTree (name : Bytes) (s s' : Store) : Prop :=
  ¬ Resets name s s' ∧ s'.buckets = s.buckets ∧ (s.hasTree name = true → s'.hasTree name = true)

theorem put_steps (key data : Bytes) : Steps (KeepsTree name) (storeInlinedObject c name key data) fun _ => True := by
  refine storeInlinedObject_steps c (fun s s' h => ?_) (fun new s s' h => ?_) data
  · refine ⟨not_resets_of_usage (by rw [h.usage]), h.buckets, fun ht => ?_⟩
    unfold hasTree
    rw [h.trees]
    exact ht
  · refine ⟨h.not_resets, ?_⟩
    obtain ⟨old, usage, -, -, rfl⟩ := h
    exact ⟨rfl, fun _ => by simp [hasTree]⟩

/-- With the tree there, a write keeps row and tree agreeing. -/
theorem KeepsTree.whole (h : KeepsTree name s s') (htree : s.hasTree name = true) (hwhole : Whole name s) : Whole name s' := by
  unfold Whole at hwhole ⊢
  rw [h.2.1, hwhole]
  exact htree.trans (h.2.2 htree).symm

end Alone

/-! ## Orderly runs -/

theorem adoptUsageLedger_frame : ∀ (rows : List (Bytes × Cell BucketRow)) (s : Store),
    (adoptUsageLedger rows s).2.buckets = s.buckets ∧ (adoptUsageLedger rows s).2.trees = s.trees := by
  intro rows
  induction rows with
  | nil => exact fun s => ⟨rfl, rfl⟩
  | cons row rows ih =>
    intro s
    unfold adoptUsageLedger
    split
    · exact ⟨rfl, rfl⟩
    split
    · exact ih s
    · exact ⟨rfl, rfl⟩
    split
    · split
      · exact ⟨rfl, rfl⟩
      · exact ih _
    · exact ⟨rfl, rfl⟩

/-- Opening the store again keeps row and tree agreeing. -/
theorem whole_reopen {name : Bytes} {s : Store} (h : Whole name s) : Whole name (Front.resp.reopen s) := by
  have hadopt := adoptUsageLedger_frame s.buckets.entries s.restart
  simp only [Front.reopen]
  split
  · rename_i s1 heq
    rw [heq] at hadopt
    unfold Whole
    rw [hadopt.1, hadopt.2]
    exact h
  rename_i s1 heq
  rw [heq] at hadopt
  have h1 : Whole name s1 := by
    unfold Whole
    rw [hadopt.1, hadopt.2]
    exact h
  split
  · rename_i r s2 heval
    refine Alone.of_runs (G := KeepsRow defaultNamespace) (Q := fun _ s => Whole name s) ?_
      (eval_runs steady_fine heval)
    refine alone_bind (alone_bucketExists (KeepsRow.refl _) ?_)
    split
    · exact h1
    rename_i hfound
    refine (createNamespace_alone fun _ => Option.not_isSome_iff_eq_none.1 hfound).mono fun r s' hr => ?_
    cases hr with
    | ok free fresh whole => exact whole name h1
    | taken row | failed e => exact h1
  · exact h1

/-- Row and tree agree, so a name that is refused is found. -/
theorem not_stuck {front : Front} {name : Bytes} {s : Store} (h : front = .resp → Whole name s) :
    ¬ (RefusedAsExisting front name s ∧ ReportedNotFound front name s) := by
  rintro ⟨hrefused, hmissing⟩
  cases front with
  | s3 =>
    obtain ⟨⟨r, s'⟩, heval, hr⟩ := Option.map_eq_some_iff.1 hrefused
    have hruns : Runs Choice.Fine _ s r s' := eval_runs steady_fine heval
    cases htree : s.hasTree name with
    | true => simp [ReportedNotFound, headBucket, bucketExists, Prog.step, eval, htree] at hmissing
    | false =>
      have halone : Alone Choice.Fine (fun _ _ => True) (createBucket name)
          (fun r _ => r ≠ .error .bucketAlreadyExists) s := by
        refine alone_bind (alone_bucketExists trivial ?_)
        rw [htree]
        refine alone_bind (alone_step fun e now s' _ h => ?_)
        cases h
        refine ⟨trivial, alone_tryStore (alone_of_steps (I := fun _ => True) (fun _ _ _ _ => trivial)
          (Q := fun _ => True) ?_ trivial |>.mono fun r _ _ => by cases r <;> intro h <;> cases h)⟩
        unfold insertBucket
        split
        · exact trivial
        · exact Steps.thenTrue (write_steps (fun _ => trivial) fun _ => trivial) fun _ =>
            Steps.thenTrue (write_steps (fun _ => trivial) fun _ => trivial) fun _ =>
              write_steps (fun _ => trivial) fun _ => trivial
      exact halone.of_runs hruns hr
  | resp =>
    have hwhole := h rfl
    obtain ⟨⟨r, s'⟩, heval, hr⟩ := Option.map_eq_some_iff.1 hrefused
    have hruns : Runs Choice.Fine _ s r s' := eval_runs steady_fine heval
    have hcreated := (createNamespace_alone hwhole.free).of_runs hruns
    dsimp only at hr
    rw [hr] at hcreated
    cases hcreated with
    | taken row =>
      have htree : s.hasTree name = true := by unfold Whole at hwhole; rw [hwhole] at row; exact row
      obtain ⟨cell, hcell⟩ := Option.isSome_iff_exists.1 row
      simp only [ReportedNotFound, getNamespaceMeta, bucketExists, Prog.step, eval, act_bind, ret_bind, htree, if_true,
        tryMeta, readStore, andThen, steady, hcell, Option.map_some, Option.some.injEq] at hmissing
      cases cell with
      | garbage => simp [decodeNamespaceMeta] at hmissing
      | record row => cases row <;> simp [decodeNamespaceMeta] at hmissing

/-- The operations of a name that may be under way together: one create of a namespace gets
the row and the others are refused, and each write of a record is one transaction. -/
def NameOp.beside : NameOp → NameOp → Bool
  | createNamespace, createNamespace => true
  | put _ _, put _ _ => true
  | _, _ => false

theorem NameOp.beside_eq {o o' : NameOp} (h : o.beside o' = true) :
    o = createNamespace ∧ o' = createNamespace ∨ ∃ key data, o = put key data := by
  cases o <;> cases o' <;> simp [beside] at h ⊢

/-- The moves of an orderly run on one name: operations of one server, those under way together
kept apart by the store, none of their steps failing, and the RESP server killed only while
row and tree agree. -/
def Orderly (front : Front) (name : Bytes) (ops : List NameOp) (w : Pool Store Choice ℕ NameAnswer) :
    Move NameOp Choice → Prop
  | .spawn o => o.servedBy front = true ∧
      ∀ i o' t, Pool.At ops w i o' t → t.done ∨ o.beside o' = true
  | .run _ e => e.Fine
  | .stop _ => False
  | .crash => front = .resp → Whole name w.st

section Phases

open Pool

variable {c : Config} {front : Front} {name : Bytes} {ops : List NameOp} {w : Pool Store Choice ℕ NameAnswer}
variable {s s' : Store} {t t' : Thread Store Choice ℕ NameAnswer} {o : NameOp} {e : Choice} {free : ℕ → Bool}

/-- What an operation leaves. -/
def Promised (front : Front) (name : Bytes) (a : NameAnswer) (s : Store) : Prop :=
  (front = .resp → Whole name s) ∧ (a = .created → Fresh front name s)

/-- A step of an operation with nothing but refused creates beside it. -/
def Lone (name : Bytes) (o : NameOp) (s s' : Store) : Prop :=
  ¬ Resets name s s' ∧ (o = .createNamespace → (s.buckets.get name).isSome → (s'.buckets.get name).isSome)

/-- What an operation other than a write leaves, with nothing beside it. -/
theorem nameOp_alone (c : Config) (ho : o.servedBy front = true) (hput : ∀ key data, o ≠ .put key data)
    (h : front = .resp → Whole name s) : Alone Choice.Fine (Lone name o) (o.prog c name) (Promised front name) s := by
  cases o with
  | createBucket =>
    obtain rfl : front = .s3 := by simpa [NameOp.servedBy] using ho
    refine alone_bind (createBucket_alone.weaken (fun _ _ h => ⟨h, nofun⟩) fun r s' hr => ⟨nofun, fun hcreated => hr ?_⟩)
    cases r with
    | ok _ => rfl
    | error e => cases hcreated
  | deleteBucket fuel =>
    obtain rfl : front = .s3 := by simpa [NameOp.servedBy] using ho
    exact alone_bind ((alone_of_steps (I := fun _ => True) (fun _ _ _ _ => trivial) (deleteBucket_steps c fuel)
      trivial).weaken (fun _ _ h => ⟨h, nofun⟩) fun _ _ _ => ⟨nofun, nofun⟩)
  | createNamespace =>
    obtain rfl : front = .resp := by simpa [NameOp.servedBy] using ho
    have hwhole := h rfl
    refine alone_bind ((createNamespace_alone hwhole.free).weaken (fun _ _ h => ⟨h.1, fun _ => h.2⟩) fun r s' hr => ?_)
    cases hr with
    | ok free fresh whole => exact ⟨fun _ => whole name hwhole, fun _ => fresh⟩
    | taken row | failed e => exact ⟨fun _ => hwhole, nofun⟩
  | flushNamespace =>
    obtain rfl : front = .resp := by simpa [NameOp.servedBy] using ho
    exact alone_bind ((flushNamespace_alone (h rfl)).weaken (fun _ _ h => ⟨h, nofun⟩) fun _ _ hw => ⟨fun _ => hw, nofun⟩)
  | put key data => exact absurd rfl (hput key data)

/-- **The first step of a create of a namespace**: refused at once if there is a row, and
otherwise the row is there afterwards. -/
theorem create_first (he : e.Fine) (hp : t.prog = some (NameOp.prog c name .createNamespace))
    (h : stepThread free e s t = some (s', t')) :
    (s.buckets.get name).isSome ∧ s' = s ∧ t'.prog = some (.ret .other) ∨
      s.buckets.get name = none ∧ (s'.buckets.get name).isSome := by
  by_cases hres : isReserved name = true
  · have hret : NameOp.prog c name .createNamespace = .ret .other := by
      simp [NameOp.prog, createNamespace, insertBucketIfAbsent, hres, tryMeta, andThen, NameAnswer.ofCreate]
    rw [hret] at hp
    exact absurd (.inr (Thread.returned_iff.2 ⟨_, hp⟩)) (not_done_of_step h)
  have hclaim : insertBucketIfAbsent name (.namespaceRow (.new name)) =
      (transact (claimName name (.namespaceRow (.new name)))).andThen fun claimed =>
        if claimed then (treeOpen name).andThen fun _ => .ret (.ok true) else .ret (.ok false) := if_neg hres
  unfold NameOp.prog createNamespace at hp
  rw [hclaim] at hp
  rcases stepThread_cases h with ⟨β, f, k, v, hk, hf, rfl⟩ | ⟨i, k, hk, -, -, -⟩ | ⟨i, k, hk, -, -⟩
  all_goals cases hp.symm.trans hk
  dsimp only at hf
  rw [he.1] at hf
  unfold claimName at hf
  cases hrow : s.buckets.get name with
  | some row => rw [hrow] at hf; cases hf; exact .inl ⟨rfl, rfl, rfl⟩
  | none => rw [hrow] at hf; cases hf; exact .inr ⟨rfl, by simp⟩

/-- The first step of a write: it found the tree, or it ends. -/
theorem put_first {key data : Bytes} (hp : t.prog = some (NameOp.prog c name (.put key data)))
    (h : stepThread free e s t = some (s', t')) : s' = s ∧ ∃ p, t'.prog = some p ∧
      (s.hasTree name = true ∧ Steps (KeepsTree name) p (· = .other) ∨ p = .ret .other) := by
  rcases stepThread_cases h with ⟨β, f, k, v, hk, hf, rfl⟩ | ⟨_, k, hk, -, -, -⟩ | ⟨_, k, hk, -, -⟩
  all_goals cases hp.symm.trans hk
  cases hf
  refine ⟨rfl, _, rfl, ?_⟩
  simp only [ret_bind]
  split
  · rename_i htree
    exact .inl ⟨htree, Steps.seq (put_steps c key data) fun _ => rfl⟩
  · exact .inr rfl

/-- The thread of an operation that goes on beside others: it has not begun, or writes a record
into a tree that is there. -/
inductive Shared (c : Config) (front : Front) (name : Bytes) (s : Store) (o : NameOp)
    (t : Thread Store Choice ℕ NameAnswer) : Prop
  | waits (hserved : o.servedBy front = true) (ho : o.beside o = true) (hp : t.prog = some (o.prog c name))
  | writes (key data : Bytes) (p : StoreProg NameAnswer) (ho : o = .put key data) (hp : t.prog = some p)
      (hsteps : Steps (KeepsTree name) p (· = .other)) (htree : s.hasTree name = true)

theorem Shared.mono (htree : s.hasTree name = true → s'.hasTree name = true) (h : Shared c front name s o t) :
    Shared c front name s' o t := by
  cases h with
  | waits hserved ho hp => exact .waits hserved ho hp
  | writes key data p ho hp hsteps ht => exact .writes key data p ho hp hsteps (htree ht)

/-- A create that waits beside the operation `o`. -/
def WaitsBeside (c : Config) (front : Front) (name : Bytes) (o o' : NameOp) (t : Thread Store Choice ℕ NameAnswer) : Prop :=
  t.done ∨ o = .createNamespace ∧ o' = .createNamespace ∧ front = .resp ∧ t.prog = some (o'.prog c name)

/-- Where a run on a name is: row and tree agree and what is under way goes on in any order, all
of it beside one operation `r`, or one operation is under way and beside it only creates that will be refused. -/
inductive Phase (c : Config) (front : Front) (name : Bytes) (ops : List NameOp)
    (w : Pool Store Choice ℕ NameAnswer) : Prop
  | shared (r : NameOp) (whole : front = .resp → Whole name w.st)
      (threads : ∀ i o t, At ops w i o t → t.done ∨ r.beside o = true ∧ Shared c front name w.st o t)
  | lone (i : ℕ) (o : NameOp) (t : Thread Store Choice ℕ NameAnswer) (p : StoreProg NameAnswer)
      (hat : At ops w i o t) (hbusy : ¬ t.done) (hp : t.prog = some p)
      (halone : Alone Choice.Fine (Lone name o) p (Promised front name) w.st)
      (hclaim : o.beside o = true → o = .createNamespace ∧ (w.st.buckets.get name).isSome)
      (others : ∀ j o' t', j ≠ i → At ops w j o' t' → WaitsBeside c front name o o' t')

/-- An operation that is alone: under way, or done with what it promised. -/
theorem Phase.of_alone {i : ℕ} {p : StoreProg NameAnswer} (hat : At ops w i o t)
    (hp : t.prog = some p) (halone : Alone Choice.Fine (Lone name o) p (Promised front name) w.st)
    (hclaim : ¬ t.done → o.beside o = true → o = .createNamespace ∧ (w.st.buckets.get name).isSome)
    (others : ∀ j o' t', j ≠ i → At ops w j o' t' → WaitsBeside c front name o o' t') :
    Phase c front name ops w := by
  by_cases hdone : t.done
  swap
  · exact .lone i o t p hat hdone hp halone (hclaim hdone) others
  have hwhole : front = .resp → Whole name w.st := by
    rcases hdone with hnone | hret
    · rw [hp] at hnone; cases hnone
    · obtain ⟨a, ha⟩ := Thread.returned_iff.1 hret
      cases hp.symm.trans ha
      exact halone.1
  refine .shared .createNamespace hwhole fun j o' t' hj => ?_
  by_cases hne : j = i
  · subst hne
    obtain ⟨rfl, rfl⟩ := hat.unique hj
    exact .inl hdone
  · refine (others j o' t' hne hj).imp_right ?_
    rintro ⟨-, rfl, rfl, hprog⟩
    exact ⟨rfl, .waits rfl rfl hprog⟩

/-- Nothing is under way: row and tree agree. -/
theorem Phase.quiet (h : Phase c front name ops w) (hdone : ∀ t ∈ w.threads, t.done) :
    front = .resp → Whole name w.st := by
  cases h with
  | shared r whole _ => exact whole
  | lone i o t p hat hbusy => exact absurd (hdone t (List.mem_of_getElem? hat.2)) hbusy

/-- A thread that took a step and stays among the others. -/
theorem Phase.of_step {i : ℕ} {r : NameOp} (hat : At ops w i o t) (hwhole : front = .resp → Whole name s')
    (htree : w.st.hasTree name = true → s'.hasTree name = true)
    (hthreads : ∀ j o t, At ops w j o t → t.done ∨ r.beside o = true ∧ Shared c front name w.st o t)
    (hself : t'.done ∨ r.beside o = true ∧ Shared c front name s' o t') :
    Phase c front name ops ⟨s', w.threads.set i t'⟩ := by
  refine .shared r hwhole fun j o' u hj => ?_
  by_cases hne : j = i
  · subst hne
    obtain ⟨rfl, rfl⟩ := hj.unique hat.set
    exact hself
  · exact (hthreads j o' u ((At.set_ne hne).1 hj)).imp_right (.imp_right (·.mono htree))

/-- **One step of an orderly run.** -/
theorem Phase.step {i : ℕ} (hw : Phase c front name ops w) (he : e.Fine)
    (hat : At ops w i o t) (hst : stepThread free e w.st t = some (s', t')) :
    ¬ Resets name w.st s' ∧ Phase c front name ops ⟨s', w.threads.set i t'⟩ ∧
      (t'.prog = some (.ret .created) → Fresh front name s') := by
  cases hw with
  | shared r hwhole hthreads =>
    obtain ⟨hr, hshared⟩ := (hthreads i o t hat).resolve_left (not_done_of_step hst)
    cases hshared with
    | writes key data p hput hp hsteps htree =>
      obtain ⟨hkept, p', hp', hsteps'⟩ := steps_stepThread (fun s => ⟨resets_irrefl s, rfl, id⟩) hp hsteps hst
      refine ⟨hkept.1, .of_step hat (fun hf => hkept.whole htree (hwhole hf)) hkept.2.2 hthreads
        (.inr ⟨hr, .writes key data p' hput hp' hsteps' (hkept.2.2 htree)⟩), fun hret => ?_⟩
      cases hp'.symm.trans hret
      cases hsteps'
    | waits hserved hbeside hp =>
      rcases NameOp.beside_eq hbeside with ⟨rfl, -⟩ | ⟨key, data, rfl⟩
      · -- a create of the namespace: it takes the row and goes on alone, or it is refused
        obtain rfl : front = .resp := by simpa [NameOp.servedBy] using hserved
        obtain ⟨hlone, p', hp', halone⟩ := alone_stepThread (fun s => ⟨resets_irrefl s, fun _ => id⟩) hp
          (nameOp_alone c hserved nofun hwhole) he hst
        refine ⟨hlone.1, .of_alone hat.set hp' halone (fun hbusy _ => ⟨rfl, ?_⟩) fun j o' u hne hu => ?_, fun hret => ?_⟩
        · rcases create_first he hp hst with ⟨-, -, hret⟩ | ⟨-, hrow⟩
          · exact absurd (.inr (Thread.returned_iff.2 ⟨_, hret⟩)) hbusy
          · exact hrow
        · obtain rfl : r = .createNamespace := by cases r <;> first | rfl | cases hr
          refine (hthreads j o' u ((At.set_ne hne).1 hu)).imp_right fun ⟨hr', hu'⟩ => ?_
          obtain rfl : o' = .createNamespace := by cases o' <;> first | rfl | cases hr'
          cases hu' with
          | waits _ _ hu' => exact ⟨rfl, rfl, rfl, hu'⟩
          | writes _ _ _ h => cases h
        · cases hp'.symm.trans hret
          exact halone.2 rfl
      · -- a write: it found the tree, or it ends
        obtain ⟨rfl, p', hp', h | h⟩ := put_first hp hst
        · exact ⟨resets_irrefl _, .of_step hat hwhole id hthreads (.inr ⟨hr, .writes key data p' rfl hp' h.2 h.1⟩), fun hret => by
            cases hp'.symm.trans hret; cases h.2⟩
        · subst h
          exact ⟨resets_irrefl _, .of_step hat hwhole id hthreads (.inl (.inr (Thread.returned_iff.2 ⟨_, hp'⟩))),
            fun hret => by cases hp'.symm.trans hret⟩
  | lone j oj u p hu hbusy hp halone hclaim others =>
    by_cases hij : i = j
    · subst hij
      obtain ⟨rfl, rfl⟩ := hu.unique hat
      obtain ⟨hlone, p', hp', halone'⟩ := alone_stepThread (fun s => ⟨resets_irrefl s, fun _ => id⟩) hp halone he hst
      refine ⟨hlone.1, .of_alone hat.set hp' halone' (fun _ h => ?_) fun j o' u hne hu =>
        others j o' u hne ((At.set_ne hne).1 hu), fun hret => ?_⟩
      · obtain ⟨rfl, hrow⟩ := hclaim h
        exact ⟨rfl, hlone.2 rfl hrow⟩
      · cases hp'.symm.trans hret
        exact halone'.2 rfl
    · -- a create beside the one that has the row
      rcases others i o t hij hat with h | ⟨rfl, rfl, rfl, hprog⟩
      · exact absurd h (not_done_of_step hst)
      rcases create_first he hprog hst with ⟨-, rfl, hret⟩ | ⟨hrow, -⟩
      swap
      · rw [hrow] at hclaim; cases (hclaim rfl).2
      refine ⟨resets_irrefl _, .lone j _ u p ((At.set_ne (Ne.symm hij)).2 hu) hbusy hp halone hclaim
        fun k o' v hne hv => ?_, fun hcreated => by cases hret.symm.trans hcreated⟩
      by_cases hki : k = i
      · subst hki
        obtain ⟨-, rfl⟩ := hv.unique hat.set
        exact .inl (.inr (Thread.returned_iff.2 ⟨_, hret⟩))
      · exact others k o' v hne ((At.set_ne hki).1 hv)

theorem NameOp.not_beside {o : NameOp} (h : ¬ o.beside o = true) (o' : NameOp) : ¬ o.beside o' = true := by
  cases o <;> cases o' <;> simp [beside] at h ⊢

/-- An operation is started. -/
theorem Phase.spawn (hlen : ops.length = w.threads.length) (hw : Phase c front name ops w)
    (hok : Orderly front name ops w (.spawn o)) :
    Phase c front name (ops ++ [o]) ⟨w.st, w.threads ++ [⟨some (o.prog c name), []⟩]⟩ := by
  obtain ⟨hserved, hok⟩ := hok
  have hnew : At (ops ++ [o]) ⟨w.st, w.threads ++ [⟨some (o.prog c name), []⟩]⟩ w.threads.length o ⟨some (o.prog c name), []⟩ :=
    ⟨by simp [← hlen], by simp⟩
  cases hw with
  | shared r hwhole hthreads =>
    by_cases hbeside : o.beside o = true
    · refine .shared o hwhole fun j o' u hu => ?_
      rcases hu.append hlen with ⟨-, rfl, rfl⟩ | hu
      · exact .inr ⟨hbeside, .waits hserved hbeside rfl⟩
      · exact (hthreads j o' u hu).elim .inl fun h => (hok j o' u hu).imp_right (⟨·, h.2⟩)
    · have hput : ∀ key data, o ≠ .put key data := by rintro key data rfl; exact hbeside rfl
      refine .of_alone hnew rfl (nameOp_alone c hserved hput hwhole) (fun _ h => absurd h hbeside) fun j o' u hne hu => ?_
      rcases hu.append hlen with ⟨rfl, -, -⟩ | hu
      · exact absurd rfl hne
      · exact .inl ((hok j o' u hu).resolve_right (NameOp.not_beside hbeside o'))
  | lone i oi t p hat hbusy hp halone hclaim others =>
    have hbeside := (hok i oi t hat).resolve_left hbusy
    have hlt := (List.getElem?_eq_some_iff.1 hat.2).1
    refine .lone i oi t p ⟨?_, ?_⟩ hbusy hp halone hclaim fun j o' u hne hu => ?_
    · exact (List.getElem?_append_left (hlen ▸ hlt)).trans hat.1
    · exact (List.getElem?_append_left hlt).trans hat.2
    rcases hu.append hlen with ⟨-, rfl, rfl⟩ | hu
    swap
    · exact others j o' u hne hu
    rcases NameOp.beside_eq hbeside with ⟨rfl, rfl⟩ | ⟨key, data, rfl⟩
    · exact .inr ⟨rfl, rfl, by simpa [NameOp.servedBy] using hserved, rfl⟩
    · cases oi with
      | put key' data' => cases (hclaim rfl).1
      | _ => cases hbeside

/-- **Every pool of an orderly run is in a phase.** -/
theorem Started.phase {s0 : Store} (h0 : front = .resp → Whole name s0)
    (h : Started (nameSystem c front name) (Orderly front name) s0 ops w) : Phase c front name ops w := by
  induction h with
  | start => exact .shared .createNamespace h0 fun i o t h => (by cases h.1)
  | stop i _ hok => exact hok.elim
  | spawn o h hok ih => exact ih.spawn h.length hok
  | run i e h hok hm ih =>
    obtain ⟨o, t, s', t', hat, hst, rfl⟩ := h.next_run hm
    exact (ih.step hok hat hst).2.1
  | @crash ops w _ hok ih =>
    refine .shared .createNamespace (fun hf => ?_) fun i o t h => ?_
    · subst hf
      exact whole_reopen (hok rfl)
    · obtain ⟨_, -, rfl⟩ := List.mem_map.1 (List.mem_of_getElem? h.2)
      exact .inl (.inl rfl)

end Phases

/-- **The life of a name in an orderly run.** With nothing under way, the name is not refused
as existing while it is reported as not found; a create that says so leaves it usable, with
no record and its counter at zero; and no step resets the counter of a bucket that holds
records. -/
theorem names_sound (c : Config) (front : Front) (name : Bytes) {s0 : Store} (h0 : front = .resp → Whole name s0)
    {ops : List NameOp} {w : Pool Store Choice ℕ NameAnswer}
    (h : Pool.Started (nameSystem c front name) (Orderly front name) s0 ops w) :
    ((∀ t ∈ w.threads, t.done) → ¬ (RefusedAsExisting front name w.st ∧ ReportedNotFound front name w.st)) ∧
      ∀ i e w', e.Fine → w.next (nameSystem c front name) (.run i e) = some w' →
        ¬ Resets name w.st w'.st ∧
          ∀ t, w'.threads[i]? = some t → t.prog = some (.ret .created) →
            Usable front name w'.st ∧ (w'.st.tree name).entries = [] ∧ w'.st.usage.get name = some (.record 0) := by
  have hphase := Started.phase h0 h
  refine ⟨fun hdone => not_stuck (hphase.quiet hdone), fun i e w' he hm => ?_⟩
  obtain ⟨o, t, s', t', hat, hst, rfl⟩ := h.next_run hm
  obtain ⟨hresets, -, hreturned⟩ := hphase.step he hat hst
  refine ⟨hresets, fun u hu hret => ?_⟩
  cases hat.set.2.symm.trans hu
  have hfresh := hreturned hret
  refine ⟨usable_of_fresh hfresh, ?_, hfresh.usage⟩
  unfold Store.tree
  rw [hfresh.tree]
  rfl

/-- Two creates of the namespace `n` under way together: the second is refused between the first
one's claim of the row and its last step. -/
theorem names_after_creates : ∃ w w',
    Pool.Started (nameSystem abcConfig .resp [110]) (Orderly .resp [110]) Store.empty [.createNamespace, .createNamespace] w ∧
    (w.threads.map fun t => t.returned) = [false, true] ∧
    w.next (nameSystem abcConfig .resp [110]) (.run 0 steady) = some w' ∧
    w'.st.buckets.keys = [[110]] ∧ Usable .resp [110] w'.st := by
  have h0 : Pool.Started (nameSystem abcConfig .resp [110]) (Orderly .resp [110]) Store.empty [] (Pool.start Store.empty) :=
    .start
  have h1 := h0.spawn .createNamespace ⟨rfl, fun i o t h => (by cases h.1)⟩
  have h2 := h1.spawn .createNamespace ⟨rfl, fun i o t h => .inr (by
    rw [List.mem_singleton.1 (List.mem_of_getElem? h.1)]; rfl)⟩
  have h4 := Pool.Started.run 1 steady (.run 0 steady h2 steady_fine rfl) steady_fine rfl
  have h6 := Pool.Started.run 0 steady (.run 0 steady h4 steady_fine rfl) steady_fine rfl
  have hstart : Front.resp = .resp → Whole [110] Store.empty := fun _ => rfl
  have hsound := (names_sound abcConfig .resp [110] hstart h6).2 0 steady _ steady_fine rfl
  exact ⟨_, _, h6, rfl, rfl, rfl, (hsound.2 _ rfl rfl).1⟩

/-- The RESP server is killed between the commit of a row and the creation of its tree: after
the next open the name is refused as existing, and not found. -/
theorem stuck_name : ∃ w, (Pool.start Store.empty).exec (nameSystem abcConfig .resp [110])
      [.spawn .createNamespace, .run 0 steady, .crash] = some w ∧
    RefusedAsExisting .resp [110] w.st ∧ ReportedNotFound .resp [110] w.st :=
  ⟨_, rfl, rfl, rfl⟩

/-- Two creates that both saw no tree, with a record written between: the counter is zero. -/
example : ((Pool.start Store.empty).exec (nameSystem abcConfig .s3 [98])
    ([.spawn .createBucket, .spawn .createBucket, .run 0 steady, .run 1 steady] ++ List.replicate 4 (.run 0 steady) ++
      .spawn (.put [107] abc) :: List.replicate 3 (.run 2 steady) ++ List.replicate 4 (.run 1 steady))).map
    (fun w => ((w.st.tree [98]).keys, w.st.usage.get [98])) = some ([[107]], some (.record 0)) := by decide +kernel

end QssStorage
