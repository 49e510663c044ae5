import QssStorage.Proof.PartRights

/-!
# Parts are consumed once

Every operation of a store keeps `PartInv`, whatever the others do between its steps: what a
task takes it owns until it has noted what became of it, and a task that is stopped keeps
what it owns for good.

* `parts_consumed_once`: **in every reachable state each part was released or inherited at
  most once, and never while it was stored.**
-/

namespace QssStorage

open Conc Prog List

variable {s s' : Store} {bucket key uploadId : Bytes} {g : Rights}
variable {new : Option Object} {k : Bytes} {p : PartInstance} {ns : List ℤ}
variable {parts : List (PartInstance × MultiPart)} {noting : List Event} {r : Option (PartInstance × MultiPart)}

/-! ## One step -/

/-- A step accounts for the part records it takes away: each was reaped, with the blocks it
named, or claimed. -/
def PartsAccounted (s s' : Store) : Prop :=
  ∃ evs, s'.log = s.log ++ evs ∧ (∀ p blocks, .partReaped p blocks ∈ evs → p = s.partInstance p.key ∧
      (∃ part, s.parts.get p.key = some (.record part) ∧ part.blocks = blocks) ∧ s'.parts.get p.key = none) ∧
    ∀ k, (s.parts.get k).isSome → s'.parts.get k = none →
      (∃ blocks, .partReaped (s.partInstance k) blocks ∈ evs) ∨ ∃ ps, .partsClaimed ps ∈ evs ∧ s.partInstance k ∈ ps

/-- A step that takes no part record away. -/
theorem accounted_of_kept {evs : List Event} (hlog : s'.log = s.log ++ evs)
    (hevs : ∀ p blocks, .partReaped p blocks ∉ evs) (hkept : ∀ k, (s.parts.get k).isSome → (s'.parts.get k).isSome) :
    PartsAccounted s s' := by
  refine ⟨evs, hlog, fun p blocks h => absurd h (hevs p blocks), fun k hk hk' => ?_⟩
  have := hkept k hk
  rw [hk'] at this
  cases this

theorem PartsAccounted.refl (s : Store) : PartsAccounted s s :=
  accounted_of_kept (append_nil _).symm (fun _ _ => nofun) fun _ h => h

theorem BlockStep.accounted (h : BlockStep s s') : PartsAccounted s s' := by
  obtain ⟨evs, hlog, hevs⟩ := h.log
  exact accounted_of_kept hlog (fun p blocks hm => by cases hevs _ hm) fun k hk => by rw [h.parts]; exact hk

theorem RecordTx.accounted (h : RecordTx bucket key new noting s s')
    (hnoting : ∀ p blocks, .partReaped p blocks ∉ noting) :
    PartsAccounted s s' := by
  obtain ⟨old, usage, -, -, rfl⟩ := h
  exact accounted_of_kept rfl hnoting fun k hk => hk

/-- What a step of a store accounts for. -/
structure StoreStep (s s' : Store) : Prop where
  accounted : PartsAccounted s s'
  records : RecordsMove s s'

theorem StoreStep.refl (s : Store) : StoreStep s s := ⟨.refl s, .inl ⟨rfl, rfl, rfl⟩⟩

theorem BlockStep.storeStep (h : BlockStep s s') : StoreStep s s' := ⟨h.accounted, h.recordsMove⟩

theorem RecordTx.storeStep (h : RecordTx bucket key new noting s s')
    (hnoting : ∀ p blocks, .partReaped p blocks ∉ noting) : StoreStep s s' :=
  ⟨h.accounted hnoting, .inr ⟨bucket, key, new, noting, h⟩⟩

/-! ## Programs -/

/-- The parts of a store and who owns them. No lock is involved. -/
def partRights : Protocol Store Choice ℕ Rights := ⟨fun _ _ => True, fun _ => True, 0, PartInv⟩

/-- A step that keeps the invariant, hands nothing over and takes no part away. -/
structure Keeps (s s' : Store) : Prop where
  inv : ∀ g, PartInv s g → PartInv s' g
  step : StoreStep s s'

theorem Keeps.refl (s : Store) : Keeps s s := ⟨fun _ h => h, .refl s⟩

theorem BlockStep.keeps (h : BlockStep s s') : Keeps s s' := by
  refine ⟨fun g hg => ?_, h.storeStep⟩
  obtain ⟨evs, hlog, hevs⟩ := h.log
  exact hg.still h.uploads h.parts (by rw [hlog]; exact stillLog_append _ fun ev hev => Event.still_of_ofBlocks (hevs ev hev))

theorem RecordTx.keeps (h : RecordTx bucket key new [] s s') : Keeps s s' := by
  refine ⟨fun g hg => ?_, h.storeStep fun _ _ => nofun⟩
  obtain ⟨old, usage, -, -, rfl⟩ := h
  exact hg.still rfl rfl (stillLog_append _ nofun)

/-- Run by a task that owns nothing, the program keeps the invariant. -/
def KeepsParts {α : Type} (p : StoreProg α) : Prop := wp partRights p.lockless (fun _ _ => True) 0

/-- It does, and each of its steps accounts for what it takes away. -/
structure Tame {α : Type} (p : StoreProg α) : Prop where
  inv : KeepsParts p
  steps : Steps StoreStep p fun _ => True

section Tame

variable {α β : Type}

/-- What a task owns besides does not matter. -/
theorem KeepsParts.wp {p : StoreProg α} (h : KeepsParts p) (g : Rights) :
    Conc.wp partRights p.lockless (fun _ _ => True) g := by
  have hf := wp_frame g h
  rw [zero_add] at hf
  exact wp_mono (fun _ _ _ => trivial) hf

theorem KeepsParts.bind {p : StoreProg α} {q : α → StoreProg β} (hp : KeepsParts p) (hq : ∀ a, KeepsParts (q a)) :
    KeepsParts (p.bind q) := by
  unfold KeepsParts
  rw [lockless_bind]
  exact wp_bind (wp_mono (fun a g _ => (hq a).wp g) hp)

theorem KeepsParts.andThen {ξ : Type} {p : StoreProg (Except ξ α)} {q : α → StoreProg (Except ξ β)}
    (hp : KeepsParts p) (hq : ∀ a, KeepsParts (q a)) : KeepsParts (p.andThen q) := by
  refine hp.bind fun r => ?_
  cases r with
  | ok a => exact hq a
  | error e => exact trivial

theorem Tame.ret (a : α) : Tame (.ret a : StoreProg α) := ⟨trivial, trivial⟩

theorem wp_keeps {p : StoreProg α} (h : Steps Keeps p fun _ => True) (g : Rights) :
    Conc.wp partRights p.lockless (fun _ g' => g' = g) g :=
  wp_mono (fun _ _ h => h.2) (wp_of_steps (fun _ _ g hk hi => hk.inv g hi) h)

theorem Tame.of_steps {p : StoreProg α} (h : Steps Keeps p fun _ => True) : Tame p :=
  ⟨wp_mono (fun _ _ _ => trivial) (wp_keeps h 0), h.mono (fun _ _ h => h.step) fun _ h => h⟩

theorem Tame.bind {p : StoreProg α} {q : α → StoreProg β} (hp : Tame p) (hq : ∀ a, Tame (q a)) : Tame (p.bind q) :=
  ⟨hp.inv.bind fun a => (hq a).inv, Steps.seq hp.steps fun a => (hq a).steps⟩

theorem inherits_tame : Inherits fun α (p : StoreProg α) => Tame p := ⟨fun h => .of_steps (h.steps .refl), Tame.bind⟩

theorem wp_tryStore {p : StoreProg (Except Err α)} {Q : Except S3Err α → Rights → Prop}
    (h : Conc.wp partRights p.lockless
      (fun r g => (∀ a, r = .ok a → Q (.ok a) g) ∧ ∀ e, r = .error e → Q (.error (.internal e)) g) g) :
    Conc.wp partRights (tryStore p).lockless Q g := by
  unfold tryStore
  rw [lockless_bind]
  refine wp_bind (wp_mono (fun r g hr => ?_) h)
  cases r with
  | ok a => exact hr.1 a rfl
  | error e => exact hr.2 e rfl

end Tame

variable (c : Config)

theorem createUpload_tame (bucket key uploadId : Bytes) : Tame (createUpload bucket key uploadId) := by
  refine .of_steps (Steps.seq (readClock_steps .refl) fun now => transact_steps' .refl fun s _ s' h => ?_)
  cases h
  exact ⟨fun g hg => hg.created _ _, accounted_of_kept rfl (fun _ _ => by simp) fun _ h => h, .inl ⟨rfl, rfl, rfl⟩⟩

theorem insertMultipartPart_tame (part : MultiPart) : Tame (insertMultipartPart part) := by
  refine .of_steps (transact_steps' .refl fun s _ s' h => ?_)
  cases h
  refine ⟨fun g hg => hg.storedPart _ _, accounted_of_kept rfl (fun _ _ => by simp) fun k hk => ?_, .inl ⟨rfl, rfl, rfl⟩⟩
  rw [OrdMap.get_insert]
  split
  · rfl
  · exact hk

theorem takeUpload_keeps {u : Option UploadRecord} (h : takeUpload k s = .ok (u, s')) : Keeps s s' := by
  obtain ⟨-, rfl⟩ | ⟨u, -, hu, rfl⟩ := takeUpload_cases h
  · exact .refl _
  · exact ⟨fun g hg => hg.won (by rw [hu]; rfl), accounted_of_kept rfl (fun _ _ => by simp) fun _ h => h,
      .inl ⟨rfl, rfl, rfl⟩⟩

theorem claimUpload_tame (bucket key uploadId : Bytes) : Tame (claimUpload bucket key uploadId) :=
  .of_steps (transact_steps' .refl fun _ _ _ h => takeUpload_keeps h)

/-! ## Reaping -/

/-- A transaction that hands something over. -/
theorem wp_handover {α : Type} {body : Store → Except Err (α × Store)} {f : α → Rights}
    {Q : Except Err α → Rights → Prop}
    (hbody : ∀ s r a s', PartInv s (g + r) → body s = .ok (a, s') → PartInv s' (f a + r))
    (hok : ∀ a, Q (.ok a) (f a)) (herr : ∀ e, Q (.error e) g) (happlied : ∀ e a, Q (.error e) (f a)) :
    wp partRights (transact body) Q g := by
  intro s r hi e _ v s' hf
  dsimp only at hf
  split at hf
  · cases hf; exact fun _ => ⟨g, rfl, hi, herr _⟩
  · rename_i a s1 hb _; cases hf; exact fun _ => ⟨f a, rfl, hbody _ _ _ _ hi hb, hok a⟩
  · cases hf; exact fun _ => ⟨g, rfl, hi, herr _⟩
  · rename_i a s1 hb _; cases hf; exact fun _ => ⟨f a, rfl, hbody _ _ _ _ hi hb, happlied _ a⟩

theorem lockless_releaseBlocks (owner : Owner) (id : BlockId) (ids : List BlockId) :
    (releaseBlocks c owner (id :: ids)).lockless =
      (decrementOneBlock owner id).lockless.bind fun _ => (releaseBlocks c owner ids).lockless := by
  simp only [releaseBlocks, bind_eq, lockless_bind, lockless_lock, lockless_unlock, ret_bind]

/-- **A reaper releases what it owns**, one reference after the other. -/
theorem releaseParts_wp : ∀ {ids : List BlockId} {g : Rights}, (ids.map (Prod.mk p) : Multiset _) ≤ g.2 →
    wp partRights (releaseBlocks c (.part p) ids).lockless (fun _ _ => True) g := by
  intro ids
  induction ids with
  | nil => exact fun _ => trivial
  | cons id ids ih =>
    intro g hg
    have hmem : (p, id) ∈ g.2 := Multiset.mem_of_le hg (by simp)
    have hrest : (ids.map (Prod.mk p) : Multiset _) ≤ g.2.erase (p, id) := by
      have := Multiset.erase_le_erase (p, id) hg
      rwa [map_cons, ← Multiset.cons_coe, Multiset.erase_cons_head] at this
    have hsplit : g = (0, {(p, id)}) + (g.1, g.2.erase (p, id)) := by
      refine Prod.ext ?_ ?_
      · exact (zero_add _).symm
      · exact (Multiset.cons_erase hmem).symm
    -- after the decrement the reference is spent, or will never be released
    have hdec : wp partRights (decrementOneBlock (.part p) id).lockless
        (fun _ g' => (ids.map (Prod.mk p) : Multiset _) ≤ g'.2) g := by
      have hle : (ids.map (Prod.mk p) : Multiset _) ≤ g.2 := hrest.trans (Multiset.erase_le _ _)
      unfold decrementOneBlock
      rw [lockless_andThen]
      refine wp_andThen (wp_handover (f := fun r => if r = .missing then g else (g.1, g.2.erase (p, id))) ?_ ?_ ?_ ?_)
      · intro s r a s' hi h
        rcases decrementTx_only h with ⟨hm, hb⟩ | ⟨hm, m, rfl⟩
        · rw [if_pos hm]; exact hb.blockStep.keeps.inv _ hi
        · rw [if_neg hm]
          rw [hsplit, add_assoc] at hi
          exact hi.release.still rfl rfl (.refl _)
      · intro r
        refine ⟨fun v hv => ?_, nofun⟩
        cases hv
        have hg' : (ids.map (Prod.mk p) : Multiset _) ≤ (if r = .missing then g else (g.1, g.2.erase (p, id))).2 := by
          split
          · exact hle
          · exact hrest
        cases r with
        | removed block =>
          refine wp_mono (fun a g'' h => ?_)
            (wp_keeps ((unlinkBlock_steps id block.depth).mono (fun _ _ h => h.blockStep.keeps) fun _ h => h) _)
          rw [h]
          exact hg'
        | decremented block | missing => exact hg'
      · exact fun e => ⟨nofun, fun _ _ => hle⟩
      · refine fun e r => ⟨nofun, fun _ _ => ?_⟩
        split
        · exact hle
        · exact hrest
    rw [lockless_releaseBlocks]
    exact wp_bind (wp_mono (fun _ g' hg' => ih hg') hdec)

/-- The transaction of a reaper. -/
theorem reapTx_inv (hi : PartInv s g) (h : reapTx k s = .ok (r, s')) :
    PartInv s' ((0, (r.map fun x => (x.2.blocks.map (Prod.mk x.1) : Multiset _)).getD 0) + g) := by
  obtain ⟨rfl, rfl⟩ | ⟨part, hk, rfl, rfl⟩ := reapTx_cases h
  · rw [← zero_add g] at hi
    exact hi
  · exact (hi.take (by rw [hk]; rfl)).reap part.blocks

theorem reapTx_step (h : reapTx k s = .ok (r, s')) : StoreStep s s' := by
  obtain ⟨-, rfl⟩ | ⟨part, hk, -, rfl⟩ := reapTx_cases h
  · exact .refl _
  refine ⟨⟨[_], rfl, fun p blocks hp => ?_, fun k' hk' hgone => .inl ⟨part.blocks, ?_⟩⟩, .inl ⟨rfl, rfl, rfl⟩⟩
  · cases mem_singleton.1 hp
    exact ⟨rfl, ⟨part, hk, rfl⟩, OrdMap.get_erase_self _ _⟩
  have heq : k' = k := by
    by_contra hne
    rw [OrdMap.get_erase_of_ne _ hne] at hgone
    rw [hgone] at hk'
    cases hk'
  rw [heq]
  exact mem_singleton_self _

theorem reapPart_steps (k : Bytes) : Steps StoreStep (reapPart c k) fun _ => True := by
  refine Steps.thenTrue (transact_steps' .refl fun _ _ _ h => reapTx_step h) fun r => ?_
  cases r with
  | none => exact trivial
  | some x =>
    refine Steps.seq (releaseBlocks_steps c (fun _ _ h => h.blockStep.storeStep) (fun s id blocks => ?_) _) fun _ => trivial
    exact ⟨accounted_of_kept rfl (fun _ _ => by simp) fun _ h => h, .inl ⟨rfl, rfl, rfl⟩⟩

theorem reapPart_tame (k : Bytes) : Tame (reapPart c k) := by
  refine ⟨?_, reapPart_steps c k⟩
  unfold KeepsParts reapPart Reads.reapPart
  rw [lockless_andThen]
  refine wp_andThen (wp_handover
    (f := fun r => (0, (r.map fun x => (x.2.blocks.map (Prod.mk x.1) : Multiset _)).getD 0)) ?_ ?_ ?_ ?_)
  · intro s r a s' hi h
    rw [zero_add] at hi
    exact reapTx_inv hi h
  · intro r
    refine ⟨fun v hv => ?_, nofun⟩
    cases hv
    cases r with
    | none => exact trivial
    | some x =>
      rw [lockless_bind]
      exact wp_bind (wp_mono (fun _ _ _ => trivial) (releaseParts_wp c le_rfl))
  · exact fun e => ⟨nofun, fun _ _ => trivial⟩
  · exact fun e r => ⟨nofun, fun _ _ => trivial⟩

theorem sweepStaleUploads_tame (fuel ttl : ℕ) : Tame (sweepStaleUploads c fuel ttl) :=
  inherits_sweepStaleUploads inherits_tame c claimUpload_tame (reapPart_tame c) fuel ttl

theorem uploadPart_tame (bucket key uploadId : Bytes) (partNumber : ℤ) (body : Option (List (Option Bytes)))
    (contentLength : Option ℤ) (contentMd5 : Option (Option Bytes)) :
    Tame (uploadPart c bucket key uploadId partNumber body contentLength contentMd5) :=
  inherits_uploadPart inherits_tame c bucket key uploadId partNumber contentLength contentMd5
    (fun _ _ => .of_steps ((storeObject_steps c _).mono (fun _ _ h => h.keeps) fun _ h => h)) insertMultipartPart_tame

/-! ## Claiming -/

/-- What taking the parts of a claim does: each was there, once, and is owned now. -/
theorem Taken.partInv (h : Taken bucket key uploadId ns s parts s') :
    ∀ {g : Rights}, PartInv s g → PartInv s' (((parts.map Prod.fst : Multiset _), 0) + g) := by
  induction h with
  | nil s =>
    intro g hi
    rw [← zero_add g] at hi
    exact hi
  | cons hget _ ih =>
    intro g hi
    have htaken := ih (hi.take (by rw [hget]; rfl))
    rw [← add_assoc] at htaken
    convert htaken using 2
    refine Prod.ext ?_ (zero_add _).symm
    rw [map_cons, ← Multiset.cons_coe, Prod.fst_add, ← Multiset.singleton_add, add_comm]

/-- What a claim is left with. -/
def UploadClaim.rights : UploadClaim → Rights
  | .claimed _ parts => (parts.map Prod.fst, 0)
  | .noUpload => 0
  | .missingPart _ => 0

theorem claimTx_inv {r : UploadClaim} (hi : PartInv s g) (h : claimTx bucket key uploadId ns s = .ok (r, s')) :
    PartInv s' (r.rights + g) := by
  obtain ⟨hno, rfl⟩ | ⟨u, parts, s1, hu, htaken, rfl, rfl⟩ := claimTx_cases h
  · have hnone : r.rights = 0 := by
      cases r with
      | claimed u parts => exact absurd rfl (hno u parts)
      | noUpload | missingPart n => rfl
    rw [hnone, zero_add]
    exact hi
  · refine (htaken.partInv (hi.won (by rw [hu]; rfl))).still rfl rfl (stillLog_append _ fun ev hev => ?_)
    obtain rfl := mem_singleton.1 hev
    exact ⟨rfl, rfl, rfl, fun _ _ => rfl, nofun⟩

/-- **An object record inherits what its task claimed.** -/
theorem inherit_wp (bucket key : Bytes) (size : ℕ) (hash : Bytes) (data : ObjectData) (ps : List PartInstance) :
    wp partRights (createObjectMeta c bucket key size hash data [.partsInherited ps]).lockless (fun _ _ => True)
      (ps, 0) := by
  unfold createObjectMeta
  rw [lockless_bind]
  refine wp_bind (wp_mono (fun now g hg => ?_) (wp_keeps (readClock_steps .refl) _))
  subst hg
  rw [lockless_andThen]
  refine wp_andThen (wp_handover (f := fun _ => 0) ?_ ?_ ?_ ?_)
  · intro s r a s' hi h
    obtain ⟨usage, -, -, rfl⟩ := replaceObjectTx_ok h
    rw [zero_add]
    exact hi.inherit.still rfl rfl (.refl _)
  · intro old
    refine ⟨fun v hv => ?_, nofun⟩
    cases hv
    cases old with
    | none => exact trivial
    | some old =>
      have hrel : Tame (releaseBlocks c .object old.blocks) :=
        .of_steps ((releaseOwn_steps c (fun _ => rfl) _).mono (fun _ _ h => h.blockStep.keeps) fun _ h => h)
      exact (hrel.bind fun _ => .ret _).inv
  · exact fun e => ⟨nofun, fun _ _ => trivial⟩
  · exact fun e a => ⟨nofun, fun _ _ => trivial⟩

/-- The claim of a complete: the upload was there to be won, every part it names was there,
each named once, and these records are what goes. -/
structure Claims (bucket key uploadId : Bytes) (ns : List ℤ) (s s' : Store) : Prop where
  upload : ∃ u, s.uploads.get (uploadKey bucket key uploadId) = some (.record u)
  parts : ∀ n ∈ ns, ∃ part, s.parts.get (partKey bucket key uploadId n) = some (.record part)
  nodup : ns.Nodup
  taken : s' = { s with
    uploads := s.uploads.erase (uploadKey bucket key uploadId)
    parts := (ns.map (partKey bucket key uploadId)).foldl OrdMap.erase s.parts
    log := s.log ++ [.uploadWon (uploadKey bucket key uploadId),
      .partsClaimed (ns.map fun n => s.partInstance (partKey bucket key uploadId n))] }

theorem Taken.eq (h : Taken bucket key uploadId ns s parts s') :
    s' = { s with parts := (ns.map (partKey bucket key uploadId)).foldl OrdMap.erase s.parts } ∧
      parts.map Prod.fst = ns.map fun n => s.partInstance (partKey bucket key uploadId n) := by
  induction h with
  | nil s => exact ⟨rfl, rfl⟩
  | cons hget _ ih =>
    obtain ⟨rfl, hinst⟩ := ih
    refine ⟨rfl, ?_⟩
    rw [map_cons, map_cons, hinst]
    rfl

/-- What a claim takes was there, under a key that comes once. -/
theorem Taken.there (h : Taken bucket key uploadId ns s parts s') : (ns.map (partKey bucket key uploadId)).Nodup ∧
      ∀ n ∈ ns, ∃ part, s.parts.get (partKey bucket key uploadId n) = some (.record part) := by
  induction h with
  | nil s => exact ⟨nodup_nil, nofun⟩
  | @cons n ns s s' part rest hget _ ih =>
    obtain ⟨hnodup, hthere⟩ := ih
    -- what the rest found was not what was taken first
    have hother : ∀ n' ∈ ns, partKey bucket key uploadId n' ≠ partKey bucket key uploadId n := by
      intro n' hn' heq
      obtain ⟨part', hget'⟩ := hthere n' hn'
      rw [heq, OrdMap.get_erase_self] at hget'
      cases hget'
    refine ⟨nodup_cons.2 ⟨fun hmem => ?_, hnodup⟩, forall_mem_cons.2 ⟨⟨part, hget⟩, fun n' hn' => ?_⟩⟩
    · obtain ⟨n', hn', heq⟩ := mem_map.1 hmem
      exact hother n' hn' heq
    · obtain ⟨part', hget'⟩ := hthere n' hn'
      rw [OrdMap.get_erase_of_ne _ (hother n' hn')] at hget'
      exact ⟨part', hget'⟩

/-- **A claim takes all it names, or nothing.** -/
theorem claimTx_claims {r : UploadClaim} (h : claimTx bucket key uploadId ns s = .ok (r, s')) :
    s' = s ∨ Claims bucket key uploadId ns s s' := by
  obtain ⟨-, rfl⟩ | ⟨u, parts, s1, hu, htaken, -, rfl⟩ := claimTx_cases h
  · exact .inl rfl
  obtain ⟨rfl, hinst⟩ := htaken.eq
  obtain ⟨hnodup, hthere⟩ := htaken.there
  refine .inr ⟨⟨u, hu⟩, hthere, hnodup.of_map _, ?_⟩
  have hinst' : parts.map Prod.fst = ns.map fun n => s.partInstance (partKey bucket key uploadId n) := by
    rw [hinst]
    refine map_congr_left fun n _ => ?_
    unfold Store.partInstance
    simp [count_append]
  rw [hinst']
  simp

theorem Claims.step (h : Claims bucket key uploadId ns s s') : StoreStep s s' := by
  obtain ⟨-, -, -, rfl⟩ := h
  refine ⟨?_, .inl ⟨rfl, rfl, rfl⟩⟩
  refine ⟨_, rfl, fun p blocks hp => by simp at hp,
    fun k hk hgone => .inr ⟨_, mem_cons_of_mem _ mem_cons_self, ?_⟩⟩
  rw [OrdMap.get_foldl_erase] at hgone
  split at hgone
  · rename_i hmem
    obtain ⟨n, hn, rfl⟩ := mem_map.1 hmem
    exact mem_map_of_mem hn
  · rw [hgone] at hk; cases hk

/-- A step of a complete: it touches no upload and no part, or it is its claim. -/
def CompleteStep (bucket key uploadId : Bytes) (upload : Option (List (Option ℤ))) (s s' : Store) : Prop :=
  (s'.uploads = s.uploads ∧ s'.parts = s.parts) ∨ ∃ ns, upload = some (ns.map some) ∧ Claims bucket key uploadId ns s s'

/-- Every step of a complete, if its claim and what touches no part are steps of `G`. -/
theorem completeMultipartUpload_steps {G : Store → Store → Prop} (bucket key uploadId : Bytes)
    (upload : Option (List (Option ℤ))) (hblk : ∀ s s', BlockStep s s' → G s s')
    (hrec : ∀ ps new s s', RecordTx bucket key new [.partsInherited ps] s s' → G s s')
    (hclaim : ∀ ns s s', upload = some (ns.map some) → Claims bucket key uploadId ns s s' → G s s') :
    Steps G (completeMultipartUpload c bucket key uploadId upload) fun _ => True := by
  have hrefl : ∀ s, G s s := fun s => hblk _ _ (.refl s)
  have htry : ∀ {α : Type} {p : StoreProg (Except Err α)}, Steps G p (fun _ => True) → Steps G (tryStore p) fun _ => True :=
    fun h => Steps.seq h fun r => by cases r <;> exact trivial
  unfold completeMultipartUpload
  split
  · exact trivial
  · exact trivial
  rename_i n ns
  refine Steps.thenTrue (htry (readStore_steps hrefl)) fun u => ?_
  cases u with
  | none => exact trivial
  | some u =>
    refine Steps.andThen ((validateParts_steps hrefl bucket key uploadId _ _).mono (fun _ _ h => h)
      fun r hr => ⟨fun out hout => ?_, fun _ _ => trivial⟩)
    refine Steps.thenTrue (htry (transact_steps' hrefl fun s a s' h => ?_)) fun claim => ?_
    · rcases claimTx_claims h with rfl | hc
      · exact hrefl _
      · exact hclaim out s s' (by rw [hr out hout]) hc
    · cases claim with
      | noUpload | missingPart n => exact trivial
      | claimed record parts => exact htry (createObjectMeta_steps c hblk fun _ => hrec _ _)

theorem completeMultipartUpload_tame (bucket key uploadId : Bytes) (upload : Option (List (Option ℤ))) :
    Tame (completeMultipartUpload c bucket key uploadId upload) := by
  refine ⟨?_, completeMultipartUpload_steps c bucket key uploadId upload (fun _ _ h => h.storeStep)
    (fun ps new s s' h => h.storeStep fun _ _ => by simp) fun ns s s' _ h => h.step⟩
  unfold completeMultipartUpload
  split
  · exact trivial
  · exact trivial
  refine (inherits_tryStore inherits_tame (inherits_tame.looks (readStore_looks _))).inv.andThen fun u => ?_
  cases u with
  | none => exact trivial
  | some u =>
    refine (inherits_tame.looks (validateParts_looks bucket key uploadId _ _)).inv.andThen fun ns => ?_
    have hclaim : wp partRights (claimUploadWithParts bucket key uploadId ns)
        (fun r g => ∀ claim, r = .ok claim → g = claim.rights) 0 := by
      refine wp_handover (f := UploadClaim.rights) (fun s r a s' hi h => ?_) ?_ nofun nofun
      · rw [zero_add] at hi; exact claimTx_inv hi h
      · intro a claim h; cases h; rfl
    unfold KeepsParts
    rw [lockless_andThen]
    refine wp_andThen (wp_tryStore (wp_mono (fun r g hg => ⟨fun claim hr => ⟨fun v hv => ?_, nofun⟩, fun e _ => ?_⟩) hclaim))
    · cases hv
      rw [hg claim hr]
      cases claim with
      | noUpload | missingPart n => exact trivial
      | claimed record parts => exact wp_tryStore (wp_mono (fun _ _ _ => ⟨fun _ _ => trivial, fun _ _ => trivial⟩)
          (inherit_wp c bucket key _ _ _ _))
    · exact ⟨nofun, fun _ _ => trivial⟩

theorem abortMultipartUpload_tame (fuel : ℕ) (bucket key uploadId : Bytes) :
    Tame (abortMultipartUpload c fuel bucket key uploadId) :=
  inherits_abortMultipartUpload inherits_tame c claimUpload_tame (reapPart_tame c) fuel bucket key uploadId

/-- Every operation of a store is tame. -/
theorem StoreOp.tame (o : StoreOp) : Tame (o.prog c) := by
  have hrec : ∀ bucket key new s s', RecordTx bucket key new [] s s' → Keeps s s' := fun _ _ _ _ _ h => h.keeps
  have hblk : ∀ s s', BlockStep s s' → Keeps s s' := fun _ _ h => h.keeps
  cases o with
  | put bucket key body len => exact (Tame.of_steps (storeSingleObjectAndMeta_steps c hblk (hrec _ _) _ _)).bind fun _ => .ret _
  | putInline bucket key data => exact (Tame.of_steps (storeInlinedObject_steps c hblk (hrec _ _) _)).bind fun _ => .ret _
  | delete bucket key => exact (Tame.of_steps (deleteObject_steps c hblk (hrec _ _))).bind fun _ => .ret _
  | clone sb sk db dk => exact (Tame.of_steps (cloneObjectByReference_steps c hblk (hrec _ _) _ _)).bind fun _ => .ret _
  | createUpload bucket key uploadId => exact (createUpload_tame bucket key uploadId).bind fun _ => .ret _
  | uploadPart bucket key uploadId n body len md5 => exact (uploadPart_tame c _ _ _ _ _ _ _).bind fun _ => .ret _
  | complete bucket key uploadId upload => exact (completeMultipartUpload_tame c _ _ _ _).bind fun _ => .ret _
  | abort fuel bucket key uploadId => exact (abortMultipartUpload_tame c fuel _ _ _).bind fun _ => .ret _
  | sweep fuel ttl => exact (sweepStaleUploads_tame c fuel ttl).bind fun _ => .ret _
  | round more => exact .of_steps ((commitGroup_steps c more).mono hblk fun _ h => h)

/-- **Every move of a run is one step of a store.** -/
theorem storeStep_of_reach {ok : Pool Store Choice ℕ Unit → Move StoreOp Choice → Prop} {s0 : Store}
    {w w' : Pool Store Choice ℕ Unit} (h : Pool.Reach (storeSystem c) ok (Pool.start s0) w)
    {m : Move StoreOp Choice} (hm : w.next (storeSystem c) m = some w') : StoreStep w.st w'.st := by
  refine Pool.Reach.steps .refl (fun s => ?_) (fun o => (StoreOp.tame c o).steps) h hm
  exact ⟨accounted_of_kept (append_nil _).symm (fun _ _ => nofun) fun _ h => h, .inl ⟨rfl, rfl, rfl⟩⟩

/-! ## What the history of a run says -/

/-- The parts an object inherits. -/
def Event.inherits : Event → List PartInstance
  | .partsInherited ps => ps
  | _ => []

/-- The parts that are reaped. -/
def Event.reaps : Event → List PartInstance
  | .partReaped p _ => [p]
  | _ => []

theorem count_consumed (p : PartInstance) (log : List Event) :
    (log.flatMap Event.consumed).count p = (log.flatMap Event.inherits).count p + (log.flatMap Event.reaps).count p := by
  induction log with
  | nil => rfl
  | cons ev log ih =>
    have hev : ev.consumed.count p = ev.inherits.count p + ev.reaps.count p := by
      cases ev <;> simp [Event.consumed, Event.inherits, Event.reaps]
    rw [flatMap_cons, flatMap_cons, flatMap_cons, count_append, count_append, count_append,
      ih, hev]
    omega

theorem count_releases (p : PartInstance) (id : BlockId) (log : List Event) :
    (log.flatMap Event.releases : Multiset _).count (p, id) = log.count (.released (.part p) id) := by
  induction log with
  | nil => rfl
  | cons ev log ih =>
    rw [flatMap_cons, ← Multiset.coe_add, Multiset.count_add, ih, count_cons, add_comm]
    congr 1
    cases ev with
    | released owner id' =>
      cases owner with
      | part q =>
        change Multiset.count (p, id) {(q, id')} = _
        rw [Multiset.count_singleton]
        by_cases h : (p, id) = (q, id')
        · cases h; simp
        · have hne : Event.released (.part q) id' ≠ .released (.part p) id := fun heq => h (by cases heq; rfl)
          rw [if_neg h, if_neg (by simpa using hne)]
      | object | undo => simp [Event.releases]
    | _ => simp [Event.releases]

theorem mem_reapedRefs {id : BlockId} {log : List Event} (h : (p, id) ∈ log.flatMap Event.reapedRefs) :
    ∃ blocks, .partReaped p blocks ∈ log := by
  obtain ⟨ev, hev, hmem⟩ := mem_flatMap.1 h
  cases ev with
  | partReaped q blocks =>
    obtain ⟨id', -, heq⟩ := mem_map.1 hmem
    cases heq
    exact ⟨blocks, hev⟩
  | _ => cases hmem

/-- A part that was reaped once left the references its record named. -/
theorem count_reapedRefs {blocks : List BlockId} (id : BlockId) : ∀ {log : List Event},
    (log.flatMap Event.reaps).count p ≤ 1 → .partReaped p blocks ∈ log →
    (log.flatMap Event.reapedRefs : Multiset _).count (p, id) ≤ blocks.count id := by
  intro log
  induction log with
  | nil => intro _ h; cases h
  | cons ev log ih =>
    intro honce hmem
    rw [flatMap_cons, count_append] at honce
    rw [flatMap_cons, ← Multiset.coe_add, Multiset.count_add]
    by_cases hev : ev = .partReaped p blocks
    · subst hev
      -- no other event names the part
      have hnone : (p, id) ∉ (log.flatMap Event.reapedRefs : Multiset _) := by
        intro h
        obtain ⟨bs, hbs⟩ := mem_reapedRefs (Multiset.mem_coe.1 h)
        have hin : p ∈ log.flatMap Event.reaps := mem_flatMap.2 ⟨_, hbs, mem_singleton_self p⟩
        have hpos := count_pos_iff.2 hin
        simp [Event.reaps] at honce
        omega
      rw [Multiset.count_eq_zero_of_notMem hnone, add_zero]
      have hinj : Function.Injective (Prod.mk p : BlockId → PartInstance × BlockId) := fun a b h => (Prod.mk.inj h).2
      change Multiset.count (p, id) (Multiset.map (Prod.mk p) (blocks : Multiset BlockId)) ≤ _
      rw [Multiset.count_map_eq_count' _ _ hinj, Multiset.coe_count]
    · have hmem' := (mem_cons.1 hmem).resolve_left fun h => hev h.symm
      have hzero : (p, id) ∉ (ev.reapedRefs : Multiset _) := by
        intro h
        cases ev with
        | partReaped q bs =>
          obtain ⟨id', -, heq⟩ := mem_map.1 (Multiset.mem_coe.1 h)
          cases heq
          have hin : p ∈ log.flatMap Event.reaps := mem_flatMap.2 ⟨_, hmem', mem_singleton_self p⟩
          have hpos := count_pos_iff.2 hin
          simp [Event.reaps] at honce
          omega
        | _ => cases h
      rw [Multiset.count_eq_zero_of_notMem hzero, zero_add]
      exact ih (by omega) hmem'

/-- What holds of the parts of a store after any run. -/
structure PartsSafe (s : Store) : Prop where
  gone : ∀ p id, .released (.part p) id ∈ s.log → ¬ s.Stored p
  once : ∀ p id, .released (.part p) id ∈ s.log →
    ∃ blocks, .partReaped p blocks ∈ s.log ∧ s.log.count (.released (.part p) id) ≤ blocks.count id
  apart : ∀ p id, .released (.part p) id ∈ s.log → p ∉ s.log.flatMap Event.inherits
  inherited : (s.log.flatMap Event.inherits).Nodup
  won : ∀ k, wins k s.log ≤ 1

theorem PartInv.safe (h : PartInv s g) : PartsSafe s := by
  have hle : (s.log.flatMap Event.releases : Multiset (PartInstance × BlockId)) ≤
      (s.log.flatMap Event.reapedRefs : Multiset (PartInstance × BlockId)) := le_trans (Multiset.le_add_right _ g.2) h.refs
  -- a released part was reaped, and that is its one end
  have hreaped : ∀ p id, .released (.part p) id ∈ s.log → ∃ blocks, .partReaped p blocks ∈ s.log := by
    intro p id hr
    have hmem : (p, id) ∈ s.log.flatMap Event.releases := mem_flatMap.2 ⟨_, hr, mem_singleton_self _⟩
    exact mem_reapedRefs (Multiset.mem_coe.1 (Multiset.mem_of_le hle (Multiset.mem_coe.2 hmem)))
  have hcount : ∀ p blocks, .partReaped p blocks ∈ s.log → 1 ≤ (s.log.flatMap Event.reaps).count p :=
    fun p blocks hp => count_pos_iff.2 (mem_flatMap.2 ⟨_, hp, mem_singleton_self p⟩)
  have honce : ∀ p, (s.log.flatMap Event.inherits).count p + (s.log.flatMap Event.reaps).count p +
      stores s.parts s.log p ≤ 1 := by
    intro p
    have := h.once p
    rw [count_consumed] at this
    omega
  refine ⟨fun p id hr hs => ?_, fun p id hr => ?_, fun p id hr hin => ?_, ?_, fun k => ?_⟩
  · obtain ⟨blocks, hb⟩ := hreaped p id hr
    have hst : stores s.parts s.log p = 1 := if_pos hs
    have h1 := honce p
    have h2 := hcount p blocks hb
    omega
  · obtain ⟨blocks, hb⟩ := hreaped p id hr
    have h1 := honce p
    refine ⟨blocks, hb, ?_⟩
    calc s.log.count (.released (.part p) id)
        = (s.log.flatMap Event.releases : Multiset _).count (p, id) := (count_releases p id s.log).symm
      _ ≤ (s.log.flatMap Event.reapedRefs : Multiset _).count (p, id) :=
          Multiset.count_le_of_le _ hle
      _ ≤ blocks.count id := count_reapedRefs id (by omega) hb
  · obtain ⟨blocks, hb⟩ := hreaped p id hr
    have h1 := honce p
    have h2 := hcount p blocks hb
    have h3 := count_pos_iff.2 hin
    omega
  · refine nodup_iff_count_le_one.2 fun p => ?_
    have := honce p
    omega
  · have := h.wins k
    omega

theorem partInv_start (h : s.log = []) : PartInv s 0 := by
  refine ⟨fun p => ?_, fun p hp => ?_, ?_, fun k => ?_⟩
  · have hle : stores s.parts s.log p ≤ 1 := by unfold stores; split <;> omega
    have hzero : (s.log.flatMap Event.consumed).count p = 0 := by rw [h]; rfl
    rw [hzero, Prod.fst_zero, Multiset.count_zero]
    omega
  · rw [h] at hp
    simp at hp
  · rw [h]
    simp
  · rw [h]
    simp only [wins, foldl_nil]
    split <;> omega

/-- **Every part is released or inherited at most once**, whatever uploads, completes, aborts
and sweeps run at the same time and wherever any of them is stopped: references go only
after the record they belong to is gone and never from a part an object inherited; an
upload is won once; and a complete takes nothing away unless it wins the upload and finds
every part it names. -/
theorem parts_consumed_once (c : Config) (s0 : Store) (hs : s0.log = []) (w : Pool Store Choice ℕ Unit)
    (h : Pool.Reach (storeSystem c) (fun _ _ => True) (Pool.start s0) w) :
    PartsSafe w.st ∧ (∀ m w', w.next (storeSystem c) m = some w' → PartsAccounted w.st w'.st) ∧
      ∀ bucket key uploadId upload, Steps (CompleteStep bucket key uploadId upload)
        (completeMultipartUpload c bucket key uploadId upload) fun _ => True := by
  refine ⟨?_, fun m w' hm => ?_, fun bucket key uploadId upload => ?_⟩
  · obtain ⟨g, hg⟩ := Pool.Reach.inv_lockless (S := storeSystem c) (P := partRights) (Q := fun _ _ => True) rfl
      (fun s g r hi => ⟨0, by rw [zero_add]; exact hi.drop⟩)
      (fun s g hi => ⟨g, hi.still rfl rfl (.refl _)⟩) (fun w o _ => (StoreOp.tame c o).inv) (fun _ _ _ _ => trivial)
      (fun _ => trivial)
      (partInv_start hs) h
    exact hg.safe
  · exact (storeStep_of_reach c h hm).accounted
  · refine completeMultipartUpload_steps c bucket key uploadId upload (fun s s' h => Or.inl ⟨h.uploads, h.parts⟩) ?_ ?_
    · rintro ps new s s' ⟨old, usage, -, -, rfl⟩
      exact Or.inl ⟨rfl, rfl⟩
    · exact fun ns s s' hup hc => Or.inr ⟨ns, hup, hc⟩

/-- A complete is overtaken by an abort after it has found its upload and its part. -/
def overtakenComplete : List (Move StoreOp Choice) :=
  .spawn (.createUpload [98] [107] [117]) :: List.replicate 2 (.run 0 steady) ++
    .spawn (.uploadPart [98] [107] [117] 1 (some [some abc]) (some 3) none) :: List.replicate 12 (.run 1 steady) ++
    .spawn (.complete [98] [107] [117] (some [some 1])) :: .run 2 steady :: .run 2 steady ::
    .spawn (.abort 3 [98] [107] [117]) :: List.replicate 8 (.run 3 steady) ++ [.run 2 steady]

/-- The abort wins and releases the one reference; the complete inherits nothing. -/
theorem parts_after_overtaken_complete : ∃ w,
    (Pool.start Store.empty).exec (storeSystem abcConfig) overtakenComplete = some w ∧
    (decide w.Finished, (w.st.log.flatMap Event.releases).length, (w.st.log.flatMap Event.inherits).length) =
      (true, 1, 0) ∧ PartsSafe w.st := by
  have hrun : ((Pool.start Store.empty).exec (storeSystem abcConfig) overtakenComplete).map
      (fun w => (decide w.Finished, (w.st.log.flatMap Event.releases).length,
        (w.st.log.flatMap Event.inherits).length)) = some (true, 1, 0) := by decide +kernel
  obtain ⟨w, hw, hdone⟩ := Option.map_eq_some_iff.1 hrun
  exact ⟨w, hw, hdone, (parts_consumed_once abcConfig Store.empty rfl w
    (Pool.Reach.refl.exec (fun _ _ _ => trivial) hw)).1⟩

end QssStorage
