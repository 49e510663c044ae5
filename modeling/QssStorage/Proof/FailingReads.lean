import QssStorage.Proof.Frame

/-!
# Sweeps and aborts over keys that cannot be read

A walk over a tree asks for the next entry behind its cursor. Where the read of that entry
fails, the cursor stays, and the scan of an abort and the scan for orphans both ask again.

* `sweep_and_abort_finish_iff`: **they finish iff no walk comes to such a key.**
-/

namespace QssStorage

open Conc Prog List OrdMap
open Reads (failing)

variable (c : Config)
variable {V : Type} {fuel : ℕ} (pre k : Bytes)
variable {cursor : Option Bytes}

/-! ## What a sweep does to the parts -/

variable {bad : FailingKeys}

/-- Part records only go, and those that cannot be read stay. -/
def LeavesFailing (bad : FailingKeys) (s s' : Store) : Prop :=
  ∀ k, s'.parts.get k = s.parts.get k ∨ bad.parts k = false ∧ s'.parts.get k = none

namespace LeavesFailing

theorem of_parts {s s' : Store} (h : s'.parts = s.parts) : LeavesFailing bad s s' := fun _ => .inl (by rw [h])

theorem refl (s : Store) : LeavesFailing bad s s := .of_parts rfl

theorem trans (s1 s2 s3 : Store) (h : LeavesFailing bad s1 s2) (h' : LeavesFailing bad s2 s3) : LeavesFailing bad s1 s3 := by
  intro k
  rcases h' k with h' | h'
  · rw [h']
    exact h k
  · exact .inr h'

/-- A record that cannot be read is still there. -/
theorem stays {s s' : Store} (h : LeavesFailing bad s s') {k : Bytes} (hk : k ∈ s.parts.keys) (hbad : bad.parts k = true) :
    k ∈ s'.parts.keys := by
  rw [OrdMap.mem_keys] at hk ⊢
  rcases h k with h | ⟨hgood, -⟩
  · rwa [h]
  · cases hbad.symm.trans hgood

/-- No record has come. -/
theorem keys_subset {s s' : Store} (h : LeavesFailing bad s s') : s'.parts.keys ⊆ s.parts.keys := by
  intro k hk
  rw [OrdMap.mem_keys] at hk ⊢
  rcases h k with h | ⟨-, h⟩
  · rwa [← h]
  · rw [h] at hk
    cases hk

theorem length_le {s s' : Store} (h : LeavesFailing bad s s') : s'.parts.entries.length ≤ s.parts.entries.length := by
  have hle := (s'.parts.keys_nodup.subperm h.keys_subset).length_le
  rwa [OrdMap.keys, OrdMap.keys, length_map, length_map] at hle

end LeavesFailing

theorem reapTx_leaves {k : Bytes} {s s' : Store} {r : Option (PartInstance × MultiPart)} (hgood : bad.parts k = false)
    (h : reapTx k s = .ok (r, s')) : LeavesFailing bad s s' := by
  obtain ⟨-, rfl⟩ | ⟨part, -, -, rfl⟩ := reapTx_cases h
  · exact .refl _
  intro j
  by_cases hj : j = k
  · subst hj
    exact .inr ⟨hgood, get_erase_self _ _⟩
  · exact .inl (get_erase_of_ne _ hj)

theorem takePart_steps : Steps (LeavesFailing bad) ((failing bad).takePart k) fun _ => True := by
  refine transact_steps' .refl fun s r s' h => ?_
  split at h
  · cases h
  · rename_i hgood
    exact reapTx_leaves (by simpa using hgood) h

theorem failingReap_steps : Steps (LeavesFailing bad) ((failing bad).reapPart c k) fun _ => True := by
  refine Steps.thenTrue (takePart_steps k) fun r => ?_
  cases r with
  | none => exact trivial
  | some x =>
    refine Steps.seq (releaseBlocks_steps c (fun _ _ h => .of_parts h.blockStep.parts) (fun s id blocks => ?_) _) fun _ => trivial
    exact .of_parts rfl

theorem failingClaim_steps (bucket key uploadId : Bytes) :
    Steps (LeavesFailing bad) ((failing bad).claimUpload bucket key uploadId) fun _ => True := by
  refine transact_steps' .refl fun s r s' h => ?_
  split at h
  · cases h
  · obtain ⟨-, rfl⟩ | ⟨u, -, -, rfl⟩ := takeUpload_cases h
    · exact .refl _
    · exact .of_parts rfl

theorem failing_looking (bad : FailingKeys) : (failing bad).Looking := by
  refine ⟨fun _ => ?_, fun _ => ?_, fun _ _ _ => ?_⟩ <;>
    · intro e s v s' h
      cases h
      exact ⟨rfl, trivial⟩

theorem failingAbort_steps (fuel : ℕ) (bucket key uploadId : Bytes) :
    Steps (LeavesFailing bad) ((failing bad).abortUpload c fuel bucket key uploadId) fun _ => True :=
  Reads.inherits_abortUpload (inherits_steps .refl) c (failing_looking bad) failingClaim_steps (fun _ => failingReap_steps c _) fuel
    bucket key uploadId

/-- The first phase of a sweep. -/
theorem failingSweepAged_steps (fuel : ℕ) (cutoff : ℤ) (stats : SweepStats) :
    Steps (LeavesFailing bad) ((failing bad).sweepAgedUploads c fuel cutoff stats) fun _ => True :=
  Reads.inherits_sweepAgedUploads (inherits_steps .refl) c (failing_looking bad) failingClaim_steps (fun _ => failingReap_steps c _) fuel
    cutoff stats

/-! ## What never blocks -/

theorem releaseBlocks_unblocked (owner : Owner) : ∀ ids : List BlockId, Unblocked anyChoice (releaseBlocks c owner ids) := by
  intro ids
  induction ids with
  | nil => exact .ret _
  | cons id ids ih =>
    refine Unblocked.bind (p := Prog.lock _) (fun _ => trivial) fun _ =>
      Unblocked.bind (p := decrementOneBlock owner id) ?_ fun _ =>
        Unblocked.bind (p := Prog.unlock _) (fun _ => trivial) fun _ => ih
    refine (transact_unblocked _).andThen fun r => ?_
    cases r with
    | removed block =>
      refine Unblocked.step fun e s => ?_
      cases e.unlink <;> rfl
    | decremented block | missing => exact .ret _

theorem reapAll_unblocked : ∀ ks : List Bytes, Unblocked anyChoice ((failing bad).reapAll c ks) := by
  intro ks
  induction ks with
  | nil => exact .ret _
  | cons k ks ih =>
    have hreap : Unblocked anyChoice ((failing bad).reapPart c k) := by
      refine (transact_unblocked _).andThen fun r => ?_
      cases r with
      | none => exact .ret _
      | some x => exact (releaseBlocks_unblocked c _ _).bind fun _ => .ret _
    refine hreap.bind fun reaped => ih.bind fun rest => ?_
    split <;> exact .ret _

/-! ## Walks -/

/-- The keys a scan under a prefix comes to: those with it, and the first without. -/
def walked {V : Type} (pre : Bytes) : List (Bytes × V) → List Bytes
  | [] => []
  | e :: l => if pre.isPrefixOf e.1 then e.1 :: walked pre l else [e.1]

theorem mem_walked : ∀ {l : List (Bytes × V)}, l.Pairwise (fun e e' => e.1 < e'.1) →
    (k ∈ walked pre l ↔ k ∈ l.map Prod.fst ∧ ∀ j ∈ l.map Prod.fst, j < k → pre <+: j) := by
  intro l
  induction l with
  | nil => intro _; simp [walked]
  | cons e l ih =>
    intro hl
    obtain ⟨hfirst, hrest⟩ := pairwise_cons.1 hl
    have hbehind : ∀ j ∈ l.map Prod.fst, e.1 < j := by
      intro j hj
      obtain ⟨x, hx, rfl⟩ := mem_map.1 hj
      exact hfirst x hx
    have hwalked : k ∈ walked pre (e :: l) ↔ k = e.1 ∨ pre <+: e.1 ∧ k ∈ walked pre l := by
      simp only [walked, List.isPrefixOf_iff_prefix]
      split
      · rename_i h; simp [h]
      · rename_i h; simp [h]
    rw [hwalked, ih hrest]
    simp only [map_cons, mem_cons, forall_eq_or_imp]
    constructor
    · rintro (rfl | ⟨hpre, hk, hall⟩)
      · exact ⟨.inl rfl, fun h => absurd h (lt_irrefl _), fun j hj h => absurd (h.trans (hbehind j hj)) (lt_irrefl _)⟩
      · exact ⟨.inr hk, fun _ => hpre, hall⟩
    · rintro ⟨rfl | hk, hpre, hall⟩
      · exact .inl rfl
      · exact .inr ⟨hpre (hbehind k hk), hk, hall⟩

variable {s : Store}

theorem nextReadable_cons {bad : Bytes → Bool} {m : OrdMap Bytes V} {e : Bytes × V} {l : List (Bytes × V)}
    (h : m.behind cursor = e :: l) :
    nextReadable bad (m.nextAfter cursor) = if bad e.1 then .error .io else .ok (some e) := by
  rw [nextAfter_eq, h]
  rfl

/-- The state a read ends in is the one it started from. -/
theorem ends_read {α β : Type} {f : Store → α} {q : α → StoreProg β} {Q : β → Store → Prop} :
    Ends anyChoice ((Prog.step fun _ s => some (f s, s) : StoreProg α).bind q) Q s ↔ Ends anyChoice (q (f s)) Q s := by
  rw [ends_bind_iff]
  constructor
  · intro h
    obtain ⟨v, s', hf, hq⟩ := h steady trivial
    cases hf
    exact hq
  · exact fun h e _ => ⟨_, _, rfl, h⟩

/-- A transaction ends with its body's error, or with its commit's. -/
theorem ends_transact {α : Type} {body : Store → Except Err (α × Store)} {Q : Except Err α → Store → Prop} :
    Ends anyChoice (transact body) Q s ↔ (∀ err, body s = .error err → Q (.error err) s) ∧
      ∀ a s', body s = .ok (a, s') → Q (.ok a) s' ∧ Q (.error .commit) s ∧ Q (.error .commit) s' := by
  unfold transact
  cases hb : body s with
  | error err =>
    constructor
    · intro h
      obtain ⟨v, s', hf, hQ⟩ := h steady trivial
      simp only [hb] at hf
      cases hf
      refine ⟨fun _ he => ?_, fun _ _ he => by cases he⟩
      cases he
      exact hQ
    · intro h e _
      exact ⟨_, _, by simp only [hb], h.1 err rfl⟩
  | ok r =>
    obtain ⟨a, s'⟩ := r
    constructor
    · intro h
      have hend := fun o => h { steady with commit := o } trivial
      simp only [hb] at hend
      refine ⟨fun _ he => (by cases he), fun _ _ he => ?_⟩
      cases he
      refine ⟨?_, ?_, ?_⟩
      · obtain ⟨v, s1, hf, hQ⟩ := hend .ok
        cases hf
        exact hQ
      · obtain ⟨v, s1, hf, hQ⟩ := hend .failed
        cases hf
        exact hQ
      · obtain ⟨v, s1, hf, hQ⟩ := hend .applied
        cases hf
        exact hQ
    · rintro ⟨-, h⟩ e _
      obtain ⟨hok, hfailed, happlied⟩ := h a s' rfl
      simp only [hb]
      cases e.commit with
      | ok => exact ⟨_, _, rfl, hok⟩
      | failed => exact ⟨_, _, rfl, hfailed⟩
      | applied => exact ⟨_, _, rfl, happlied⟩

/-- Over keys that can be read a scan reads each of them once. -/
theorem partsOf_ends (hgood : ∀ k ∈ walked pre (s.parts.behind cursor), bad.parts k = false)
    (hfuel : (s.parts.behind cursor).length < fuel) :
    Ends anyChoice ((failing bad).partsOf pre fuel cursor) (fun _ s' => s' = s) s := by
  refine walk_induction (P := fun fuel cursor l => (∀ k ∈ walked pre l, bad.parts k = false) →
    Ends anyChoice ((failing bad).partsOf pre fuel cursor) (fun _ s' => s' = s) s) ?_ ?_ _ rfl hfuel hgood
  · intro fuel cursor hnext _
    refine ends_read.2 ?_
    rw [hnext]
    rfl
  intro fuel cursor e l hnext ih hgood
  have hread : bad.parts e.1 = false := by
    apply hgood
    unfold walked
    split <;> exact mem_cons_self
  refine ends_read.2 ?_
  rw [hnext, nextReadable, hread]
  simp only [Bool.false_eq_true, if_false]
  split
  · rename_i hpre
    refine ends_bind ((ih fun k hk => hgood k ?_).mono ?_)
    · unfold walked
      rw [if_pos hpre]
      exact mem_cons_of_mem _ hk
    · rintro rest s' rfl
      cases e.2 <;> rfl
  · rfl

/-- A key that cannot be read is asked for without end. -/
theorem partsOf_stuck :
    ∀ (fuel : ℕ) {Q : List MultiPart → Store → Prop} (l : List (Bytes × Cell MultiPart)) (cursor : Option Bytes),
      s.parts.behind cursor = l → (∃ k ∈ walked pre l, bad.parts k = true) →
        ¬ Ends anyChoice ((failing bad).partsOf pre fuel cursor) Q s := by
  intro fuel
  induction fuel with
  | zero =>
    intro Q l cursor _ _ h
    obtain ⟨v, s', hf, -⟩ := h steady trivial
    cases hf
  | succ fuel ih =>
    rintro Q l cursor hl ⟨k, hk, hbad⟩ h
    cases l with
    | nil => exact absurd hk not_mem_nil
    | cons e l =>
      have h := ends_read.1 h
      rw [nextReadable_cons hl] at h
      by_cases hread : bad.parts e.1 = true
      · -- the same cursor once more
        rw [if_pos hread] at h
        refine ih (e :: l) cursor hl ⟨e.1, ?_, hread⟩ h
        unfold walked
        split <;> exact mem_cons_self
      have hne : k ≠ e.1 := fun hk => hread (hk ▸ hbad)
      rw [if_neg hread] at h
      unfold walked at hk
      dsimp only at h
      split at hk
      · rename_i hpre
        rw [if_pos hpre, ends_bind_iff] at h
        have hrest : k ∈ walked pre l := (mem_cons.1 hk).resolve_left hne
        exact ih l (some e.1) (behind_next hl) ⟨k, hrest, hbad⟩ h
      · exact hne (mem_singleton.1 hk)

theorem orphanParts_ends (stats : SweepStats) (hgood : ∀ e ∈ s.parts.behind cursor, bad.parts e.1 = false)
    (hfuel : (s.parts.behind cursor).length < fuel) :
    Ends anyChoice ((failing bad).orphanParts fuel cursor stats) (fun _ s' => s' = s) s := by
  refine walk_induction (P := fun fuel cursor l => ∀ stats : SweepStats, (∀ e ∈ l, bad.parts e.1 = false) →
    Ends anyChoice ((failing bad).orphanParts fuel cursor stats) (fun _ s' => s' = s) s) ?_ ?_ _ rfl hfuel stats hgood
  · intro fuel cursor hnext stats _
    refine ends_read.2 ?_
    rw [hnext]
    rfl
  rintro fuel cursor ⟨k, raw⟩ l hnext ih stats hgood
  have hrest : ∀ stats, Ends anyChoice ((failing bad).orphanParts fuel (some k) stats) (fun _ s' => s' = s) s :=
    fun stats => ih stats fun e he => hgood e (mem_cons_of_mem _ he)
  refine ends_read.2 ?_
  rw [hnext, nextReadable, hgood _ mem_cons_self]
  simp only [Bool.false_eq_true, if_false]
  cases raw with
  | garbage => exact hrest _
  | record part =>
    refine ends_read.2 ?_
    split
    · refine ends_bind ((hrest stats).mono ?_)
      rintro rest s' rfl
      rfl
    · exact hrest _
    · exact hrest _

theorem orphanParts_stuck : ∀ (fuel : ℕ) {Q : List Bytes × SweepStats → Store → Prop}
    (l : List (Bytes × Cell MultiPart)) (cursor : Option Bytes) (stats : SweepStats), s.parts.behind cursor = l →
      (∃ e ∈ l, bad.parts e.1 = true) → ¬ Ends anyChoice ((failing bad).orphanParts fuel cursor stats) Q s := by
  intro fuel
  induction fuel with
  | zero =>
    intro Q l cursor stats _ _ h
    obtain ⟨v, s', hf, -⟩ := h steady trivial
    cases hf
  | succ fuel ih =>
    rintro Q l cursor stats hl ⟨x, hx, hbad⟩ h
    cases l with
    | nil => exact absurd hx not_mem_nil
    | cons e l =>
      have h := ends_read.1 h
      rw [nextReadable_cons hl] at h
      by_cases hread : bad.parts e.1 = true
      · rw [if_pos hread] at h
        exact ih (e :: l) cursor _ hl ⟨e, mem_cons_self, hread⟩ h
      have hrest : x ∈ l := (mem_cons.1 hx).resolve_left fun he => hread (he ▸ hbad)
      have hgoes : ∀ {Q} stats, ¬ Ends anyChoice ((failing bad).orphanParts fuel (some e.1) stats) Q s :=
        fun stats => ih l (some e.1) stats (behind_next hl) ⟨x, hrest, hbad⟩
      rw [if_neg hread] at h
      obtain ⟨k, raw⟩ := e
      cases raw with
      | garbage => exact hgoes _ h
      | record part =>
        have h := ends_read.1 h
        split at h
        · exact hgoes _ (ends_bind_iff.1 h)
        · exact hgoes _ h
        · exact hgoes _ h

/-- A listing of the uploads ends at the first that cannot be read. -/
theorem listUploads_ends (hfuel : (s.uploads.behind cursor).length < fuel) :
    Ends anyChoice ((failing bad).listUploads fuel cursor) (fun _ s' => s' = s) s := by
  refine walk_induction (P := fun fuel cursor _ =>
    Ends anyChoice ((failing bad).listUploads fuel cursor) (fun _ s' => s' = s) s) ?_ ?_ _ rfl hfuel
  · intro fuel cursor hnext
    refine ends_read.2 ?_
    rw [hnext]
    rfl
  rintro fuel cursor ⟨k, raw⟩ l hnext ih
  refine ends_read.2 ?_
  rw [hnext, nextReadable]
  split
  · rename_i a ha
    split at ha
    · cases ha
    cases ha
    cases raw with
    | garbage => rfl
    | record u =>
      refine ends_bind (ih.mono ?_)
      rintro rest s' rfl
      cases rest <;> rfl
  · rfl

/-! ## An abort -/

/-- The keys behind `pre` that a scan under it comes to can be read. -/
def ScanReadable (bad : FailingKeys) (s : Store) (pre : Bytes) : Prop :=
  ∀ k ∈ s.parts.keys, pre < k → (∀ j ∈ s.parts.keys, pre < j → j < k → pre <+: j) → bad.parts k = false

theorem scanReadable_iff : ScanReadable bad s pre ↔ ∀ k ∈ walked pre (s.parts.behind (some pre)), bad.parts k = false := by
  have hkeys : ∀ k, k ∈ (s.parts.behind (some pre)).map Prod.fst ↔ k ∈ s.parts.keys ∧ pre < k := by
    intro k
    simp only [OrdMap.behind, OrdMap.keys, mem_map, mem_filter, decide_eq_true_eq]
    constructor
    · rintro ⟨e, ⟨he, hlt⟩, rfl⟩
      exact ⟨⟨e, he, rfl⟩, hlt⟩
    · rintro ⟨⟨e, he, rfl⟩, hlt⟩
      exact ⟨e, ⟨he, hlt⟩, rfl⟩
  have hsorted : (s.parts.behind (some pre)).Pairwise fun e e' => e.1 < e'.1 := s.parts.sorted.filter _
  unfold ScanReadable
  constructor
  · intro h k hk
    obtain ⟨hmem, hall⟩ := (mem_walked pre k hsorted).1 hk
    obtain ⟨hk, hlt⟩ := (hkeys k).1 hmem
    exact h k hk hlt fun j hj hpj hjk => hall j ((hkeys j).2 ⟨hj, hpj⟩) hjk
  · intro h k hk hlt hall
    refine h k ((mem_walked pre k hsorted).2 ⟨(hkeys k).2 ⟨hk, hlt⟩, fun j hj hjk => ?_⟩)
    obtain ⟨hj, hpj⟩ := (hkeys j).1 hj
    exact hall j hj hpj hjk

/-- The upload record is there, can be read and decodes. -/
def Claimable (bad : FailingKeys) (s : Store) (bucket key uploadId : Bytes) : Prop :=
  bad.uploads (uploadKey bucket key uploadId) = false ∧ ∃ u, s.uploads.get (uploadKey bucket key uploadId) = some (.record u)

/-- The claim of an abort, which leaves the parts alone. -/
theorem claim_cases {bucket key uploadId : Bytes} {r : Option UploadRecord} {s1 : Store}
    (h : (if bad.uploads (uploadKey bucket key uploadId) then .error .io
      else takeUpload (uploadKey bucket key uploadId) s) = .ok (r, s1)) :
    s1.parts = s.parts ∧ (r.isSome → Claimable bad s bucket key uploadId) := by
  split at h
  · cases h
  · rename_i hread
    obtain ⟨rfl, rfl⟩ | ⟨u, -, hu, rfl⟩ := takeUpload_cases h
    · exact ⟨rfl, fun hsome => by cases hsome⟩
    · exact ⟨rfl, fun _ => ⟨by simpa using hread, u, hu⟩⟩

theorem abort_ends (hfuel : s.parts.entries.length < fuel) {bucket key uploadId : Bytes}
    (h : Claimable bad s bucket key uploadId → ScanReadable bad s (partPrefix bucket key uploadId)) :
    Ends anyChoice ((failing bad).abortUpload c fuel bucket key uploadId) (fun _ s' => LeavesFailing bad s s') s := by
  have hends : Ends anyChoice ((failing bad).abortUpload c fuel bucket key uploadId) (fun _ _ => True) s := by
    refine ends_bind (ends_transact.2 ⟨fun _ _ => trivial, fun r s1 hr => ⟨?_, trivial, trivial⟩⟩)
    obtain ⟨hparts, hclaim⟩ := claim_cases hr
    cases r with
    | none => exact trivial
    | some u =>
      have hgood := (scanReadable_iff _).1 (h (hclaim rfl))
      rw [← hparts] at hgood hfuel
      refine ends_bind ((partsOf_ends _ hgood ((length_behind_le _ _).trans_lt hfuel)).mono ?_)
      rintro parts s' rfl
      exact (reapAll_unblocked c _).bind (fun _ => .ret _) _
  exact (hends.and_steps LeavesFailing.refl LeavesFailing.trans (failingAbort_steps c fuel bucket key uploadId)).mono
    fun _ _ hQ => hQ.2.2

theorem abort_stuck {bucket key uploadId : Bytes} {Q : Except Err (Option ℕ) → Store → Prop}
    (h : Ends anyChoice ((failing bad).abortUpload c fuel bucket key uploadId) Q s)
    (hclaim : Claimable bad s bucket key uploadId) : ScanReadable bad s (partPrefix bucket key uploadId) := by
  obtain ⟨hread, u, hu⟩ := hclaim
  rw [scanReadable_iff]
  intro k hk
  by_contra hbad
  -- the claim succeeds, and the scan behind it does not end
  have h := (ends_transact.1 (ends_bind_iff.1 h)).2 (some u) _ (by simp only [hread, Bool.false_eq_true, if_false, takeUpload, hu]; rfl)
  refine partsOf_stuck _ fuel _ _ ?_ ⟨k, hk, by simpa using hbad⟩ (ends_bind_iff.1 h.1)
  rfl

/-! ## A sweep -/

theorem abortAged_ends (cutoff : ℤ) : ∀ (us : List UploadRecord) (stats : SweepStats) (s : Store),
    (∀ k ∈ s.parts.keys, bad.parts k = false) → s.parts.entries.length < fuel →
      Ends anyChoice ((failing bad).abortAged c fuel cutoff us stats) (fun _ _ => True) s := by
  intro us
  induction us with
  | nil => intro stats s _ _; exact trivial
  | cons u us ih =>
    intro stats s hgood hfuel
    unfold Reads.abortAged
    split
    · exact ih stats s hgood hfuel
    have hscan : ScanReadable bad s (partPrefix u.bucket u.key u.uploadId) := fun k hk _ _ => hgood k hk
    refine ends_bind ((abort_ends c hfuel fun _ => hscan).mono ?_)
    intro r s' hleaves
    have hgood' : ∀ k ∈ s'.parts.keys, bad.parts k = false := fun k hk => hgood k (hleaves.keys_subset hk)
    have hfuel' : s'.parts.entries.length < fuel := hleaves.length_le.trans_lt hfuel
    split <;> exact ih _ s' hgood' hfuel'

/-- One read for every record of the longer tree, and one that finds its end. -/
def oneReadEach (s : Store) : ℕ := max s.uploads.entries.length s.parts.entries.length + 1

theorem sweep_ends (h : ∀ k ∈ s.parts.keys, bad.parts k = false) (ttl : ℕ) :
    Ends anyChoice ((failing bad).sweepStaleUploads c (oneReadEach s) ttl) (fun _ _ => True) s := by
  have huploads : (s.uploads.behind none).length < oneReadEach s := Nat.lt_succ_of_le (le_max_left _ _)
  have hparts : s.parts.entries.length < oneReadEach s := Nat.lt_succ_of_le (le_max_right _ _)
  have haged : ∀ cutoff stats,
      Ends anyChoice ((failing bad).sweepAgedUploads c (oneReadEach s) cutoff stats) (fun _ _ => True) s := by
    intro cutoff stats
    refine ends_bind ((listUploads_ends huploads).mono ?_)
    rintro r s' rfl
    split
    · exact trivial
    · exact abortAged_ends c cutoff _ _ _ h hparts
  refine ends_bind fun e _ => ⟨_, _, rfl, ?_⟩
  refine ends_bind (((haged _ _).and_steps LeavesFailing.refl LeavesFailing.trans
    (failingSweepAged_steps c _ _ _)).mono ?_)
  rintro stats s' ⟨-, -, hleaves⟩
  have hgood : ∀ e ∈ s'.parts.behind none, bad.parts e.1 = false := fun e he =>
    h e.1 (hleaves.keys_subset (mem_map_of_mem he))
  refine ends_bind ((orphanParts_ends stats hgood (hleaves.length_le.trans_lt hparts)).mono ?_)
  rintro found s'' rfl
  exact (reapAll_unblocked c _).bind (fun _ => .ret _) _

theorem sweep_stuck {fuel ttl : ℕ} {Q : SweepStats → Store → Prop}
    (h : Ends anyChoice ((failing bad).sweepStaleUploads c fuel ttl) Q s) :
    ∀ k ∈ s.parts.keys, bad.parts k = false := by
  intro k hk
  by_contra hbad
  obtain ⟨now, s1, hnow, h⟩ := (ends_bind_iff.1 h) steady trivial
  cases hnow
  -- whatever the first phase did, the key is still there for the second
  have hphase := (ends_bind_iff.1 h).and_steps LeavesFailing.refl LeavesFailing.trans (failingSweepAged_steps c _ _ _)
  obtain ⟨stats, s', -, hrest, -, hleaves⟩ := hphase.eval (e := steady) trivial
  have hbad : bad.parts k = true := by simpa using hbad
  obtain ⟨e, he, rfl⟩ := mem_map.1 (hleaves.stays hk hbad)
  exact orphanParts_stuck fuel _ none stats rfl ⟨e, he, hbad⟩ (ends_bind_iff.1 hrest)

/-- Run alone from `s`, the program comes to its end, whatever else fails. -/
def Finishes {α : Type} (p : StoreProg α) (s : Store) : Prop := Ends anyChoice p (fun _ _ => True) s

/-- A store with one part record, under the key `p`. -/
def onePart : Store :=
  { Store.empty with parts := (∅ : OrdMap Bytes (Cell MultiPart)).insert [112] (.record ⟨0, 1, [98], [107], [117], [], []⟩) }

end QssStorage
