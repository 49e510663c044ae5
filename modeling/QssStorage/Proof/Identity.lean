import QssStorage.Proof.Pairing

/-!
# A store has one identity, wherever its openings were cut

A header with an id is never written again, so the id stays (`headerId_openedBy`), and two ids
that differ are refused with nothing written (`mispaired_refused`, `mispaired_opened`). Roots
that name one store open for ever after with its id (`Paired.openedBy`, `Paired.eval`).

What can go wrong is the first opening. It decides from the contents of the directory that
there is no store, creates the database, and only then writes the header. Cut between the
two it leaves a database without a header, which every later opening takes for a store of
an older format and refuses (`stranded_refused`). And where the blocks root already carries
an id, it mints another one before it compares the two. These are the only ways:
`opens_identified_iff`.
-/

namespace QssStorage

open Cursor Conc Codec
open Roots (headerId markerId)

/-! ## What openings keep -/

section Kept

variable {m : Target} {r : Roots}
variable {id : StoreId} (os : List Opening)

/-- Two ids that differ stay as they are, and an id in the header stays. -/
theorem leaves_headerId {hasher : Hasher} {e : OpenEnv} {r' : Roots} (h : Leaves m hasher e r r')
    (hid : r.headerId m = some id) : r'.headerId m = some id ∧ (r.markerId.isSome → r'.markerId = r.markerId) := by
  have hnone : ∀ {h id'}, ¬ Mints m hasher e r h id' := by
    intro h id' hm
    cases hm with
    | created hdb =>
      rw [headerId, header_of_none m hdb] at hid
      cases hid
    | adopted hh hnoid _ =>
      rw [headerId_of_header hh, hnoid] at hid
      cases hid
  have hsame : ∀ {marker}, Holds r r.db marker r' → r'.headerId m = some id := by
    intro marker hr'
    rw [headerId, header_congr m hr'.db]
    exact hid
  cases h with
  | same h => exact ⟨hsame h, fun _ => by rw [markerId, h.marker, markerId]⟩
  | stranded hdb h =>
    rw [headerId, header_of_none m hdb] at hid
    cases hid
  | header hnew h | both hnew hmk h => exact absurd hnew hnone
  | marker hid' hmk h =>
    refine ⟨hsame h, fun hsome => ?_⟩
    rw [hmk] at hsome
    cases hsome

theorem db_of_headerId (h : r.headerId m = some id) : ∃ raw, r.db = some raw := by
  cases hdb : r.db with
  | some raw => exact ⟨raw, rfl⟩
  | none =>
    rw [headerId, header_of_none m hdb] at h
    cases h

theorem headerId_opened (h : r.headerId m = some id) (o : Opening) : (r.opened m o).headerId m = some id := by
  obtain ⟨raw, hdb⟩ := db_of_headerId h
  exact (leaves_headerId (opened_there o hdb) h).1

/-- **An id in the header stays.** -/
theorem headerId_openedBy : ∀ {r : Roots}, r.headerId m = some id → (r.openedBy m os).headerId m = some id := by
  induction os with
  | nil => exact fun h => h
  | cons o os ih => exact fun h => ih (headerId_opened h o)

/-- **Two ids that differ stay.** -/
theorem mispaired_opened (h : Mispaired m r) (o : Opening) :
    (r.opened m o).headerId m = r.headerId m ∧ (r.opened m o).markerId = r.markerId := by
  obtain ⟨i, j, hi, hj, -⟩ := h
  obtain ⟨raw, hdb⟩ := db_of_headerId hi
  have hkept := leaves_headerId (opened_there o hdb) hi
  exact ⟨hkept.1.trans hi.symm, hkept.2 (by rw [hj]; rfl)⟩

theorem mispaired_openedBy : ∀ {r : Roots}, Mispaired m r → Mispaired m (r.openedBy m os) := by
  induction os with
  | nil => exact fun h => h
  | cons o os ih =>
    intro r h
    obtain ⟨hheader, hmarker⟩ := mispaired_opened h o
    obtain ⟨i, j, hi, hj, hne⟩ := h
    exact ih ⟨i, j, hheader.trans hi, hmarker.trans hj, hne⟩

/-- Any opening leaves roots of the current layout. -/
theorem current_opened (hr : r.Current) (o : Opening) : (r.opened m o).Current := by
  cases hdb : r.db with
  | none =>
    obtain ⟨hearly, hwindow, hlate⟩ := opened_new (m := m) o hr hdb
    rcases Nat.lt_or_ge o.after (r.temps.length + 6) with h6 | h6
    · exact (hearly h6).current hr
    · rcases Nat.lt_or_ge o.after (r.temps.length + 9) with h9 | h9
      · exact (hwindow h6 h9).current hr
      · rcases hlate h9 with h | ⟨-, h⟩ <;> exact h.current hr
  | some raw =>
    cases opened_there (m := m) o hdb with
    | same h | stranded _ h | header _ h | both _ _ h | marker _ _ h => exact h.current hr

/-- Roots that name one store go on naming it. -/
theorem Paired.opened (h : Paired m r id) (o : Opening) : Paired m (r.opened m o) id := by
  obtain ⟨raw, hdb⟩ := db_of_headerId h.header
  have hkept := leaves_headerId (opened_there o hdb) h.header
  refine ⟨current_opened h.current o, hkept.1, ?_⟩
  rw [hkept.2 (by rw [h.marker]; rfl)]
  exact h.marker

theorem Paired.openedBy : ∀ {r : Roots}, Paired m r id → Paired m (r.openedBy m os) id := by
  induction os with
  | nil => exact fun h => h
  | cons o os ih => exact fun h => ih (h.opened o)

/-- A database without a header stays one. -/
theorem stranded_openedBy : ∀ {r : Roots}, r.db = some none → (r.openedBy m os).db = some none := by
  induction os with
  | nil => exact fun h => h
  | cons o os ih =>
    intro r hdb
    apply ih
    have hheader : r.header m = none := by simp only [Roots.header, hdb]
    have hnone : ∀ {h id}, ¬ Mints m o.hasher o.env r h id := by
      intro h id hm
      cases hm with
      | created hdb' =>
        cases hdb.symm.trans hdb'
      | adopted hh _ _ =>
        cases hheader.symm.trans hh
    cases opened_there (m := m) o hdb with
    | same h => rw [h.db, hdb]
    | stranded hdb' _ =>
      cases hdb.symm.trans hdb'
    | header hnew _ | both hnew _ _ => exact absurd hnew hnone
    | marker hid _ h => rw [h.db, hdb]

end Kept

/-! ## Which roots open -/

/-- An opening that is not cut succeeds, and every opening after it gives the same id, however
many were cut in between. -/
def Completes (m : Target) (r : Roots) : Prop :=
  ∀ hasher e, ∃ h r' id, (openStore m hasher).eval e r = some (.ok h, r') ∧ h.storeId = some id ∧
    ∀ os hasher' e', ∃ h' r'', (openStore m hasher').eval e' (r'.openedBy m os) = some (.ok h', r'') ∧ h'.storeId = some id

section Completion

variable {m : Target} {r : Roots}

/-- Roots with a header open, unless they name two stores. -/
theorem eval_of_header {h : StoreHeader} (hr : r.Current) (hh : r.header m = some h) (hm : ¬ Mispaired m r)
    (hasher : Hasher) (e : OpenEnv) : ∃ h' r' id, (openStore m hasher).eval e r = some (.ok h', r') ∧
      h'.storeId = some id ∧ Paired m r' id := by
  have hread := openOrCreate_read hasher (e := e) (r := r.prepared) hh
    fun header => pairTheRoots header (readStoreIdMarker r.marker)
  obtain ⟨h', r', id, heval, hrest⟩ := pairTheRoots_eval (e := e) (r := r.prepared) (fun _ => rfl) rfl hh hm
  refine ⟨h', r', id, ?_, hrest⟩
  rw [openStore_eval hasher e hr, judge, hread.1]
  exact heval

/-- So do roots without a database, unless the blocks root carries an id. -/
theorem eval_of_new (hr : r.Current) (hdb : r.db = none) (hmk : r.markerId = none) (hasher : Hasher) (e : OpenEnv) :
    ∃ h' r' id, (openStore m hasher).eval e r = some (.ok h', r') ∧ h'.storeId = some id ∧ Paired m r' id := by
  have hcreate := openOrCreate_create (m := m) hasher (e := e) (r := r.prepared) hdb
    fun header => pairTheRoots header (readStoreIdMarker r.marker)
  have hh : (r.created hasher e).header m = some (.create hasher e) := header_toBytes m rfl
  have hm : ¬ Mispaired m (r.created hasher e) := by
    rintro ⟨i, j, -, hj, -⟩
    have hnone : (r.created hasher e).markerId = none := hmk
    cases hnone.symm.trans hj
  obtain ⟨h', r', id, heval, hrest⟩ := pairTheRoots_eval (e := e) (r := r.created hasher e) (fun _ => rfl) rfl hh hm
  refine ⟨h', r', id, ?_, hrest⟩
  rw [openStore_eval hasher e hr, judge, hcreate.1]
  exact heval

/-- Roots that name one store give its id. -/
theorem Paired.eval {id : StoreId} (h : Paired m r id) (hasher : Hasher) (e : OpenEnv) :
    ∃ h' r', (openStore m hasher).eval e r = some (.ok h', r') ∧ h'.storeId = some id := by
  have hm : ¬ Mispaired m r := by
    rintro ⟨i, j, hi, hj, hne⟩
    rw [h.header] at hi
    rw [h.marker] at hj
    cases hi
    cases hj
    exact hne rfl
  cases hh : r.header m with
  | none =>
    have hid := h.header
    rw [headerId, hh] at hid
    cases hid
  | some hdr =>
    obtain ⟨h', r', id', heval, hid', hpaired⟩ := eval_of_header h.current hh hm hasher e
    -- the id in the header is still the one it was
    have hcut := Prog.cut_cost heval
    have hkept := headerId_opened h.header ⟨hasher, e, (openStore m hasher).cost e r⟩
    rw [Roots.opened, hcut, hpaired.header] at hkept
    cases hkept
    exact ⟨h', r', heval, hid'⟩

theorem completes_of_eval (h : ∀ hasher e, ∃ h' r' id, (openStore m hasher).eval e r = some (.ok h', r') ∧
    h'.storeId = some id ∧ Paired m r' id) : Completes m r := by
  intro hasher e
  obtain ⟨h', r', id, heval, hid, hpaired⟩ := h hasher e
  exact ⟨h', r', id, heval, hid, fun os hasher' e' => (hpaired.openedBy os).eval hasher' e'⟩

/-- Two stores are refused. -/
theorem mispaired_refused (hm : Mispaired m r) (hasher : Hasher) (e : OpenEnv) :
    ∃ err r', (openStore m hasher).eval e r = some (.error err, r') := by
  by_cases hr : r.Current
  · cases hh : r.header m with
    | none =>
      obtain ⟨i, j, hi, -, -⟩ := hm
      rw [headerId, hh] at hi
      cases hi
    | some h =>
      have hread := openOrCreate_read hasher (e := e) (r := r.prepared) hh
        fun header => pairTheRoots header (readStoreIdMarker r.marker)
      obtain ⟨err, heval⟩ := pairTheRoots_refuses (e := e) (r := r.prepared) hh hm
      refine ⟨err, r.prepared, ?_⟩
      rw [openStore_eval hasher e hr, judge, hread.1]
      exact heval
  · exact ⟨.legacyDatabase, r, (openStore_legacy m hasher hr).1⟩

/-- A database without a header is refused. -/
theorem stranded_refused (hdb : r.db = some none) (hasher : Hasher) (e : OpenEnv) :
    ∃ err r', (openStore m hasher).eval e r = some (.error err, r') := by
  by_cases hr : r.Current
  · have hh : r.prepared.header m = none := by simp only [Roots.header, Roots.prepared, hdb]
    obtain ⟨⟨err, heval⟩, -⟩ := openOrCreate_refuses hasher (e := e) (r := r.prepared) hdb hh
      fun header => pairTheRoots header (readStoreIdMarker r.marker)
    refine ⟨err, r.prepared, ?_⟩
    rw [openStore_eval hasher e hr, judge]
    exact heval
  · exact ⟨.legacyDatabase, r, (openStore_legacy m hasher hr).1⟩

theorem not_completes {hasher : Hasher} {e : OpenEnv} {err : OpenErr} {r' : Roots}
    (h : (openStore m hasher).eval e r = some (.error err, r')) : ¬ Completes m r := by
  intro hc
  obtain ⟨h', r'', id, heval, -⟩ := hc hasher e
  cases h.symm.trans heval

end Completion

/-! ## Every sequence of openings -/

/-- Roots to start from: nothing there, or a store with a header, which may be from before ids
were written. They do not name two stores. -/
structure Start (m : Target) (r : Roots) : Prop where
  current : r.Current
  header : r.db = none ∨ ∃ h, r.header m = some h
  single : ¬ Mispaired m r

/-- Each opening of a new store is whole. -/
def AllWhole (m : Target) : Roots → List Opening → Prop
  | _, [] => True
  | r, o :: os => o.Whole r ∧ AllWhole m (r.opened m o) os

/-- Each opening of a new store is whole, and if there is no database yet, the blocks root
carries no id. -/
structure Undisturbed (m : Target) (r : Roots) (os : List Opening) : Prop where
  whole : AllWhole m r os
  unclaimed : (r.openedBy m os).db = none → (r.openedBy m os).markerId = none

/-- A store keeps one identity through these openings. -/
structure Identified (m : Target) (r : Roots) (os : List Opening) : Prop where
  /-- A later opening that is not cut succeeds, and those after it give the same id. -/
  completes : Completes m (r.openedBy m os)
  /-- An id in the header stays. -/
  kept : ∀ before after id, os = before ++ after → (r.openedBy m before).headerId m = some id →
    (r.openedBy m os).headerId m = some id
  /-- Roots that name two stores are refused, and go on naming them. -/
  refused : ∀ r', Mispaired m r' → (∀ hasher e, ∃ err r'', (openStore m hasher).eval e r' = some (.error err, r'')) ∧
      ∀ o, (r'.opened m o).headerId m = r'.headerId m ∧ (r'.opened m o).markerId = r'.markerId

section Sequence

variable {m : Target} {r : Roots}

theorem start_of_header (hcur : r.Current) {h : StoreHeader} {id : StoreId} (hdb : r.db = some (some h.toBytes))
    (hid : h.storeId = some id) (hmk : r.markerId = none ∨ r.markerId = some id) : Start m r := by
  refine ⟨hcur, .inr ⟨h, header_toBytes m hdb⟩, ?_⟩
  rintro ⟨i, j, hi, hj, hne⟩
  cases (headerId_of_db hdb hid).symm.trans hi
  rcases hmk with hmk | hmk
  · cases hmk.symm.trans hj
  · cases hmk.symm.trans hj
    exact hne rfl

theorem markerId_of_holds {r' : Roots} {db : Option (Option Bytes)} (h : Holds r db r.marker r') :
    r'.markerId = r.markerId := by rw [markerId, h.marker, markerId]

/-- A whole opening leaves roots to start from. -/
theorem Start.opened (hr : Start m r) {o : Opening} (ho : o.Whole r) : Start m (r.opened m o) := by
  have hcur := current_opened (m := m) hr.current o
  rcases hr.header with hdb | ⟨h, hh⟩
  · obtain ⟨hearly, -, hlate⟩ := opened_new (m := m) o hr.current hdb
    rcases ho hdb with hlt | ⟨hge, hmk⟩
    · have hholds := hearly hlt
      refine ⟨hcur, .inl hholds.db, ?_⟩
      rintro ⟨i, j, hi, -, -⟩
      rw [headerId, header_of_none m hholds.db] at hi
      cases hi
    · have hid := StoreHeader.storeId_create o.hasher o.env
      rcases hlate hge with h | ⟨-, h⟩
      · exact start_of_header hcur h.db hid (by rw [markerId_of_holds h]; exact hmk)
      · exact start_of_header hcur h.db hid (.inr (markerId_markerText h.marker))
  · obtain ⟨raw, hdb, -⟩ := header_eq_some hh
    cases opened_there (m := m) o hdb with
    | same hholds =>
      refine ⟨hcur, .inr ⟨h, (header_congr m hholds.db).trans hh⟩, ?_⟩
      rintro ⟨i, j, hi, hj, hne⟩
      rw [headerId, header_congr m hholds.db] at hi
      rw [markerId_of_holds hholds] at hj
      exact hr.single ⟨i, j, hi, hj, hne⟩
    | stranded hdb' _ =>
      cases hdb.symm.trans hdb'
    | header hnew hholds =>
      have hid := hnew.storeId
      cases hnew with
      | created hdb' =>
        cases hdb.symm.trans hdb'
      | adopted _ _ hmk =>
        refine start_of_header hcur hholds.db hid ?_
        rw [markerId_of_holds hholds]
        rcases hmk with hmk | ⟨hmk, -⟩
        · exact .inr hmk
        · exact .inl hmk
    | both hnew _ hholds => exact start_of_header hcur hholds.db hnew.storeId (.inr (markerId_markerText hholds.marker))
    | marker hid _ hholds =>
      refine ⟨hcur, .inr ⟨h, (header_congr m hholds.db).trans hh⟩, ?_⟩
      rintro ⟨i, j, hi, hj, hne⟩
      rw [headerId, header_congr m hholds.db] at hi
      rw [markerId_markerText hholds.marker] at hj
      have hsame : some i = some j := hi.symm.trans (hid.trans hj)
      cases hsame
      exact hne rfl

theorem Start.openedBy (os : List Opening) : ∀ {r : Roots}, Start m r → AllWhole m r os → Start m (r.openedBy m os) := by
  induction os with
  | nil => exact fun hr _ => hr
  | cons o os ih => exact fun hr ho => ih (hr.opened ho.1) ho.2

/-- After an opening that is not whole no opening succeeds. -/
theorem not_completes_of_not_whole (hr : Start m r) {o : Opening} (ho : ¬ o.Whole r) (os : List Opening) :
    ¬ Completes m (r.openedBy m (o :: os)) := by
  unfold Opening.Whole at ho
  push Not at ho
  obtain ⟨hdb, hlo, hmk⟩ := ho
  obtain ⟨-, hwindow, hlate⟩ := opened_new (m := m) o hr.current hdb
  rcases Nat.lt_or_ge o.after (r.temps.length + 9) with hlt | hge
  · -- the files of the database are there, its header is not
    have hstranded := stranded_openedBy (m := m) os (hwindow hlo hlt).db
    obtain ⟨err, r', heval⟩ := stranded_refused (m := m) hstranded o.hasher o.env
    exact not_completes heval
  -- the header has an id, the blocks root has another
  obtain ⟨hsome, hne⟩ := hmk hge
  have hmis : Mispaired m (r.opened m o) := by
    have hid := StoreHeader.storeId_create o.hasher o.env
    obtain ⟨j, hj⟩ := Option.ne_none_iff_exists'.1 hsome
    rcases hlate hge with h | ⟨hmk, -⟩
    · refine ⟨o.env.id, j, headerId_of_db h.db hid, (markerId_of_holds h).trans hj, ?_⟩
      rintro rfl
      exact hne hj
    · exact absurd hmk hsome
  obtain ⟨err, r', heval⟩ := mispaired_refused (mispaired_openedBy os hmis) o.hasher o.env
  exact not_completes heval

theorem allWhole_of_completes (os : List Opening) : ∀ {r : Roots}, Start m r → Completes m (r.openedBy m os) →
    AllWhole m r os := by
  induction os with
  | nil => exact fun _ _ => trivial
  | cons o os ih =>
    intro r hr hc
    have ho : o.Whole r := by
      by_contra hno
      exact not_completes_of_not_whole hr hno os hc
    exact ⟨ho, ih (hr.opened ho) hc⟩

/-- An id other than the given one. -/
theorem exists_other (j : StoreId) : ∃ id : StoreId, id ≠ j := by
  by_cases h : j.bytes = List.replicate storeIdSize 1
  · refine ⟨⟨List.replicate storeIdSize 2, rfl, by decide⟩, ?_⟩
    rintro rfl
    exact absurd h (by decide)
  · refine ⟨⟨List.replicate storeIdSize 1, rfl, by decide⟩, ?_⟩
    rintro rfl
    exact h rfl

/-- Roots without a database do not open if the blocks root carries an id: a new one is minted. -/
theorem not_completes_of_claimed (hr : r.Current) (hdb : r.db = none) {j : StoreId} (hj : r.markerId = some j) :
    ¬ Completes m r := by
  obtain ⟨id, hne⟩ := exists_other j
  let e : OpenEnv := ⟨id, 0, by decide, 0⟩
  have hcreate := openOrCreate_create (m := m) .blake3W32 (e := e) (r := r.prepared) hdb
    fun header => pairTheRoots header (readStoreIdMarker r.marker)
  have hh : (r.created .blake3W32 e).header m = some (.create .blake3W32 e) := header_toBytes m rfl
  have hmis : Mispaired m (r.created .blake3W32 e) :=
    ⟨id, j, headerId_of_db rfl (StoreHeader.storeId_create .blake3W32 e), hj, hne⟩
  obtain ⟨err, heval⟩ := pairTheRoots_refuses (e := e) (r := r.created .blake3W32 e) hh hmis
  refine @not_completes _ _ .blake3W32 e err (r.created .blake3W32 e) ?_
  rw [openStore_eval .blake3W32 e hr, judge, hcreate.1]
  exact heval

theorem completes_iff (hr : Start m r) (os : List Opening) : Completes m (r.openedBy m os) ↔ Undisturbed m r os := by
  constructor
  · intro hc
    have hwhole := allWhole_of_completes os hr hc
    refine ⟨hwhole, fun hdb => ?_⟩
    by_contra hsome
    obtain ⟨j, hj⟩ := Option.ne_none_iff_exists'.1 hsome
    exact not_completes_of_claimed (hr.openedBy os hwhole).current hdb hj hc
  · rintro ⟨hwhole, hunclaimed⟩
    have hend := hr.openedBy os hwhole
    rcases hend.header with hdb | ⟨h, hh⟩
    · exact completes_of_eval (eval_of_new hend.current hdb (hunclaimed hdb))
    · exact completes_of_eval (eval_of_header hend.current hh hend.single)

end Sequence

/-- **A store keeps one identity through openings cut anywhere, exactly if** no opening of a new
store is cut between the files of the database and its header, and none finds another store's id
on the blocks root. -/
theorem opens_identified_iff (m : Target) (r : Roots) (hr : Start m r) (os : List Opening) :
    Identified m r os ↔ Undisturbed m r os := by
  refine ⟨fun h => (completes_iff hr os).1 h.completes, fun h => ⟨(completes_iff hr os).2 h, ?_, ?_⟩⟩
  · rintro before after id rfl hid
    rw [Roots.openedBy, List.foldl_append]
    exact headerId_openedBy after hid
  · intro r' hmis
    exact ⟨mispaired_refused hmis, mispaired_opened hmis⟩

/-- An id of ones, at second 0, for temp file 0. -/
def onesEnv : OpenEnv := ⟨⟨List.replicate 16 1, rfl, by decide⟩, 0, by decide, 0⟩

/-- The first opening of a store is cut when the database is created and its header is not: no
later opening succeeds. -/
theorem stranded_database : ¬ Identified .wide Roots.empty [⟨.blake3W32, onesEnv, 6⟩] := by
  intro h
  have hstranded : (Roots.empty.openedBy .wide [⟨.blake3W32, onesEnv, 6⟩]).db = some none := by decide +kernel
  obtain ⟨err, r', heval⟩ := stranded_refused (m := .wide) hstranded .blake3W32 onesEnv
  exact not_completes heval h.completes

theorem start_empty : Start .wide Roots.empty :=
  ⟨nofun, .inl rfl, by rintro ⟨i, j, hi, -, -⟩; cases hi⟩

/-- An opening cut before the database is created, and one cut when the marker is on its way. -/
theorem opens_identified_empty : Start .wide Roots.empty ∧
    Identified .wide Roots.empty [⟨.blake3W32, onesEnv, 5⟩, ⟨.blake3W32, onesEnv, 11⟩] := by
  refine ⟨start_empty, (opens_identified_iff .wide Roots.empty start_empty _).2 ⟨⟨?_, ?_, trivial⟩, ?_⟩⟩
  · exact fun _ => .inl (by decide +kernel)
  · exact fun _ => .inr ⟨by decide +kernel, .inl (by decide +kernel)⟩
  · intro hdb
    exact absurd hdb (by decide +kernel)

end QssStorage
