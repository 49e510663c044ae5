import QssStorage.Conc.Cut
import QssStorage.Proof.Formats
import QssStorage.Spec.StoreOpen

/-!
# What an opening of a store leaves, wherever it is cut

An opening looks at the header record and at the marker, and writes one, the other or both.
The texts come back as they were written (`StoreId.parseHex_marker`,
`StoreHeader.fromBytes_toBytes`), so what an opening leaves can be said in terms of the ids.

* `opened_there`: **everything an opening of roots with a database can leave**.
-/

namespace QssStorage

open Cursor Conc Prog Codec List

/-! ## Ids and headers come back -/

namespace StoreId

theorem fromBytes_bytes (id : StoreId) : fromBytes id.bytes = some id := dif_pos ⟨id.size, id.nonzero⟩

theorem hexValue_hexDigit {n : ℕ} (h : n < 16) : hexValue (hexDigit n) = some n := by
  interval_cases n <;> decide

theorem isWhitespace_hexDigit {n : ℕ} (h : n < 16) : isWhitespace (hexDigit n) = false := by
  interval_cases n <;> decide

theorem hexDecode_flatMap (bytes : Bytes) : hexDecode (bytes.flatMap hexPair) = some bytes := by
  induction bytes with
  | nil => rfl
  | cons b bytes ih =>
    have hb := b.isLt
    have hback : byteOf (16 * (b.val / 16) + b.val % 16) = b := by
      apply Fin.ext
      rw [Nat.div_add_mod]
      exact Nat.mod_eq_of_lt hb
    rw [flatMap_cons]
    simp only [hexPair, cons_append, nil_append, hexDecode]
    rw [hexValue_hexDigit (by omega), hexValue_hexDigit (by omega), ih]
    simp only [hback]

theorem length_toHex (id : StoreId) : id.toHex.length = 2 * storeIdSize := by
  have hpair : ∀ b ∈ id.bytes, (hexPair b).length = 2 := fun _ _ => rfl
  rw [toHex, length_flatMap, map_congr_left hpair, map_const', sum_replicate, id.size]
  rfl

theorem not_isWhitespace_of_mem {id : StoreId} {c : Char} (h : c ∈ id.toHex) : isWhitespace c = false := by
  obtain ⟨b, -, hc⟩ := mem_flatMap.1 h
  have hb := b.isLt
  rcases mem_cons.1 hc with rfl | hc
  · exact isWhitespace_hexDigit (by omega)
  · rw [mem_singleton.1 hc]
    exact isWhitespace_hexDigit (by omega)

theorem dropWhile_eq_self {l : List Char} (h : ∀ c ∈ l, isWhitespace c = false) : l.dropWhile isWhitespace = l := by
  cases l with
  | nil => rfl
  | cons c l => rw [dropWhile_cons, h c mem_cons_self]; rfl

/-- The marker's text is the id and a line end, and parsing it takes the line end off. -/
theorem parseHex_marker (id : StoreId) : parseHex (id.toHex ++ ['\n']) = some id := by
  have hnon : ∀ c ∈ id.toHex, isWhitespace c = false := fun c hc => not_isWhitespace_of_mem hc
  have hlen := id.length_toHex
  have hfront : (id.toHex ++ ['\n']).dropWhile isWhitespace = id.toHex ++ ['\n'] := by
    cases hhex : id.toHex with
    | nil => simp [hhex, storeIdSize] at hlen
    | cons c l =>
      have hc : isWhitespace c = false := hnon c (by rw [hhex]; exact mem_cons_self)
      rw [cons_append, dropWhile_cons, hc]
      rfl
  have htrim : trim (id.toHex ++ ['\n']) = id.toHex := by
    have hend : isWhitespace '\n' = true := by decide
    unfold trim
    rw [hfront, reverse_append, reverse_singleton, singleton_append, dropWhile_cons, hend,
      if_pos rfl, dropWhile_eq_self fun c hc => hnon c (mem_reverse.1 hc), reverse_reverse]
  unfold parseHex
  simp only [htrim]
  rw [if_neg (not_not.2 hlen), toHex, hexDecode_flatMap, Option.bind_some, fromBytes_bytes]

end StoreId

namespace Hasher

theorem fromHeader_algoId (h : Hasher) : fromHeader h.algoId h.width = .ok h := by cases h <;> rfl

end Hasher

namespace StoreHeader

theorem storeId_create (hasher : Hasher) (e : OpenEnv) : (create hasher e).storeId = some e.id := e.id.fromBytes_bytes

theorem storeId_withStoreId (h : StoreHeader) (id : StoreId) : (h.withStoreId id).storeId = some id := id.fromBytes_bytes

theorem check_eq (h : StoreHeader) : check h.version h.hasher.algoId h.hasher.width h.createdAt h.idBytes = .ok h := by
  unfold check
  rw [Hasher.fromHeader_algoId]
  exact dif_pos ⟨h.supported, h.createdAt_lt, h.size⟩

theorem read_reads (m : Target) (h : StoreHeader) :
    Reads m.usizes (read m) h.toBytes (h.version, h.hasher.algoId, h.hasher.width, h.createdAt, h.idBytes) := by
  have hversion : h.version < 2 ^ 16 := by
    have hmem := h.supported
    simp only [supportedVersions, storeHeaderVersion, mem_cons, not_mem_nil, or_false] at hmem
    omega
  have hmagic : Reads m.usizes (Reader.lift
      (if storeHeaderMagic = storeHeaderMagic then .ok () else .err (.badMagic storeHeaderMagic)) :
        Reader Byte StoreHeaderError Unit) [] () := by
    rw [if_pos rfl]
    exact Reads.lift ()
  have hsupported : Reads m.usizes (Reader.lift
      (if h.version ∈ supportedVersions then .ok () else .err (.unsupportedVersion h.version)) :
        Reader Byte StoreHeaderError Unit) [] () := by
    rw [if_pos h.supported]
    exact Reads.lift ()
  exact (array_reads m _ _ (by rfl)).mapErr.bind (hmagic.bind ((u16_reads m _ _ hversion).mapErr.bind (hsupported.bind
    ((u8_reads m _ _ _).mapErr.bind ((u8_reads m _ _ _).mapErr.bind ((u64_reads m _ _ h.createdAt_lt).mapErr.bind
      (array_reads m _ _ h.size).mapErr.map))))))

/-- A header that was written is read as it was. -/
theorem fromBytes_toBytes (m : Target) (h : StoreHeader) : fromBytes m h.toBytes = .ok h := by
  have hlen : h.toBytes.length < m.usizes := by
    have hle : (2 : ℕ) ^ 16 ≤ m.usizes := Nat.pow_le_pow_right (by decide) m.le_usize
    have hsize := h.size
    simp only [toBytes, length_append, length_cons, length_leBytes, hsize, storeHeaderMagic, length_nil,
      storeIdSize]
    omega
  have hread := closed_eq ((finish_closes "store header").mapErr (f := StoreHeaderError.malformed)) (read_reads m h) hlen
  exact Result.bind_eq_ok.2 ⟨_, hread, check_eq h⟩

end StoreHeader


/-! ## What the two roots record -/

/-- The header record, decoded. -/
def Roots.header (m : Target) (r : Roots) : Option StoreHeader :=
  match r.db with
  | some (some raw) =>
    match StoreHeader.fromBytes m raw with
    | .ok h => some h
    | _ => none
  | _ => none

/-- The id in the header. -/
def Roots.headerId (m : Target) (r : Roots) : Option StoreId := (r.header m).bind StoreHeader.storeId

/-- The id in the marker. -/
def Roots.markerId (r : Roots) : Option StoreId := r.marker.bind StoreId.parseHex

/-- The refusal of the old layout does not apply. -/
def Roots.Current (r : Roots) : Prop := r.legacy = true → r.dbDir = true

/-- `r'` is `r` with this database and this marker, as far as openings look. -/
structure Holds (r : Roots) (db : Option (Option Bytes)) (marker : Option (List Char)) (r' : Roots) : Prop where
  db : r'.db = db
  marker : r'.marker = marker
  legacy : r'.legacy = r.legacy
  dbDir : r.dbDir = true → r'.dbDir = true

theorem Holds.self (r : Roots) : Holds r r.db r.marker r := ⟨rfl, rfl, rfl, fun h => h⟩

theorem Holds.current {r r' : Roots} {db : Option (Option Bytes)} {marker : Option (List Char)}
    (h : Holds r db marker r') (hr : r.Current) : r'.Current := by
  intro hlegacy
  rw [h.legacy] at hlegacy
  exact h.dbDir (hr hlegacy)

/-- The text a marker is written with. -/
def markerText (id : StoreId) : Option (List Char) := some (id.toHex ++ ['\n'])

theorem markerId_markerText {r : Roots} {id : StoreId} (h : r.marker = markerText id) : r.markerId = some id := by
  rw [Roots.markerId, h, markerText, Option.bind_some, StoreId.parseHex_marker]

theorem markerId_eq_some {r : Roots} {id : StoreId} : r.markerId = some id ↔ readStoreIdMarker r.marker = .present id := by
  unfold Roots.markerId readStoreIdMarker
  cases r.marker with
  | none => simp
  | some text => cases h : StoreId.parseHex text <;> simp [h]

theorem markerId_eq_none {r : Roots} : r.markerId = none ↔ ∀ id, readStoreIdMarker r.marker ≠ .present id := by
  rw [Option.eq_none_iff_forall_ne_some]
  exact forall_congr' fun id => not_congr markerId_eq_some

theorem header_toBytes (m : Target) {r : Roots} {h : StoreHeader} (hdb : r.db = some (some h.toBytes)) :
    r.header m = some h := by
  simp only [Roots.header, hdb, StoreHeader.fromBytes_toBytes]

theorem header_eq_some {m : Target} {r : Roots} {h : StoreHeader} (hh : r.header m = some h) :
    ∃ raw, r.db = some (some raw) ∧ StoreHeader.fromBytes m raw = .ok h := by
  unfold Roots.header at hh
  split at hh
  · rename_i raw hdb
    split at hh
    · rename_i h' hraw
      cases hh
      exact ⟨raw, hdb, hraw⟩
    · cases hh
  · cases hh

theorem header_congr (m : Target) {r r' : Roots} (h : r'.db = r.db) : r'.header m = r.header m := by
  simp only [Roots.header, h]

theorem header_of_none (m : Target) {r : Roots} (h : r.db = none) : r.header m = none := by
  simp only [Roots.header, h]

/-! ## Up to the marker -/

section Prelude

variable {e : OpenEnv}

theorem purge_spec {ts : List ℕ} : ∀ {r : Roots}, r.temps = ts →
    (purge ts).eval e r = some ((), { r with temps := [] }) ∧ (purge ts).cost e r = ts.length ∧
      (purge ts).Along e (Holds r r.db r.marker) r := by
  induction ts with
  | nil =>
    intro r hr
    refine ⟨?_, rfl, Holds.self r⟩
    simp only [purge, eval, ← hr]
  | cons t ts ih =>
    intro r hr
    have herase : r.temps.erase t = ts := by rw [hr, erase_cons_head]
    obtain ⟨heval, hcost, halong⟩ := ih (r := { r with temps := r.temps.erase t }) herase
    exact ⟨heval, congrArg (· + 1) hcost, Holds.self r, halong.mono fun s h => ⟨h.db, h.marker, h.legacy, h.dbDir⟩⟩

/-- What comes before the database is looked at. -/
def prelude : OpenProg (Except OpenErr StoreIdMarker) :=
  refuseLegacy.andThen fun _ =>
  createDbDir.bind fun _ =>
  openBlockWriter.bind fun marker => .ret (.ok marker)

/-- The rest: the database, then the pairing. -/
def judge (m : Target) (hasher : Hasher) (marker : StoreIdMarker) : OpenProg (Except OpenErr StoreHeader) :=
  (openOrCreate m hasher).andThen fun header => pairTheRoots header marker

theorem openStore_eq (m : Target) (hasher : Hasher) : openStore m hasher = prelude.andThen (judge m hasher) := by
  unfold openStore prelude andThen
  rw [bind_assoc]
  congr 1
  funext res
  cases res with
  | error err => rfl
  | ok u => simp only [bind_assoc, ret_bind, judge, andThen]

theorem openBlockWriter_spec (r : Roots) :
    openBlockWriter.eval e r = some (readStoreIdMarker r.marker, { r with temps := [] }) ∧
      openBlockWriter.cost e r = r.temps.length + 2 ∧ openBlockWriter.Along e (Holds r r.db r.marker) r := by
  obtain ⟨heval, hcost, halong⟩ := purge_spec (e := e) (r := r) rfl
  refine ⟨?_, ?_, Holds.self r, ?_⟩
  · simp only [openBlockWriter, step, act_bind, ret_bind, eval]
    rw [eval_bind, heval]
    rfl
  · simp only [openBlockWriter, step, act_bind, ret_bind, cost]
    rw [cost_bind heval, hcost]
    rfl
  · refine halong.bind fun a s' hs' => ?_
    cases heval.symm.trans hs'
    exact ⟨⟨rfl, rfl, rfl, id⟩, rfl, rfl, rfl, id⟩

/-- The prelude on roots of the current layout: what it leaves, how long it takes, and that it
writes nothing that is looked at. -/
theorem prelude_spec {r : Roots} (hr : r.Current) :
    prelude.eval e r = some (.ok (readStoreIdMarker r.marker), { r with dbDir := true, temps := [] }) ∧
      prelude.cost e r = r.temps.length + 4 ∧ prelude.Along e (Holds r r.db r.marker) r := by
  have hlegacy : (r.legacy && !r.dbDir) = false := by
    cases hl : r.legacy
    · rfl
    · rw [hr hl]
      rfl
  obtain ⟨heval, hcost, halong⟩ := openBlockWriter_spec (e := e) { r with dbDir := true }
  refine ⟨?_, ?_, ?_⟩
  · simp only [prelude, refuseLegacy, createDbDir, andThen, step, act_bind, ret_bind, eval,
      hlegacy, Bool.false_eq_true, if_false]
    rw [eval_bind, heval]
    rfl
  · simp only [prelude, refuseLegacy, createDbDir, andThen, step, act_bind, ret_bind, cost,
      hlegacy, Bool.false_eq_true, if_false]
    rw [cost_bind heval, hcost]
    rfl
  have hwriter : openBlockWriter.Along e (Holds r r.db r.marker) { r with dbDir := true } :=
    halong.mono fun s h => ⟨h.db, h.marker, h.legacy, fun _ => h.dbDir rfl⟩
  simp only [prelude, refuseLegacy, createDbDir, andThen, step, act_bind, ret_bind, Along,
    hlegacy, Bool.false_eq_true, if_false]
  refine ⟨Holds.self r, Holds.self r, hwriter.bind fun a s' hs' => ?_⟩
  cases heval.symm.trans hs'
  exact ⟨rfl, rfl, rfl, fun _ => rfl⟩

/-- On roots of the old layout nothing is done. -/
theorem openStore_legacy (m : Target) (hasher : Hasher) {r : Roots} (hr : ¬ r.Current) :
    (openStore m hasher).eval e r = some (.error .legacyDatabase, r) ∧
      (openStore m hasher).Along e (fun r' => r' = r) r := by
  have hlegacy : (r.legacy && !r.dbDir) = true := by
    unfold Roots.Current at hr
    revert hr
    cases r.legacy <;> cases r.dbDir <;> simp
  constructor
  · simp only [openStore, refuseLegacy, andThen, step, act_bind, ret_bind, eval, hlegacy, if_true]
  · simp only [openStore, refuseLegacy, andThen, step, act_bind, ret_bind, Along, hlegacy, if_true, and_self]

end Prelude

/-! ## The pairing -/

section Pairing

variable {e : OpenEnv} {r : Roots} {header : StoreHeader} {marker : StoreIdMarker}

/-- The marker is written: the temp file is new, because the purge has left none. -/
theorem writeMarker_spec (id : StoreId) (htemps : r.temps = []) :
    (writeMarker id).eval e r = some (.ok (), { r with marker := markerText id }) ∧
      (writeMarker id).Along e (fun r' => Holds r r.db r.marker r' ∨ Holds r r.db (markerText id) r') r := by
  have hnew : ¬ e.nonce ∈ r.temps := by rw [htemps]; exact not_mem_nil
  constructor
  · simp only [writeMarker, writeMarkerTemp, andThen, step, act_bind, ret_bind, eval, if_neg hnew, erase_cons_head]
    rfl
  · simp only [writeMarker, writeMarkerTemp, andThen, step, act_bind, ret_bind, Along, if_neg hnew]
    exact ⟨.inl (Holds.self r), .inl ⟨rfl, rfl, rfl, fun h => h⟩, .inr ⟨rfl, rfl, rfl, fun h => h⟩⟩

/-- The roots with this header, and its copy. -/
def Roots.withHeader (r : Roots) (h : StoreHeader) : Roots :=
  { r with db := some (some h.toBytes), sidecar := some h.toBytes }

theorem adoptStoreId_spec (header : StoreHeader) (id : StoreId) :
    (adoptStoreId header id).eval e r = some (header.withStoreId id, r.withHeader (header.withStoreId id)) ∧
      (adoptStoreId header id).Along e (fun r' => Holds r r.db r.marker r' ∨
        Holds r (some (some (header.withStoreId id).toBytes)) r.marker r') r := by
  refine ⟨rfl, .inl (Holds.self r), .inl (Holds.self r), ?_⟩
  exact ⟨.inr ⟨rfl, rfl, rfl, fun h => h⟩, .inr ⟨rfl, rfl, rfl, fun h => h⟩⟩

end Pairing

/-! ## What a cut opening leaves -/

/-- The header and the id an opening may write where there is none. -/
inductive Mints (m : Target) (hasher : Hasher) (e : OpenEnv) (r : Roots) : StoreHeader → StoreId → Prop where
  | created (hdb : r.db = none) : Mints m hasher e r (.create hasher e) e.id
  | adopted {h : StoreHeader} {id : StoreId} (hh : r.header m = some h) (hid : h.storeId = none)
      (hmk : r.markerId = some id ∨ r.markerId = none ∧ id = e.id) : Mints m hasher e r (h.withStoreId id) id

/-- Everything an opening that is cut somewhere can leave of `r`. -/
inductive Leaves (m : Target) (hasher : Hasher) (e : OpenEnv) (r : Roots) : Roots → Prop where
  | same {r' : Roots} (h : Holds r r.db r.marker r') : Leaves m hasher e r r'
  | stranded {r' : Roots} (hdb : r.db = none) (h : Holds r (some none) r.marker r') : Leaves m hasher e r r'
  | header {r' : Roots} {h : StoreHeader} {id : StoreId} (hnew : Mints m hasher e r h id)
      (h : Holds r (some (some h.toBytes)) r.marker r') : Leaves m hasher e r r'
  | both {r' : Roots} {h : StoreHeader} {id : StoreId} (hnew : Mints m hasher e r h id) (hmk : r.markerId = none)
      (h : Holds r (some (some h.toBytes)) (markerText id) r') : Leaves m hasher e r r'
  | marker {r' : Roots} {id : StoreId} (hid : r.headerId m = some id) (hmk : r.markerId = none)
      (h : Holds r r.db (markerText id) r') : Leaves m hasher e r r'

section Judge

variable {m : Target} {hasher : Hasher} {e : OpenEnv} {r : Roots}

theorem Mints.storeId {h : StoreHeader} {id : StoreId} (hm : Mints m hasher e r h id) : h.storeId = some id := by
  cases hm with
  | created => exact StoreHeader.storeId_create hasher e
  | adopted => exact StoreHeader.storeId_withStoreId _ _

/-- A header with an id: the marker is compared, or written if it names no store. -/
theorem pairTheRoots_known {header : StoreHeader} {id : StoreId} (hid : header.storeId = some id) :
    pairTheRoots header (readStoreIdMarker r.marker) =
      match r.markerId with
      | some other => .ret (if id = other then .ok header else .error (.pairing id other))
      | none => (writeMarker id).andThen fun _ => .ret (.ok header) := by
  cases hmk : r.markerId with
  | some other =>
    rw [markerId_eq_some.1 hmk]
    simp only [pairTheRoots, hid]
  | none =>
    have hne := markerId_eq_none.1 hmk
    cases hread : readStoreIdMarker r.marker with
    | present other => exact absurd hread (hne other)
    | absent | unreadable found => simp only [pairTheRoots, hid]

/-- A header without one: the marker's id is taken over, or one is minted. -/
theorem pairTheRoots_unknown {header : StoreHeader} (hid : header.storeId = none) :
    pairTheRoots header (readStoreIdMarker r.marker) =
      match r.markerId with
      | some id => (adoptStoreId header id).bind fun adopted => .ret (.ok adopted)
      | none =>
        (step fun e r => some (e.id, r)).bind fun minted =>
        (adoptStoreId header minted).bind fun adopted =>
        (writeMarker minted).andThen fun _ => .ret (.ok adopted) := by
  cases hmk : r.markerId with
  | some other =>
    rw [markerId_eq_some.1 hmk]
    simp only [pairTheRoots, hid]
  | none =>
    have hne := markerId_eq_none.1 hmk
    cases hread : readStoreIdMarker r.marker with
    | present other => exact absurd hread (hne other)
    | absent | unreadable found => simp only [pairTheRoots, hid]

end Judge

/-- Roots that name one store. -/
structure Paired (m : Target) (r : Roots) (id : StoreId) : Prop where
  current : r.Current
  header : r.headerId m = some id
  marker : r.markerId = some id

/-- Two ids that differ. -/
def Mispaired (m : Target) (r : Roots) : Prop := ∃ i j, r.headerId m = some i ∧ r.markerId = some j ∧ i ≠ j

section Judge

variable {m : Target} {hasher : Hasher} {e : OpenEnv} {r : Roots}
variable {h : StoreHeader}

theorem headerId_of_db {id : StoreId} (hdb : r.db = some (some h.toBytes)) (hid : h.storeId = some id) : r.headerId m = some id := by
  rw [Roots.headerId, header_toBytes m hdb, Option.bind_some, hid]

theorem headerId_of_header (hh : r.header m = some h) : r.headerId m = h.storeId := by
  rw [Roots.headerId, hh, Option.bind_some]

/-- The pairing, from a header that was read or has just been written. -/
theorem pairTheRoots_along (hasher : Hasher) (htemps : r.temps = []) (hh : r.header m = some h) :
    (pairTheRoots h (readStoreIdMarker r.marker)).Along e (Leaves m hasher e r) r := by
  have hself : Leaves m hasher e r r := .same (Holds.self r)
  cases hid : h.storeId with
  | some id =>
    have hheader : r.headerId m = some id := (headerId_of_header hh).trans hid
    rw [pairTheRoots_known hid]
    cases hmk : r.markerId with
    | some other => exact hself
    | none =>
      obtain ⟨heval, halong⟩ := writeMarker_spec (e := e) id htemps
      refine Along.bind (halong.mono ?_) ?_
      · rintro r' (hr' | hr')
        · exact .same hr'
        · exact .marker hheader hmk hr'
      · intro res r' hr'
        cases heval.symm.trans hr'
        exact .marker hheader hmk ⟨rfl, rfl, rfl, fun h => h⟩
  | none =>
    rw [pairTheRoots_unknown hid]
    cases hmk : r.markerId with
    | some id =>
      have hnew : Mints m hasher e r (h.withStoreId id) id := .adopted hh hid (.inl hmk)
      obtain ⟨heval, halong⟩ := adoptStoreId_spec (e := e) (r := r) h id
      refine Along.bind (halong.mono ?_) ?_
      · rintro r' (hr' | hr')
        · exact .same hr'
        · exact .header hnew hr'
      · intro res r' hr'
        cases heval.symm.trans hr'
        exact .header hnew ⟨rfl, rfl, rfl, fun h => h⟩
    | none =>
      have hnew : Mints m hasher e r (h.withStoreId e.id) e.id := .adopted hh hid (.inr ⟨hmk, rfl⟩)
      obtain ⟨heval, halong⟩ := adoptStoreId_spec (e := e) (r := r) h e.id
      simp only [step, act_bind, ret_bind, Along]
      refine ⟨hself, Along.bind (halong.mono ?_) ?_⟩
      · rintro r' (hr' | hr')
        · exact .same hr'
        · exact .header hnew hr'
      intro adopted r' hr'
      cases heval.symm.trans hr'
      -- the header is there, the marker is on its way
      obtain ⟨heval', halong'⟩ := writeMarker_spec (e := e) e.id (r := r.withHeader (h.withStoreId e.id)) htemps
      refine Along.bind (halong'.mono ?_) ?_
      · rintro r' (hr' | hr')
        · exact .header hnew ⟨hr'.db, hr'.marker, hr'.legacy, hr'.dbDir⟩
        · exact .both hnew hmk ⟨hr'.db, hr'.marker, hr'.legacy, hr'.dbDir⟩
      · intro res r' hr'
        cases heval'.symm.trans hr'
        exact .both hnew hmk ⟨rfl, rfl, rfl, fun h => h⟩

/-- The pairing comes to its end: the roots name one store, or two stores are refused. -/
theorem pairTheRoots_eval (hcur : r.Current) (htemps : r.temps = []) (hh : r.header m = some h) (hm : ¬ Mispaired m r) : ∃ h' r' id, (pairTheRoots h (readStoreIdMarker r.marker)).eval e r = some (.ok h', r') ∧
      h'.storeId = some id ∧ Paired m r' id := by
  cases hid : h.storeId with
  | some id =>
    have hheader : r.headerId m = some id := (headerId_of_header hh).trans hid
    rw [pairTheRoots_known hid]
    cases hmk : r.markerId with
    | some other =>
      have heq : id = other := by
        by_contra hne
        exact hm ⟨id, other, hheader, hmk, hne⟩
      refine ⟨h, r, id, ?_, hid, hcur, hheader, heq ▸ hmk⟩
      simp only [eval, if_pos heq]
    | none =>
      refine ⟨h, { r with marker := markerText id }, id, ?_, hid, hcur, hheader, markerId_markerText rfl⟩
      simp only [andThen, eval_bind, (writeMarker_spec (e := e) id htemps).1]
      rfl
  | none =>
    rw [pairTheRoots_unknown hid]
    cases hmk : r.markerId with
    | some id =>
      refine ⟨h.withStoreId id, r.withHeader (h.withStoreId id), id, ?_, StoreHeader.storeId_withStoreId h id, ?_⟩
      · simp only [eval_bind, (adoptStoreId_spec (e := e) (r := r) h id).1]
        rfl
      · exact ⟨hcur, headerId_of_db rfl (StoreHeader.storeId_withStoreId h id), hmk⟩
    | none =>
      refine ⟨h.withStoreId e.id, { r.withHeader (h.withStoreId e.id) with marker := markerText e.id }, e.id, ?_,
        StoreHeader.storeId_withStoreId h e.id, ?_⟩
      · simp only [step, act_bind, ret_bind, eval, andThen, eval_bind,
          (adoptStoreId_spec (e := e) (r := r) h e.id).1, Option.bind_some]
        rw [(writeMarker_spec (e := e) e.id (r := r.withHeader (h.withStoreId e.id)) htemps).1]
        rfl
      · exact ⟨hcur, headerId_of_db rfl (StoreHeader.storeId_withStoreId h e.id), markerId_markerText rfl⟩

theorem pairTheRoots_refuses (hh : r.header m = some h) (hm : Mispaired m r) :
    ∃ err, (pairTheRoots h (readStoreIdMarker r.marker)).eval e r = some (.error err, r) := by
  obtain ⟨i, j, hi, hj, hne⟩ := hm
  rw [headerId_of_header hh] at hi
  refine ⟨.pairing i j, ?_⟩
  rw [pairTheRoots_known hi]
  simp only [hj, eval, if_neg hne]

end Judge

/-! ## A whole opening -/

section Opening

variable {m : Target} {hasher : Hasher} {e : OpenEnv} {r : Roots}

/-- The roots after the prelude. -/
def Roots.prepared (r : Roots) : Roots := { r with dbDir := true, temps := [] }

/-- The roots once a new database has its header. -/
def Roots.created (hasher : Hasher) (e : OpenEnv) (r : Roots) : Roots :=
  r.prepared.withHeader (StoreHeader.create hasher e)

theorem Leaves.of_prepared {r' : Roots} (h : Leaves m hasher e r.prepared r') : Leaves m hasher e r r' := by
  have hholds : ∀ {db marker}, Holds r.prepared db marker r' → Holds r db marker r' :=
    fun h => ⟨h.db, h.marker, h.legacy, fun _ => h.dbDir rfl⟩
  have hmints : ∀ {h id}, Mints m hasher e r.prepared h id → Mints m hasher e r h id := by
    intro h id hm
    cases hm with
    | created hdb => exact .created hdb
    | adopted hh hid hmk => exact .adopted hh hid hmk
  cases h with
  | same h => exact .same (hholds h)
  | stranded hdb h => exact .stranded hdb (hholds h)
  | header hnew h => exact .header (hmints hnew) (hholds h)
  | both hnew hmk h => exact .both (hmints hnew) hmk (hholds h)
  | marker hid hmk h => exact .marker hid hmk (hholds h)

/-- What the pairing leaves of a database that has just got its header. -/
theorem Leaves.of_created {r' : Roots} (h : Leaves m hasher e (r.created hasher e) r') :
    Holds r (some (some (StoreHeader.create hasher e).toBytes)) r.marker r' ∨
      r.markerId = none ∧ Holds r (some (some (StoreHeader.create hasher e).toBytes)) (markerText e.id) r' := by
  have hid : (r.created hasher e).headerId m = some e.id := headerId_of_db rfl (StoreHeader.storeId_create hasher e)
  have hholds : ∀ {db marker}, Holds (r.created hasher e) db marker r' → Holds r db marker r' :=
    fun h => ⟨h.db, h.marker, h.legacy, fun _ => h.dbDir rfl⟩
  have hnone : ∀ {h id}, ¬ Mints m hasher e (r.created hasher e) h id := by
    intro h id hm
    cases hm with
    | created hdb => cases hdb
    | adopted hh hnoid _ =>
      rw [headerId_of_header hh, hnoid] at hid
      cases hid
  cases h with
  | same h => exact .inl (hholds h)
  | stranded hdb' h => cases hdb'
  | header hnew h | both hnew hmk h => exact absurd hnew hnone
  | marker hid' hmk h =>
    cases hid.symm.trans hid'
    exact .inr ⟨hmk, hholds h⟩

/-- Where the header is there and decodes, the opening goes on with it. -/
theorem openOrCreate_read (hasher : Hasher) {h : StoreHeader} (hh : r.header m = some h)
    (q : StoreHeader → OpenProg (Except OpenErr StoreHeader)) :
    ((openOrCreate m hasher).andThen q).eval e r = (q h).eval e r ∧
      ∀ {P : Roots → Prop}, P r → (q h).Along e P r → ((openOrCreate m hasher).andThen q).Along e P r := by
  obtain ⟨raw, hdb, hraw⟩ := header_eq_some hh
  obtain ⟨legacy, dbDir, db, sidecar, temps, marker⟩ := r
  subst hdb
  simp only [openOrCreate, classifyDbDir, build, readHeader, andThen, step, act_bind, ret_bind, eval,
    Along, Option.getD_some, Option.isNone_some, Bool.false_eq_true, if_false, hraw, true_and]
  exact fun hP hq => ⟨hP, hP, hP, hq⟩

/-- Where the database is there without a header that decodes, nothing is done. -/
theorem openOrCreate_refuses (hasher : Hasher) {raw : Option Bytes} (hdb : r.db = some raw) (hh : r.header m = none)
    (q : StoreHeader → OpenProg (Except OpenErr StoreHeader)) :
    (∃ err, ((openOrCreate m hasher).andThen q).eval e r = some (.error err, r)) ∧
      ∀ {P : Roots → Prop}, P r → ((openOrCreate m hasher).andThen q).Along e P r := by
  obtain ⟨legacy, dbDir, db, sidecar, temps, marker⟩ := r
  subst hdb
  simp only [openOrCreate, classifyDbDir, build, readHeader, andThen, step, act_bind, ret_bind, eval,
    Along, Option.getD_some, Option.isNone_some, Bool.false_eq_true, if_false]
  cases raw with
  | none => exact ⟨⟨_, rfl⟩, fun hP => ⟨hP, hP, hP, hP⟩⟩
  | some raw =>
    simp only [Roots.header] at hh
    cases hraw : StoreHeader.fromBytes m raw with
    | ok h => simp [hraw] at hh
    | err err | panic =>
      simp only [hraw]
      exact ⟨⟨_, rfl⟩, fun hP => ⟨hP, hP, hP, hP⟩⟩

/-- A new database: two steps to its files, three more to its header, one to the copy. -/
theorem openOrCreate_create (hasher : Hasher) (hdb : r.db = none) (q : StoreHeader → OpenProg (Except OpenErr StoreHeader)) :
    ((openOrCreate m hasher).andThen q).eval e r = (q (.create hasher e)).eval e (r.withHeader (.create hasher e)) ∧
      (∀ n < 2, ((openOrCreate m hasher).andThen q).cut e n r = r) ∧
      (∀ n, 2 ≤ n → n < 5 → ((openOrCreate m hasher).andThen q).cut e n r = { r with db := some none }) ∧
      ((openOrCreate m hasher).andThen q).cut e 5 r = { r with db := some (some (StoreHeader.create hasher e).toBytes) } ∧
      ∀ n, ((openOrCreate m hasher).andThen q).cut e (6 + n) r =
        (q (.create hasher e)).cut e n (r.withHeader (.create hasher e)) := by
  obtain ⟨legacy, dbDir, db, sidecar, temps, marker⟩ := r
  subst hdb
  refine ⟨rfl, ?_, ?_, rfl, ?_⟩
  · intro n hn
    interval_cases n <;> rfl
  · intro n hlo hhi
    interval_cases n <;> rfl
  · intro n
    rw [Nat.add_comm]
    rfl

end Opening

/-! ## Openings one after the other -/

/-- One opening: the options it is made with, what the environment supplies, and the number of
steps after which it is cut. -/
structure Opening where
  hasher : Hasher
  env : OpenEnv
  after : ℕ

/-- What the opening leaves. -/
def Roots.opened (m : Target) (r : Roots) (o : Opening) : Roots := (openStore m o.hasher).cut o.env o.after r

/-- What openings one after the other leave. -/
def Roots.openedBy (m : Target) (r : Roots) (os : List Opening) : Roots := os.foldl (Roots.opened m) r

/-- The opening of a new store is not cut between the files of the database and its header, and
the blocks root carries no other id. -/
def Opening.Whole (r : Roots) (o : Opening) : Prop :=
  r.db = none → o.after < r.temps.length + 6 ∨
    r.temps.length + 9 ≤ o.after ∧ (r.markerId = none ∨ r.markerId = some o.env.id)

section Openings

variable {m : Target} {r : Roots}

/-- The rest of an opening, on roots of the current layout. -/
theorem openStore_cut (hasher : Hasher) (e : OpenEnv) (hr : r.Current) (n : ℕ) :
    (openStore m hasher).cut e (r.temps.length + 4 + n) r =
      (judge m hasher (readStoreIdMarker r.marker)).cut e n r.prepared := by
  obtain ⟨heval, hcost, -⟩ := prelude_spec (e := e) hr
  rw [openStore_eq, ← hcost]
  exact cut_bind_add heval n

theorem openStore_eval (hasher : Hasher) (e : OpenEnv) (hr : r.Current) :
    (openStore m hasher).eval e r = (judge m hasher (readStoreIdMarker r.marker)).eval e r.prepared := by
  rw [openStore_eq, andThen, eval_bind, (prelude_spec (e := e) hr).1]
  rfl

/-- Before the database is touched. -/
theorem openStore_cut_early (hasher : Hasher) (e : OpenEnv) (hr : r.Current) {n : ℕ} (hn : n ≤ r.temps.length + 4) :
    Holds r r.db r.marker ((openStore m hasher).cut e n r) := by
  obtain ⟨-, hcost, halong⟩ := prelude_spec (e := e) hr
  rw [openStore_eq, andThen, cut_bind_of_le (by omega)]
  exact halong.cut n

/-- **The opening of a new store**: the three things it can leave, and where the cut falls for each. -/
theorem opened_new (o : Opening) (hr : r.Current) (hdb : r.db = none) :
    (o.after < r.temps.length + 6 → Holds r none r.marker (r.opened m o)) ∧
    (r.temps.length + 6 ≤ o.after → o.after < r.temps.length + 9 → Holds r (some none) r.marker (r.opened m o)) ∧
    (r.temps.length + 9 ≤ o.after →
      Holds r (some (some (StoreHeader.create o.hasher o.env).toBytes)) r.marker (r.opened m o) ∨ r.markerId = none ∧
          Holds r (some (some (StoreHeader.create o.hasher o.env).toBytes)) (markerText o.env.id) (r.opened m o)) := by
  obtain ⟨-, hfirst, hfiles, hheader, hlast⟩ := openOrCreate_create (m := m) o.hasher (e := o.env)
    (r := r.prepared) hdb fun header => pairTheRoots header (readStoreIdMarker r.marker)
  have hcut := openStore_cut (m := m) o.hasher o.env hr
  refine ⟨?_, ?_, ?_⟩
  · intro hlt
    rcases Nat.lt_or_ge o.after (r.temps.length + 4) with hn | hn
    · rw [← hdb]
      exact openStore_cut_early o.hasher o.env hr (by omega)
    · obtain ⟨n, hn⟩ := Nat.exists_eq_add_of_le hn
      rw [Roots.opened, hn, hcut n, judge, hfirst n (by omega)]
      exact ⟨hdb, rfl, rfl, fun _ => rfl⟩
  · intro hlo hhi
    obtain ⟨n, hn⟩ := Nat.exists_eq_add_of_le (show r.temps.length + 4 ≤ o.after by omega)
    rw [Roots.opened, hn, hcut n, judge, hfiles n (by omega) (by omega)]
    exact ⟨rfl, rfl, rfl, fun _ => rfl⟩
  · intro hlo
    obtain ⟨n, hn⟩ := Nat.exists_eq_add_of_le (show r.temps.length + 9 ≤ o.after by omega)
    rw [Roots.opened, hn, show r.temps.length + 9 + n = r.temps.length + 4 + (5 + n) by omega, hcut, judge]
    cases n with
    | zero =>
      rw [Nat.add_zero, hheader]
      exact .inl ⟨rfl, rfl, rfl, fun _ => rfl⟩
    | succ n =>
      rw [show 5 + (n + 1) = 6 + n by omega, hlast]
      have hh : (r.created o.hasher o.env).header m = some (.create o.hasher o.env) := header_toBytes m rfl
      have halong := pairTheRoots_along o.hasher (e := o.env) (r := r.created o.hasher o.env) rfl hh
      exact Leaves.of_created (halong.cut n)

/-- **Everything an opening of roots with a database can leave.** -/
theorem opened_there {raw : Option Bytes} (o : Opening) (hdb : r.db = some raw) :
    Leaves m o.hasher o.env r (r.opened m o) := by
  by_cases hr : r.Current
  · rcases Nat.lt_or_ge o.after (r.temps.length + 4) with hn | hn
    · exact .same (openStore_cut_early o.hasher o.env hr (by omega))
    obtain ⟨n, hn⟩ := Nat.exists_eq_add_of_le hn
    rw [Roots.opened, hn, openStore_cut o.hasher o.env hr n, judge]
    apply Leaves.of_prepared
    have hself : Leaves m o.hasher o.env r.prepared r.prepared := .same (Holds.self _)
    cases hh : r.header m with
    | none =>
      have hrefuse := openOrCreate_refuses o.hasher (e := o.env) (r := r.prepared) hdb hh
        fun header => pairTheRoots header (readStoreIdMarker r.marker)
      exact (hrefuse.2 hself).cut n
    | some h =>
      have hread := openOrCreate_read o.hasher (e := o.env) (r := r.prepared) hh
        fun header => pairTheRoots header (readStoreIdMarker r.marker)
      exact (hread.2 hself (pairTheRoots_along o.hasher (r := r.prepared) rfl hh)).cut n
  · have hsame := (openStore_legacy (e := o.env) m o.hasher hr).2.cut o.after
    rw [Roots.opened, hsame]
    exact .same (Holds.self r)

end Openings

end QssStorage
