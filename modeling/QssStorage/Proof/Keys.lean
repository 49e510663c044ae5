import QssStorage.Conc.Runs
import QssStorage.Data.Paging
import QssStorage.Proof.Formats
import QssStorage.Spec.GetObject

/-!
# Keys in order

What the order of keys stands for. A block id is compared by its padded bytes and then by its
width, and its raw key by its significant bytes; the key of a part ends in its number, most
significant byte first.

* `blockIds_in_order`: **ids sort as their raw keys do**, in any mixture of widths.
* `partKey_scans`: **a key names one part, and the scan of an upload's prefix meets the parts of
  that upload and no other's, by their numbers.**
-/

namespace QssStorage

open Conc Prog List

section Lists

variable {α : Type} [LinearOrder α]

/-- Between lists of one length what stands behind them decides only where they agree. -/
theorem append_lt_append : ∀ {x y : List α} {a b : List α}, x.length = y.length →
    (x ++ a < y ++ b ↔ x < y ∨ x = y ∧ a < b) := by
  intro x
  induction x with
  | nil =>
    intro y a b h
    obtain rfl := length_eq_zero_iff.1 h.symm
    simp
  | cons c x ih =>
    intro y a b h
    cases y with
    | nil => cases h
    | cons d y =>
      simp only [cons_append, cons_lt_cons_iff, ih (Nat.succ.inj h), List.cons.injEq]
      tauto

variable [OrderBot α]

/-- The list, filled up to the length `n`. -/
def padTo (n : ℕ) (x : List α) : List α := x ++ List.replicate (n - x.length) ⊥

theorem replicate_bot_le : ∀ x : List α, List.replicate x.length ⊥ ≤ x := by
  intro x
  induction x with
  | nil => exact le_refl _
  | cons a x ih =>
    rw [length_cons, replicate_succ, Paging.cons_le_cons_iff]
    exact (bot_le (a := a)).lt_or_eq.imp id fun h => ⟨h, ih⟩

/-- Padding keeps the order, up to lists that it makes equal: of those the shorter one is below. -/
theorem padTo_lt : ∀ {x y : List α} {n : ℕ}, x < y → x.length ≤ n → y.length ≤ n →
    padTo n x < padTo n y ∨ padTo n x = padTo n y ∧ x.length < y.length := by
  intro x
  induction x with
  | nil =>
    intro y n hlt _ hy
    have hlen : (padTo n y).length = n := by simp [padTo, hy]
    have hle : List.replicate n ⊥ ≤ padTo n y := by
      conv_lhs => rw [← hlen]
      exact replicate_bot_le _
    have hpos : 0 < y.length := length_pos_of_ne_nil hlt.ne'
    exact hle.lt_or_eq.imp id fun h => ⟨h, hpos⟩
  | cons a x ih =>
    intro y n hlt hx hy
    cases y with
    | nil => exact absurd hlt (not_lt_nil _)
    | cons b y =>
      obtain ⟨n, rfl⟩ : ∃ k, n = k + 1 := ⟨n - 1, by simp at hx; omega⟩
      have hpad : ∀ (c : α) (z : List α), padTo (n + 1) (c :: z) = c :: padTo n z := fun c z => by
        simp [padTo]
      rw [hpad, hpad, cons_lt_cons_iff]
      rcases cons_lt_cons_iff.1 hlt with hab | ⟨rfl, hxy⟩
      · exact .inl (.inl hab)
      · rcases ih hxy (Nat.le_of_succ_le_succ hx) (Nat.le_of_succ_le_succ hy) with h | ⟨h, hl⟩
        · exact .inl (.inr ⟨rfl, h⟩)
        · exact .inr ⟨by rw [h], Nat.succ_lt_succ hl⟩

end Lists

/-! ## Block ids -/

namespace BlockId

theorem bytes_eq_padTo (id : BlockId) : id.bytes = padTo maxBlockIdSize id.asSlice := by
  rw [padTo, length_asSlice]
  exact id.asSlice_append.symm

theorem length_asSlice_le (id : BlockId) : id.asSlice.length ≤ maxBlockIdSize := by
  rw [length_asSlice]
  rcases id.width with h | h <;> simp [h, blockIdSize, maxBlockIdSize]

theorem asSlice_injective : Function.Injective asSlice := by
  intro a b h
  exact Option.some.inj ((fromSlice_asSlice a).symm.trans (h ▸ fromSlice_asSlice b))

theorem lt_of_asSlice_lt {a b : BlockId} (h : a.asSlice < b.asSlice) : a < b := by
  show toLex (a.bytes, a.len) < toLex (b.bytes, b.len)
  rw [Prod.Lex.toLex_lt_toLex, bytes_eq_padTo, bytes_eq_padTo, ← length_asSlice, ← length_asSlice]
  exact padTo_lt h a.length_asSlice_le b.length_asSlice_le

theorem asSlice_strictMono : StrictMono asSlice := by
  intro a b hlt
  rcases lt_trichotomy a.asSlice b.asSlice with h | h | h
  · exact h
  · exact absurd (asSlice_injective h) hlt.ne
  · exact absurd (lt_of_asSlice_lt h) hlt.asymm

end BlockId

/-- **Block ids are compared as their significant bytes are**, so ids and raw keys sort alike. -/
theorem blockIds_in_order (a b : BlockId) (ids : List BlockId) :
    (a < b ↔ a.asSlice < b.asSlice) ∧ (a = b ↔ a.len = b.len ∧ a.asSlice = b.asSlice) ∧
      (ids.mergeSort fun x y => x ≤ y).map BlockId.asSlice =
        (ids.map BlockId.asSlice).mergeSort fun x y => x ≤ y := by
  refine ⟨BlockId.asSlice_strictMono.lt_iff_lt.symm, ⟨?_, ?_⟩, map_mergeSort fun x _ y _ => ?_⟩
  · rintro rfl
    exact ⟨rfl, rfl⟩
  · exact fun h => BlockId.asSlice_injective h.2
  · exact decide_eq_decide.2 BlockId.asSlice_strictMono.le_iff_le.symm

/-! ## Part keys -/

/-- Numbers are in the order of their bytes, the most significant one first. -/
theorem bigEndian_lt : ∀ (w : ℕ) {n m : ℕ}, n < m → m < 256 ^ w → (leBytes w n).reverse < (leBytes w m).reverse := by
  intro w
  induction w with
  | zero => intro n m hlt hm; omega
  | succ w ih =>
    intro n m hlt hm
    have hm' : m / 256 < 256 ^ w := Nat.div_lt_of_lt_mul (by rwa [pow_succ'] at hm)
    simp only [leBytes, reverse_cons]
    rw [append_lt_append (by simp [length_leBytes])]
    rcases (Nat.div_le_div_right (c := 256) hlt.le).lt_or_eq with h | h
    · exact .inl (ih h hm')
    · refine .inr ⟨by rw [h], cons_lt_cons_iff.2 (.inl (Fin.mk_lt_mk.2 ?_))⟩
      omega

/-- A field behind its length cannot be read in two ways. -/
theorem field_starts {a b x y : Bytes} (ha : a.length < 2 ^ 64) (hb : b.length < 2 ^ 64)
    (h : putLen a.length ++ (a ++ x) <+: putLen b.length ++ (b ++ y)) : a = b ∧ x <+: y := by
  obtain ⟨rest, hrest⟩ := h
  have hlens : (putLen a.length).length = (putLen b.length).length := by
    rw [putLen, putLen, length_leBytes, length_leBytes]
  rw [append_assoc] at hrest
  obtain ⟨hlen, htail⟩ := append_inj hrest hlens
  have hlength : a.length = b.length := by
    have hread := congrArg ofLeBytes hlen
    rwa [putLen, putLen, ofLeBytes_leBytes (by simpa using ha), ofLeBytes_leBytes (by simpa using hb)] at hread
  rw [append_assoc] at htail
  obtain ⟨hab, hxy⟩ := append_inj htail hlength
  exact ⟨hab, rest, hxy⟩

/-- What names an upload: strings as long as a string can be. -/
structure UploadName where
  bucket : Bytes
  key : Bytes
  uploadId : Bytes
  short : bucket.length < 2 ^ 64 ∧ key.length < 2 ^ 64 ∧ uploadId.length < 2 ^ 64

/-- What names a part: its upload and a number that is not negative. -/
structure PartName where
  upload : UploadName
  partNumber : ℤ
  range : 0 ≤ partNumber ∧ partNumber < 2 ^ 63

def UploadName.uploadKey (u : UploadName) : Bytes := QssStorage.uploadKey u.bucket u.key u.uploadId

def UploadName.partPrefix (u : UploadName) : Bytes := QssStorage.partPrefix u.bucket u.key u.uploadId

def PartName.partKey (p : PartName) : Bytes :=
  QssStorage.partKey p.upload.bucket p.upload.key p.upload.uploadId p.partNumber

namespace PartName

variable {p q : PartName}

theorem partKey_eq (p : PartName) : p.partKey = p.upload.partPrefix ++ (leBytes 8 p.partNumber.toNat).reverse := by
  have hrange := p.range
  unfold partKey QssStorage.partKey UploadName.partPrefix
  rw [Int.emod_eq_of_lt hrange.1 (by omega)]

theorem partKey_lt (hupload : p.upload = q.upload) (h : p.partNumber < q.partNumber) : p.partKey < q.partKey := by
  have hp := p.range
  have hq := q.range
  rw [partKey_eq, partKey_eq, hupload, append_lt_append rfl]
  exact .inr ⟨rfl, bigEndian_lt 8 (by omega) (by omega)⟩

/-- The part keys under an upload's prefix are those of its parts. -/
theorem partPrefix_iff {u : UploadName} : u.partPrefix <+: p.partKey ↔ p.upload = u := by
  constructor
  · intro h
    unfold partKey QssStorage.partKey UploadName.partPrefix QssStorage.partPrefix at h
    simp only [append_assoc] at h
    obtain ⟨hb, h⟩ := field_starts u.short.1 p.upload.short.1 h
    obtain ⟨hk, h⟩ := field_starts u.short.2.1 p.upload.short.2.1 h
    obtain ⟨hi, -⟩ := field_starts (x := []) u.short.2.2 p.upload.short.2.2 (by rwa [append_nil])
    exact (UploadName.mk.injEq ..).symm ▸ ⟨hb.symm, hk.symm, hi.symm⟩
  · rintro rfl
    exact prefix_append _ _

theorem upload_eq (h : p.partKey = q.partKey) : p.upload = q.upload :=
  partPrefix_iff.1 (h ▸ partPrefix_iff.2 rfl)

theorem partNumber_lt (hupload : p.upload = q.upload) (h : p.partKey < q.partKey) : p.partNumber < q.partNumber := by
  refine not_le.1 fun hle => ?_
  rcases hle.lt_or_eq with hgt | heq
  · exact (partKey_lt hupload.symm hgt).asymm h
  · rw [partKey_eq, partKey_eq, hupload, heq] at h
    exact lt_irrefl _ h

theorem partKey_injective : Function.Injective partKey := by
  intro p q h
  have hupload := upload_eq h
  have hnumber : p.partNumber = q.partNumber := le_antisymm
    (not_lt.1 fun hlt => (partKey_lt hupload.symm hlt).ne' h) (not_lt.1 fun hlt => (partKey_lt hupload hlt).ne h)
  exact (PartName.mk.injEq ..).symm ▸ ⟨hupload, hnumber⟩

end PartName

theorem UploadName.uploadKey_injective : Function.Injective UploadName.uploadKey := by
  intro u v h
  unfold UploadName.uploadKey QssStorage.uploadKey at h
  simp only [append_assoc] at h
  obtain ⟨hb, htail⟩ := field_starts u.short.1 v.short.1 ⟨[], by rw [append_nil, h]⟩
  rw [hb] at h
  obtain ⟨hk, -⟩ := field_starts u.short.2.1 v.short.2.1 htail
  rw [hk] at h
  simp only [append_cancel_left_eq] at h
  exact (UploadName.mk.injEq ..).symm ▸ ⟨hb, hk, h⟩

/-! ## The scan of a prefix -/

/-- The keys with a prefix stand together, so the scan meets all of them. -/
theorem takeWhile_starts {V : Type} {pre : Bytes} : ∀ {l : List (Bytes × V)}, l.Pairwise (fun a b => a.1 < b.1) →
    (∀ e ∈ l, pre ≤ e.1) → (l.takeWhile fun e => pre.isPrefixOf e.1) = l.filter fun e => pre.isPrefixOf e.1 := by
  intro l
  induction l with
  | nil => intro _ _; rfl
  | cons e l ih =>
    intro hl hpre
    obtain ⟨hfirst, hrest⟩ := pairwise_cons.1 hl
    by_cases he : pre.isPrefixOf e.1 = true
    · rw [takeWhile_cons_of_pos (by exact he), filter_cons_of_pos (by exact he),
        ih hrest fun e he => hpre e (mem_cons_of_mem _ he)]
    -- a later key with the prefix would put this one between the prefix and it
    have hnone : ∀ e' ∈ e :: l, ¬ pre.isPrefixOf e'.1 = true := by
      intro e' he' hstarts
      have hle : e.1 ≤ e'.1 := by
        rcases mem_cons.1 he' with rfl | hlater
        · exact le_rfl
        · exact (hfirst e' hlater).le
      exact he (List.isPrefixOf_iff_prefix.2 (Paging.prefix_of_between (List.isPrefixOf_iff_prefix.1 hstarts)
        (hpre e mem_cons_self) hle))
    rw [takeWhile_cons_of_neg (by exact he), filter_eq_nil_iff.2 hnone]

/-- The entries that the scan of a prefix meets. -/
def scanned (t : OrdMap Bytes (Cell MultiPart)) (pre : Bytes) : List (Bytes × Cell MultiPart) :=
  (t.behind (some pre)).takeWhile fun e => pre.isPrefixOf e.1

section Scanned

variable {t : OrdMap Bytes (Cell MultiPart)} {pre : Bytes} {e : Bytes × Cell MultiPart} {u : UploadName} {p : PartName}

theorem scanned_eq (t : OrdMap Bytes (Cell MultiPart)) (pre : Bytes) :
    scanned t pre = (t.behind (some pre)).filter fun e => pre.isPrefixOf e.1 :=
  takeWhile_starts (t.sorted.filter _) fun _ he => (OrdMap.mem_behind.1 he).2.le

theorem scanned_sorted (t : OrdMap Bytes (Cell MultiPart)) (pre : Bytes) :
    (scanned t pre).Pairwise fun a b => a.1 < b.1 := by
  rw [scanned_eq]
  exact (t.sorted.filter _).filter _

theorem mem_scanned : e ∈ scanned t pre ↔ e ∈ t.entries ∧ pre <+: e.1 ∧ pre ≠ e.1 := by
  rw [scanned_eq, mem_filter, OrdMap.mem_behind, List.isPrefixOf_iff_prefix, and_assoc, and_comm (a := pre < e.1)]
  refine and_congr_right fun _ => and_congr_right fun hstarts => ⟨ne_of_lt, fun hne => ?_⟩
  exact lt_of_le_of_ne (Paging.le_of_starts hstarts) hne

/-- The scan starts behind the prefix, and a part's key is longer. -/
theorem PartName.mem_scanned (h : e ∈ t.entries) (hkey : e.1 = p.partKey) : e ∈ scanned t u.partPrefix ↔ p.upload = u := by
  rw [QssStorage.mem_scanned, hkey, PartName.partPrefix_iff]
  refine ⟨fun hmet => hmet.2.1, fun hupload => ⟨h, hupload, fun heq => ?_⟩⟩
  have hlen := congrArg List.length heq
  rw [partKey_eq, hupload, length_append, length_reverse, length_leBytes] at hlen
  omega

theorem scanned_by_number (t : OrdMap Bytes (Cell MultiPart)) (u : UploadName) :
    (scanned t u.partPrefix).Pairwise fun e e' => ∀ p p' : PartName, e.1 = p.partKey → e'.1 = p'.partKey →
      p.partNumber < p'.partNumber := by
  refine (scanned_sorted t _).imp_of_mem fun {e e'} he he' hlt p p' hp hp' => ?_
  have hup := (PartName.mem_scanned (QssStorage.mem_scanned.1 he).1 hp).1 he
  have hup' := (PartName.mem_scanned (QssStorage.mem_scanned.1 he').1 hp').1 he'
  exact PartName.partNumber_lt (hup.trans hup'.symm) (hp ▸ hp' ▸ hlt)

end Scanned

theorem readStore_ends {s : Store} {α : Type} {body : Store → Except Err α} {Q : Except Err α → Store → Prop} (h : Q (body s) s) :
    Ends readsOk (readStore body) Q s :=
  ends_step fun _ he => ⟨_, _, if_pos he, h⟩

/-- The record of a cell that decodes. -/
def Cell.decoded {α : Type} : Cell α → Option α
  | .record a => some a
  | .garbage => none

/-- The scan of an upload's parts, over whatever the tree holds. -/
theorem partsOf_answers {s : Store} {pre : Bytes} {fuel : ℕ} {cursor : Option Bytes}
    (hfuel : (s.parts.behind cursor).length < fuel) :
    Ends readsOk (partsOf pre fuel cursor) (fun r s' => s' = s ∧
      r = ((s.parts.behind cursor).takeWhile fun e => pre.isPrefixOf e.1).filterMap fun e => e.2.decoded) s := by
  refine OrdMap.walk_induction (P := fun fuel cursor l => Ends readsOk (partsOf pre fuel cursor) (fun r s' => s' = s ∧
    r = (l.takeWhile fun e => pre.isPrefixOf e.1).filterMap fun e => e.2.decoded) s) ?_ ?_ _ rfl hfuel
  · intro fuel cursor hnext
    exact ends_bind (readStore_ends (by rw [hnext]; exact ⟨rfl, rfl⟩))
  rintro fuel cursor ⟨k, cell⟩ rest hnext ih
  refine ends_bind (readStore_ends ?_)
  rw [hnext]
  dsimp only
  split
  · rename_i hk
    refine ends_bind (ih.mono ?_)
    rintro _ _ ⟨rfl, rfl⟩
    rw [takeWhile_cons_of_pos (by exact hk)]
    cases cell <;> exact ⟨rfl, rfl⟩
  · rename_i hk
    rw [takeWhile_cons_of_neg (by exact hk)]
    exact ⟨rfl, rfl⟩

/-- **Keys name one thing, and the scan of a prefix meets one upload's parts.** Whatever else the
tree holds, the scan gives the decodable records among the entries it meets; it meets a part's
entry exactly when the part is of that upload, and parts in the order of their numbers. -/
theorem partKey_scans :
    Function.Injective PartName.partKey ∧ Function.Injective UploadName.uploadKey ∧
      (∀ (u : UploadName) (p : PartName), u.partPrefix <+: p.partKey ↔ p.upload = u) ∧
      ∀ (s : Store) (u : UploadName), ∃ met : List (Bytes × Cell MultiPart),
        (∀ fuel, s.parts.entries.length < fuel → Ends readsOk (partsOf u.partPrefix fuel (some u.partPrefix))
          (fun r s' => s' = s ∧ r = met.filterMap fun e => e.2.decoded) s) ∧
        (∀ e ∈ met, e ∈ s.parts.entries ∧ u.partPrefix <+: e.1) ∧
        (∀ (p : PartName) (cell : Cell MultiPart), s.parts.get p.partKey = some cell →
          ((p.partKey, cell) ∈ met ↔ p.upload = u)) ∧
        met.Pairwise fun e e' => ∀ p p' : PartName, e.1 = p.partKey → e'.1 = p'.partKey → p.partNumber < p'.partNumber := by
  refine ⟨PartName.partKey_injective, UploadName.uploadKey_injective, fun u p => PartName.partPrefix_iff, fun s u => ?_⟩
  refine ⟨scanned s.parts u.partPrefix, fun fuel hfuel => ?_, fun e he => ?_, fun p cell hcell => ?_, scanned_by_number _ u⟩
  · exact partsOf_answers ((OrdMap.length_behind_le _ _).trans_lt hfuel)
  · obtain ⟨hentry, hstarts, -⟩ := mem_scanned.1 he
    exact ⟨hentry, hstarts⟩
  · exact PartName.mem_scanned (OrdMap.mem_entries.2 hcell) rfl

end QssStorage
