import QssStorage.Proof.Keys
import QssStorage.Spec.UploadListing

/-!
# Uploads and parts, page by page

A client that lists the uploads of a bucket, or the parts of an upload, passes back the markers
of every truncated page. Both listings are taken from a list in strict order, and a marker names
the last entry of a page, so what is behind it is what the page left (`drop_eq_filter`).

* `listings_complete`: **every upload and every part is shown once, in order.**
-/

namespace QssStorage

open Conc Prog List

/-! ## The client -/

/-- A client that passes on markers until an answer has none. -/
def followMarkers {β τ : Type} (ask : ℕ → Option τ → StoreProg (Except S3Err (List β × Option τ))) :
    ℕ → ℕ → Option τ → StoreProg (Except S3Err (List (List β)))
  | 0, _, _ => Prog.step fun _ _ => none
  | fuel + 1, k, marker => (ask k marker).andThen fun
    | (shown, none) => .ret (.ok [shown])
    | (shown, some next) => (followMarkers ask fuel (k + 1) (some next)).andThen fun rest => .ret (.ok (shown :: rest))

/-- One request for uploads. -/
def askUploads (fuel : ℕ) (bucket : Bytes) (pre : Option Bytes) (sizes : ℕ → Option ℤ) (k : ℕ)
    (marker : Option (Bytes × Bytes)) : StoreProg (Except S3Err (List UploadDto × Option (Bytes × Bytes))) :=
  (listMultipartUploadsOp fuel bucket ⟨marker.map Prod.fst, marker.map Prod.snd, pre, sizes k⟩).andThen fun out =>
    .ret (.ok (out.uploads, if out.isTruncated then
      out.nextKeyMarker.bind fun key => out.nextUploadIdMarker.map fun uploadId => (key, uploadId) else none))

/-- One request for parts. -/
def askParts (fuel : ℕ) (bucket key uploadId : Bytes) (sizes : ℕ → Option ℤ) (k : ℕ) (marker : Option ℤ) :
    StoreProg (Except S3Err (List PartDto × Option ℤ)) :=
  (listPartsOp fuel bucket key uploadId ⟨marker, sizes k⟩).andThen fun out =>
    .ret (.ok (out.parts, if out.isTruncated then out.nextPartNumberMarker else none))

/-- The pages show the entries that meet `All`, each once and in order, and no page shows more than
was asked for. -/
def PagesOf {α β : Type} (dto : α → β) (Before : α → α → Prop) (All : α → Prop) (sizes : ℕ → Option ℤ)
    (pages : List (List β)) : Prop :=
  (∃ l : List α, pages.flatten = l.map dto ∧ l.Pairwise Before ∧ ∀ a, a ∈ l ↔ All a) ∧
    ∀ i p, pages[i]? = some p → ∀ n ∈ sizes i, (p.length : ℤ) ≤ n

section Follow

variable {α β κ τ : Type} [LinearOrder κ] {label : α → κ}

/-- In a list in strict order, what is behind the last entry of a page is what the page left. -/
theorem drop_eq_filter {l : List α} (hl : l.Pairwise fun a b => label a < label b) {n : ℕ} {last : α}
    (h : (l.take n).getLast? = some last) : l.drop n = l.filter fun a => label last < label a := by
  have hsplit := hl
  rw [← take_append_drop n l] at hsplit
  obtain ⟨htaken, -, hacross⟩ := pairwise_append.1 hsplit
  have hmem : last ∈ l.take n := mem_of_getLast? h
  have hupto : ∀ a ∈ l.take n, ¬ decide (label last < label a) = true := by
    intro a ha
    rw [decide_eq_true_eq, not_lt]
    obtain ⟨front, hfront⟩ := getLast?_eq_some_iff.1 h
    rw [hfront] at ha htaken
    rcases mem_append.1 ha with ha | ha
    · exact ((pairwise_append.1 htaken).2.2 a ha last mem_cons_self).le
    · rw [mem_singleton.1 ha]
  have hbehind : ∀ a ∈ l.drop n, decide (label last < label a) = true := fun a ha => decide_eq_true (hacross last hmem a ha)
  conv_rhs => rw [← take_append_drop n l]
  rw [filter_append, filter_eq_nil_iff.2 hupto, nil_append, filter_eq_self.2 hbehind]

/-- The entries of a listing behind a marker, which is read as a label. -/
def pastMarker (label : α → κ) (read : τ → κ) (l : List α) (marker : Option τ) : List α :=
  l.filter fun a => decide (∀ m ∈ marker, read m < label a)

@[simp] theorem pastMarker_none (read : τ → κ) (l : List α) : pastMarker label read l none = l := by simp [pastMarker]

theorem pastMarker_next {mark : α → τ} {read : τ → κ} {l : List α} (hl : l.Pairwise fun a b => label a < label b)
    (hread : ∀ a ∈ l, read (mark a) = label a) {marker : Option τ} {n : ℕ} {last : α}
    (h : ((pastMarker label read l marker).take n).getLast? = some last) :
    (pastMarker label read l marker).drop n = pastMarker label read l (some (mark last)) := by
  have hpast : last ∈ pastMarker label read l marker := mem_of_mem_take (mem_of_getLast? h)
  obtain ⟨hlast, hbehind⟩ := mem_filter.1 hpast
  unfold pastMarker at h ⊢
  rw [drop_eq_filter (hl.filter _) h, filter_filter]
  refine filter_congr fun a _ => ?_
  have hiff : (label last < label a ∧ ∀ m ∈ marker, read m < label a) ↔ ∀ m ∈ some (mark last), read m < label a := by
    constructor
    · rintro ⟨hlt, -⟩ m hm
      obtain rfl := Option.some.inj hm
      rwa [hread last hlast]
    · intro hall
      have hlt := hall _ rfl
      rw [hread last hlast] at hlt
      exact ⟨hlt, fun m hm => (of_decide_eq_true hbehind m hm).trans hlt⟩
  rw [← decide_eq_decide.2 hiff, Bool.decide_and]

/-- **Following the markers**, by induction on the requests that are left. -/
theorem follow_ends {s : Store} {ask : ℕ → Option τ → StoreProg (Except S3Err (List β × Option τ))} {size : ℕ → ℕ}
    (hsize : ∀ k, 1 ≤ size k) {dto : α → β} {mark : α → τ} {read : τ → κ} {l : List α}
    (hl : l.Pairwise fun a b => label a < label b)
    (hask : ∀ k marker, Ends readsOk (ask k marker) (fun r s' => s' = s ∧
      let left := pastMarker label read l marker
      r = .ok ((left.take (size k)).map dto,
        if size k < left.length then (left.take (size k)).getLast?.map mark else none)) s)
    (hread : ∀ a ∈ l, read (mark a) = label a) :
    ∀ fuel k marker, (pastMarker label read l marker).length < fuel →
      Ends readsOk (followMarkers ask fuel k marker) (fun r s' => s' = s ∧ ∃ pages, r = .ok pages ∧
        pages.flatten = (pastMarker label read l marker).map dto ∧
          ∀ i p, pages[i]? = some p → p.length ≤ size (k + i)) s := by
  intro fuel
  induction fuel with
  | zero => intro k marker h; exact absurd h (Nat.not_lt_zero _)
  | succ fuel ih =>
    intro k marker hlen
    refine ends_andThen ((hask k marker).mono ?_)
    rintro r _ ⟨rfl, rfl⟩
    have hnext : ∀ last, ((pastMarker label read l marker).take (size k)).getLast? = some last →
        (pastMarker label read l marker).drop (size k) = pastMarker label read l (some (mark last)) := fun _ => pastMarker_next hl hread
    generalize pastMarker label read l marker = left at hlen hnext ⊢
    refine ⟨_, rfl, ?_⟩
    have hshort : ((left.take (size k)).map dto).length ≤ size k := by
      rw [length_map, length_take]
      exact min_le_left _ _
    by_cases hmore : size k < left.length
    · -- a page that is not the last one is not empty
      have hk := hsize k
      have hne : left.take (size k) ≠ [] := by
        refine ne_nil_of_length_pos ?_
        rw [length_take]
        omega
      obtain ⟨last, hlast⟩ : ∃ last, (left.take (size k)).getLast? = some last := ⟨_, getLast?_eq_some_getLast hne⟩
      have hleft : (left.drop (size k)).length < fuel := by
        rw [length_drop]
        omega
      rw [hnext last hlast] at hleft
      rw [if_pos hmore, hlast, Option.map_some]
      refine ends_andThen ((ih (k + 1) _ hleft).mono ?_)
      rintro _ _ ⟨rfl, rest, rfl, hflat, hsizes⟩
      refine ⟨rest, rfl, rfl, _, rfl, ?_, fun i p hp => ?_⟩
      · rw [flatten_cons, hflat, ← hnext last hlast, ← map_append, take_append_drop]
      cases i with
      | zero => cases hp; exact hshort
      | succ i =>
        have hi := hsizes i p hp
        rwa [Nat.add_assoc, Nat.add_comm 1 i] at hi
    · rw [if_neg hmore]
      refine ⟨rfl, _, rfl, ?_, fun i p hp => ?_⟩
      · rw [flatten_singleton, take_of_length_le (Nat.le_of_not_lt hmore)]
      · cases i with
        | zero => cases hp; exact hshort
        | succ i => cases hp

end Follow

/-! ## The requests -/

section Requests

variable {s : Store} {sizes : ℕ → Option ℤ}
variable {V : Type} {us : List UploadRecord} {ps : List MultiPart}
variable {cursor : Option Bytes} {l : List (Bytes × Cell V)}

theorem tryStore_ends {α : Type} {p : StoreProg (Except Err α)} {Q : Except S3Err α → Store → Prop}
    (h : Ends readsOk p (fun r s' => ∃ a, r = .ok a ∧ Q (.ok a) s') s) : Ends readsOk (tryStore p) Q s := by
  refine ends_bind (h.mono ?_)
  rintro _ s' ⟨a, rfl, ha⟩
  exact ha

/-- How many entries a page shows. -/
def pageSize (asked : Option ℤ) (most : ℤ) : ℕ := (pageLimit asked most).toNat

theorem one_le_pageSize {asked : Option ℤ} {most : ℤ} (h : ∀ n ∈ asked, 1 ≤ n) (hmost : 1 ≤ most) :
    1 ≤ pageSize asked most := by
  unfold pageSize pageLimit
  cases asked with
  | none => simp only [Option.getD_none]; omega
  | some n =>
    have hn := h n rfl
    simp only [Option.getD_some]
    omega

theorem pageSize_le {asked : Option ℤ} {most : ℤ} (h : ∀ n ∈ asked, 1 ≤ n) : ∀ n ∈ asked, (pageSize asked most : ℤ) ≤ n := by
  rintro n rfl
  have hn := h n rfl
  unfold pageSize pageLimit
  simp only [Option.getD_some]
  omega

/-- **The pages of a listing**, from its first request on. -/
theorem pages_end {α β κ τ : Type} [LinearOrder κ] {label : α → κ} {most : ℤ} (hsizes : ∀ k, ∀ n ∈ sizes k, 1 ≤ n)
    (hmost : 1 ≤ most) {ask : ℕ → Option τ → StoreProg (Except S3Err (List β × Option τ))} {dto : α → β} {mark : α → τ}
    {read : τ → κ} {l : List α} (hl : l.Pairwise fun a b => label a < label b)
    (hask : ∀ k marker, Ends readsOk (ask k marker) (fun r s' => s' = s ∧
      let left := pastMarker label read l marker
      let n := pageSize (sizes k) most
      r = .ok ((left.take n).map dto, if n < left.length then (left.take n).getLast?.map mark else none)) s)
    (hread : ∀ a ∈ l, read (mark a) = label a) {All : α → Prop} (hall : ∀ a, a ∈ l ↔ All a) {fuel : ℕ}
    (hfuel : l.length < fuel) :
    Ends readsOk (followMarkers ask fuel 0 none) (fun r s' => s' = s ∧ ∃ pages, r = .ok pages ∧
      PagesOf dto (fun a b => label a < label b) All sizes pages) s := by
  have hsize : ∀ k, 1 ≤ pageSize (sizes k) most := fun k => one_le_pageSize (hsizes k) hmost
  refine (follow_ends hsize hl hask hread fuel 0 none (by rwa [pastMarker_none])).mono ?_
  rintro _ _ ⟨rfl, pages, rfl, hflat, hfits⟩
  rw [pastMarker_none] at hflat
  refine ⟨rfl, pages, rfl, ⟨l, hflat, hl, hall⟩, fun i p hp n hn => ?_⟩
  have hlen := hfits i p hp
  rw [Nat.zero_add] at hlen
  have hle : (pageSize (sizes i) most : ℤ) ≤ n := pageSize_le (hsizes i) n hn
  omega

/-! ### Uploads -/

/-- The upload records are a set: they decode, and no upload has two. -/
structure UploadSet (t : OrdMap Bytes (Cell UploadRecord)) : Prop where
  decodes : ∀ k cell, t.get k = some cell → ∃ u, cell = .record u
  once : ∀ k k' u u', t.get k = some (.record u) → t.get k' = some (.record u') → u.bucket = u'.bucket → u.key = u'.key →
    u.uploadId = u'.uploadId → k = k'

/-- Where an upload stands in a listing. -/
def UploadRecord.label (u : UploadRecord) : Bytes ×ₗ Bytes := toLex (u.key, u.uploadId)

theorem UploadRecord.listedUpTo_iff {a b : UploadRecord} : a.listedUpTo b ↔ a.label ≤ b.label := by
  unfold listedUpTo label
  rw [Prod.Lex.le_iff]
  simp

instance : Std.Total UploadRecord.listedUpTo :=
  ⟨fun a b => by simp only [UploadRecord.listedUpTo_iff]; exact le_total _ _⟩

instance : IsTrans UploadRecord UploadRecord.listedUpTo :=
  ⟨fun a b c => by simp only [UploadRecord.listedUpTo_iff]; exact le_trans⟩

theorem afterMarkers_iff {key uploadId : Bytes} {u : UploadRecord} :
    afterMarkers key (some uploadId) u = decide (toLex (key, uploadId) < u.label) := by
  rw [Bool.eq_iff_iff, decide_eq_true_eq]
  unfold afterMarkers UploadRecord.label
  rw [Prod.Lex.lt_iff]
  simp only [ofLex_toLex, Option.any_some]
  rcases lt_trichotomy key u.key with h | h | h
  · simp [h]
  · simp [h]
  · simp [h, h.not_gt, h.ne']

/-- The listing of a tree that decodes. -/
theorem listUploads_answers {fuel : ℕ} (hus : (s.uploads.behind cursor).map Prod.snd = us.map .record)
    (hfuel : (s.uploads.behind cursor).length < fuel) :
    Ends readsOk (listUploads fuel cursor) (fun r s' => s' = s ∧ r = .ok us) s := by
  refine OrdMap.walk_induction (P := fun fuel cursor l => ∀ us, l.map Prod.snd = us.map .record →
    Ends readsOk (listUploads fuel cursor) (fun r s' => s' = s ∧ r = .ok us) s) ?_ ?_ _ rfl hfuel us hus
  · intro fuel cursor hnext us hus
    obtain rfl : us = [] := map_eq_nil_iff.1 hus.symm
    exact ends_andThen (readStore_ends ⟨none, by rw [hnext], rfl, rfl⟩)
  rintro fuel cursor ⟨k, cell⟩ rest hnext ih us hus
  obtain ⟨u, us, rfl, hu, hrest⟩ := map_eq_cons_iff.1 hus.symm
  dsimp only at hu
  subst hu
  refine ends_andThen (readStore_ends ⟨some (k, .record u), by rw [hnext], ?_⟩)
  refine ends_andThen ((ih us hrest.symm).mono ?_)
  rintro _ _ ⟨rfl, rfl⟩
  exact ⟨us, rfl, rfl, rfl⟩

/-- The records of a tree that decodes. -/
theorem records_of (h : ∀ e ∈ l, ∃ v, e.2 = .record v) : ∃ vs : List V, l.map Prod.snd = vs.map .record := by
  induction l with
  | nil => exact ⟨[], rfl⟩
  | cons e l ih =>
    obtain ⟨v, hv⟩ := h e mem_cons_self
    obtain ⟨vs, hvs⟩ := ih fun e he => h e (mem_cons_of_mem _ he)
    exact ⟨v :: vs, by rw [map_cons, map_cons, hv, hvs]⟩

theorem mem_records {vs : List V} (h : l.map Prod.snd = vs.map .record) {v : V} : v ∈ vs ↔ ∃ k, (k, .record v) ∈ l := by
  have hcell : v ∈ vs ↔ Cell.record v ∈ vs.map Cell.record := by simp
  rw [hcell, ← h, mem_map]
  constructor
  · rintro ⟨⟨k, _⟩, he, rfl⟩
    exact ⟨k, he⟩
  · rintro ⟨k, he⟩
    exact ⟨_, he, rfl⟩

/-- The uploads of a bucket under a prefix stand in strict order. -/
theorem uploadsOf_sorted (h : UploadSet s.uploads) (hus : s.uploads.entries.map Prod.snd = us.map .record)
    (bucket : Bytes) (pre : Option Bytes) :
    (uploadsOf bucket pre us).Pairwise fun a b => a.label < b.label := by
  have hle : (uploadsOf bucket pre us).Pairwise fun a b => a.label ≤ b.label :=
    (pairwise_insertionSort UploadRecord.listedUpTo _).imp fun hab => UploadRecord.listedUpTo_iff.1 hab
  -- two uploads of one bucket with one label would be two records of one upload
  have hne : us.Pairwise fun a b => a.bucket = b.bucket → a.label ≠ b.label := by
    have hentries : s.uploads.entries.Pairwise fun x y => ∀ a b, x.2 = .record a → y.2 = .record b → a.bucket = b.bucket →
        a.label ≠ b.label := by
      refine s.uploads.sorted.imp_of_mem fun {x y} hx hy hxy a b ha hb hbucket hlabel => ?_
      obtain ⟨k, _⟩ := x
      obtain ⟨k', _⟩ := y
      dsimp only at ha hb
      subst ha hb
      obtain ⟨hkey, hid⟩ := Prod.mk.inj (toLex.injective hlabel)
      have heq := h.once k k' a b (OrdMap.mem_entries.1 hx) (OrdMap.mem_entries.1 hy) hbucket hkey hid
      exact (ne_of_lt hxy) heq
    have hmap : (us.map Cell.record).Pairwise fun x y => ∀ a b, x = .record a → y = .record b → a.bucket = b.bucket →
        a.label ≠ b.label := hus ▸ pairwise_map.2 hentries
    exact (pairwise_map.1 hmap).imp fun hab => hab _ _ rfl rfl
  have hlabels : ((uploadsOf bucket pre us).map UploadRecord.label).Nodup := by
    have hperm := (perm_insertionSort UploadRecord.listedUpTo
      (us.filter fun u => u.bucket = bucket && pre.all fun p => p.isPrefixOf u.key)).map UploadRecord.label
    refine hperm.nodup_iff.2 (pairwise_map.2 ((hne.filter _).imp_of_mem fun {a b} ha hb hab => hab ?_))
    have hbucket : ∀ u ∈ us.filter fun u => u.bucket = bucket && pre.all fun p => p.isPrefixOf u.key, u.bucket = bucket := by
      intro u hu
      have htest := (mem_filter.1 hu).2
      rw [Bool.and_eq_true] at htest
      exact of_decide_eq_true htest.1
    rw [hbucket a ha, hbucket b hb]
  exact hle.and (pairwise_map.1 hlabels) |>.imp fun h => lt_of_le_of_ne h.1 h.2

/-- What an answer holds: a page of the uploads behind the marker, and the next marker if some are left. -/
theorem listMultipartUploads_page (bucket : Bytes) (pre : Option Bytes) (us : List UploadRecord) (asked : Option ℤ)
    (marker : Option (Bytes × Bytes)) :
    let left := pastMarker UploadRecord.label toLex (uploadsOf bucket pre us) marker
    let n := pageSize asked maxUploads
    let out := listMultipartUploads bucket ⟨marker.map Prod.fst, marker.map Prod.snd, pre, asked⟩ us
    out.uploads = (left.take n).map uploadToDto ∧ out.isTruncated = decide (n < left.length) ∧
      (n < left.length → out.nextKeyMarker = (left.take n).getLast?.map UploadRecord.key ∧
        out.nextUploadIdMarker = (left.take n).getLast?.map UploadRecord.uploadId) := by
  intro left n out
  cases marker with
  | none =>
    have hleft : uploadsOf bucket pre us = left := (pastMarker_none toLex _).symm
    refine ⟨?_, ?_, fun hmore : (pageLimit asked maxUploads).toNat < left.length => ?_⟩ <;> simp only [out, listMultipartUploads, Option.map_none, hleft]
    · rfl
    · rfl
    · rw [if_pos hmore]
      exact ⟨rfl, rfl⟩
  | some m =>
    have hleft : (uploadsOf bucket pre us).filter (afterMarkers m.1 (some m.2)) = left :=
      filter_congr fun u _ => by simp [afterMarkers_iff]
    refine ⟨?_, ?_, fun hmore : (pageLimit asked maxUploads).toNat < left.length => ?_⟩ <;> simp only [out, listMultipartUploads, Option.map_some, hleft]
    · rfl
    · rfl
    · rw [if_pos hmore]
      exact ⟨rfl, rfl⟩

/-- One request for uploads is answered from those behind its marker. -/
theorem askUploads_ends {bucket : Bytes} {pre : Option Bytes} {fuel : ℕ} (hbucket : s.hasTree bucket = true)
    (hus : s.uploads.entries.map Prod.snd = us.map .record) (hfuel : s.uploads.entries.length < fuel) (k : ℕ)
    (marker : Option (Bytes × Bytes)) :
    Ends readsOk (askUploads fuel bucket pre sizes k marker) (fun r s' => s' = s ∧
      let left := pastMarker UploadRecord.label toLex (uploadsOf bucket pre us) marker
      let n := pageSize (sizes k) maxUploads
      r = .ok ((left.take n).map uploadToDto,
        if n < left.length then (left.take n).getLast?.map fun u => (u.key, u.uploadId) else none)) s := by
  refine ends_andThen (ends_bind (ends_step fun _ _ => ⟨_, _, rfl, ?_⟩))
  rw [if_pos hbucket]
  have hall : s.uploads.behind none = s.uploads.entries := rfl
  rw [← hall] at hus hfuel
  refine ends_andThen (tryStore_ends ((listUploads_answers hus hfuel).mono ?_))
  rintro _ _ ⟨rfl, rfl⟩
  refine ⟨us, rfl, us, rfl, _, rfl, rfl, ?_⟩
  intro left n
  obtain ⟨hshown, htruncated, hmarkers⟩ := listMultipartUploads_page bucket pre us (sizes k) marker
  rw [hshown, htruncated]
  by_cases hmore : n < left.length
  · obtain ⟨hkey, hid⟩ := hmarkers hmore
    rw [hkey, hid, if_pos hmore, if_pos (decide_eq_true hmore)]
    cases (left.take n).getLast? <;> rfl
  · rw [if_neg hmore, if_neg (by simpa using hmore)]

/-! ### Parts -/

/-- The part records are a set: each decodes and is filed under its own key. -/
structure PartSet (t : OrdMap Bytes (Cell MultiPart)) : Prop where
  filed : ∀ k cell, t.get k = some cell → ∃ p : MultiPart, cell = .record p ∧ k = partKey p.bucket p.key p.uploadId p.partNumber
  numbered : ∀ k p, t.get k = some (.record p) → 1 ≤ p.partNumber ∧ p.partNumber ≤ 10000
  short : ∀ k p, t.get k = some (.record p) → p.bucket.length < 2 ^ 64 ∧ p.key.length < 2 ^ 64 ∧ p.uploadId.length < 2 ^ 64

/-- A part of the upload. -/
def MultiPart.isOf (p : MultiPart) (bucket key uploadId : Bytes) : Prop :=
  p.bucket = bucket ∧ p.key = key ∧ p.uploadId = uploadId

/-- The scan of an upload's parts: it ends at the first key that is not under the prefix. -/
theorem uploadParts_answers {pre : Bytes} {fuel : ℕ}
    (hps : ((s.parts.behind cursor).takeWhile fun e => pre.isPrefixOf e.1).map Prod.snd = ps.map .record)
    (hfuel : (s.parts.behind cursor).length < fuel) :
    Ends readsOk (uploadParts pre fuel cursor) (fun r s' => s' = s ∧ r = .ok ps) s := by
  refine OrdMap.walk_induction (P := fun fuel cursor l => ∀ ps : List MultiPart,
    (l.takeWhile fun e => pre.isPrefixOf e.1).map Prod.snd = ps.map .record →
      Ends readsOk (uploadParts pre fuel cursor) (fun r s' => s' = s ∧ r = .ok ps) s) ?_ ?_ _ rfl hfuel ps hps
  · intro fuel cursor hnext ps hps
    obtain rfl : ps = [] := map_eq_nil_iff.1 hps.symm
    exact ends_andThen (readStore_ends ⟨none, by rw [hnext], rfl, rfl⟩)
  rintro fuel cursor ⟨k, cell⟩ rest hnext ih ps hps
  refine ends_andThen (readStore_ends ⟨some (k, cell), by rw [hnext], ?_⟩)
  dsimp only
  split
  · rename_i hk
    rw [takeWhile_cons_of_pos (by exact hk)] at hps
    obtain ⟨p, ps, rfl, hp, hrest⟩ := map_eq_cons_iff.1 hps.symm
    dsimp only at hp
    subst hp
    refine ends_andThen ((ih ps hrest.symm).mono ?_)
    rintro _ _ ⟨rfl, rfl⟩
    exact ⟨ps, rfl, rfl, rfl⟩
  · rename_i hk
    rw [takeWhile_cons_of_neg (by exact hk)] at hps
    obtain rfl : ps = [] := map_eq_nil_iff.1 hps.symm
    exact ⟨rfl, rfl⟩

/-- The name of a part in the set. -/
theorem PartSet.name (h : PartSet s.parts) {k : Bytes} {p : MultiPart} (hk : s.parts.get k = some (.record p)) :
    ∃ q : PartName, k = q.partKey ∧ q.partNumber = p.partNumber ∧
      q.upload = ⟨p.bucket, p.key, p.uploadId, h.short k p hk⟩ := by
  obtain ⟨p', hcell, hfiled⟩ := h.filed k _ hk
  cases hcell
  have hnumber := h.numbered k p hk
  exact ⟨⟨⟨p.bucket, p.key, p.uploadId, h.short k p hk⟩, p.partNumber, by omega⟩, hfiled, rfl, rfl⟩

/-- The parts of an upload stand in the scan once each. -/
theorem scanned_parts (h : PartSet s.parts) (u : UploadName) :
    ∃ ps : List MultiPart, (scanned s.parts u.partPrefix).map Prod.snd = ps.map .record ∧
      (ps.map MultiPart.partNumber).Nodup ∧
      ∀ p, p ∈ ps ↔ p.isOf u.bucket u.key u.uploadId ∧ ∃ k, s.parts.get k = some (.record p) := by
  obtain ⟨ps, hps⟩ := records_of (l := scanned s.parts u.partPrefix) fun e he => by
    obtain ⟨p, hp, -⟩ := h.filed e.1 e.2 (OrdMap.mem_entries.1 (mem_scanned.1 he).1)
    exact ⟨p, hp⟩
  refine ⟨ps, hps, ?_, fun p => ?_⟩
  · have hnumbers : (scanned s.parts u.partPrefix).Pairwise fun x y => ∀ p q,
        x.2 = .record p → y.2 = .record q → p.partNumber ≠ q.partNumber := by
      refine (scanned_by_number s.parts u).imp_of_mem ?_
      rintro ⟨k, _⟩ ⟨k', _⟩ hx hy hxy p q rfl rfl
      obtain ⟨p', hkey, hnumber, -⟩ := h.name (OrdMap.mem_entries.1 (mem_scanned.1 hx).1)
      obtain ⟨q', hkey', hnumber', -⟩ := h.name (OrdMap.mem_entries.1 (mem_scanned.1 hy).1)
      rw [← hnumber, ← hnumber']
      exact (hxy p' q' hkey hkey').ne
    have hmap : (ps.map Cell.record).Pairwise fun x y => ∀ p q, x = .record p → y = .record q → p.partNumber ≠ q.partNumber :=
      hps ▸ pairwise_map.2 hnumbers
    exact pairwise_map.2 ((pairwise_map.1 hmap).imp fun hpq => hpq _ _ rfl rfl)
  · rw [mem_records hps]
    have hof : ∀ {k}, s.parts.get k = some (.record p) →
        ((k, Cell.record p) ∈ scanned s.parts u.partPrefix ↔ p.isOf u.bucket u.key u.uploadId) := by
      intro k hk
      obtain ⟨q, hkey, -, hupload⟩ := h.name hk
      rw [PartName.mem_scanned (OrdMap.mem_entries.2 hk) hkey, hupload]
      exact iff_of_eq (UploadName.mk.injEq ..)
    constructor
    · rintro ⟨k, he⟩
      have hk := OrdMap.mem_entries.1 (mem_scanned.1 he).1
      exact ⟨(hof hk).1 he, k, hk⟩
    · rintro ⟨hpart, k, hk⟩
      exact ⟨k, (hof hk).2 hpart⟩

theorem asI32_of_small {n : ℤ} (h : 1 ≤ n ∧ n ≤ 10000) : asI32 n = n := by
  unfold asI32
  rw [Int.bmod_def]
  split <;> omega

/-- The parts of an answer, sorted. -/
def partsByNumber (ps : List MultiPart) : List MultiPart := ps.insertionSort fun a b => a.partNumber ≤ b.partNumber

theorem partsByNumber_sorted (h : (ps.map MultiPart.partNumber).Nodup) :
    (partsByNumber ps).Pairwise fun a b => a.partNumber < b.partNumber := by
  have hle : (partsByNumber ps).Pairwise fun a b => a.partNumber ≤ b.partNumber :=
    pairwise_insertionSort (fun a b : MultiPart => a.partNumber ≤ b.partNumber) ps
  have hperm : ((partsByNumber ps).map MultiPart.partNumber).Perm (ps.map MultiPart.partNumber) :=
    (perm_insertionSort (fun a b : MultiPart => a.partNumber ≤ b.partNumber) ps).map _
  exact (hle.and (pairwise_map.1 (hperm.nodup_iff.2 h))).imp fun hab => lt_of_le_of_ne hab.1 hab.2

/-- What an answer holds: a page of the parts behind the marker, and the next marker if some are left. -/
theorem listParts_page (ps : List MultiPart) (asked marker : Option ℤ) :
    let left := pastMarker MultiPart.partNumber id (partsByNumber ps) marker
    let n := pageSize asked maxParts
    let out := listParts ⟨marker, asked⟩ ps
    out.parts = (left.take n).map partToDto ∧ out.isTruncated = decide (n < left.length) ∧
      (n < left.length → out.nextPartNumberMarker = (left.take n).getLast?.map fun p => asI32 p.partNumber) := by
  intro left n out
  cases marker with
  | none =>
    have hleft : ps.insertionSort (fun a b => a.partNumber ≤ b.partNumber) = left := (pastMarker_none id _).symm
    refine ⟨?_, ?_, fun hmore : (pageLimit asked maxParts).toNat < left.length => ?_⟩ <;> simp only [out, listParts, hleft]
    · rfl
    · rfl
    · rw [if_pos hmore]
      rfl
  | some m =>
    have hleft : (ps.insertionSort fun a b => a.partNumber ≤ b.partNumber).filter (fun p => decide (m < p.partNumber)) = left :=
      filter_congr fun p _ => by simp
    refine ⟨?_, ?_, fun hmore : (pageLimit asked maxParts).toNat < left.length => ?_⟩ <;> simp only [out, listParts, hleft]
    · rfl
    · rfl
    · rw [if_pos hmore]
      rfl

/-- One request for parts is answered from those behind its marker. -/
theorem askParts_ends {bucket key uploadId : Bytes} {fuel : ℕ} {u : UploadRecord}
    (hupload : s.uploads.get (uploadKey bucket key uploadId) = some (.record u))
    (hps : ((s.parts.behind (some (partPrefix bucket key uploadId))).takeWhile fun e => (partPrefix bucket key uploadId).isPrefixOf e.1).map Prod.snd = ps.map .record)
    (hfuel : s.parts.entries.length < fuel) (k : ℕ) (marker : Option ℤ) :
    Ends readsOk (askParts fuel bucket key uploadId sizes k marker) (fun r s' => s' = s ∧
      let left := pastMarker MultiPart.partNumber id (partsByNumber ps) marker
      let n := pageSize (sizes k) maxParts
      r = .ok ((left.take n).map partToDto,
        if n < left.length then (left.take n).getLast?.map fun p => asI32 p.partNumber else none)) s := by
  refine ends_andThen (ends_andThen (tryStore_ends (readStore_ends ⟨some u, ?_, _, rfl, ?_⟩)))
  · rw [getUpload, hupload]
  refine ends_andThen (tryStore_ends ((uploadParts_answers hps ?_).mono ?_))
  · exact (s.parts.length_behind_le _).trans_lt hfuel
  rintro _ _ ⟨rfl, rfl⟩
  refine ⟨ps, rfl, ps, rfl, _, rfl, rfl, ?_⟩
  intro left n
  obtain ⟨hshown, htruncated, hmarker⟩ := listParts_page ps (sizes k) marker
  rw [hshown, htruncated]
  by_cases hmore : n < left.length
  · rw [hmarker hmore, if_pos hmore, if_pos (decide_eq_true hmore)]
  · rw [if_neg hmore, if_neg (by simpa using hmore)]

end Requests

/-! ## The listings -/

/-- The client's listing of a bucket's uploads. -/
def uploadPages (fuel : ℕ) (bucket : Bytes) (pre : Option Bytes) (sizes : ℕ → Option ℤ) :
    StoreProg (Except S3Err (List (List UploadDto))) :=
  followMarkers (askUploads fuel bucket pre sizes) fuel 0 none

/-- The client's listing of an upload's parts. -/
def partPages (fuel : ℕ) (bucket key uploadId : Bytes) (sizes : ℕ → Option ℤ) :
    StoreProg (Except S3Err (List (List PartDto))) :=
  followMarkers (askParts fuel bucket key uploadId sizes) fuel 0 none

theorem uploadPages_ends {s : Store} {sizes : ℕ → Option ℤ} (hsizes : ∀ k, ∀ n ∈ sizes k, 1 ≤ n) {bucket : Bytes}
    (pre : Option Bytes) (hbucket : s.hasTree bucket = true) (hset : UploadSet s.uploads) {fuel : ℕ}
    (hfuel : s.uploads.entries.length < fuel) :
    Ends readsOk (uploadPages fuel bucket pre sizes) (fun r s' => s' = s ∧ ∃ pages, r = .ok pages ∧
      PagesOf uploadToDto (fun a b => a.label < b.label)
        (fun u => (∃ k, s.uploads.get k = some (.record u)) ∧ u.bucket = bucket ∧ ∀ p ∈ pre, p <+: u.key) sizes pages) s := by
  obtain ⟨us, hus⟩ := records_of (l := s.uploads.entries) fun e he => hset.decodes e.1 e.2 (OrdMap.mem_entries.1 he)
  have hlen : (uploadsOf bucket pre us).length ≤ s.uploads.entries.length := by
    have hcount := congrArg List.length hus
    rw [length_map, length_map] at hcount
    rw [uploadsOf, length_insertionSort, hcount]
    exact length_filter_le _ _
  refine pages_end hsizes (by decide) (uploadsOf_sorted hset hus bucket pre) (askUploads_ends hbucket hus hfuel)
    (fun _ _ => rfl) (fun u => ?_) (hlen.trans_lt hfuel)
  rw [uploadsOf, mem_insertionSort, mem_filter, mem_records hus, Bool.and_eq_true, decide_eq_true_eq,
    Option.all_eq_true]
  simp only [List.isPrefixOf_iff_prefix, OrdMap.mem_entries, Option.mem_def]

theorem partPages_ends {s : Store} {sizes : ℕ → Option ℤ} (hsizes : ∀ k, ∀ n ∈ sizes k, 1 ≤ n) {bucket key uploadId : Bytes}
    (hshort : bucket.length < 2 ^ 64 ∧ key.length < 2 ^ 64 ∧ uploadId.length < 2 ^ 64) {u : UploadRecord}
    (hupload : s.uploads.get (uploadKey bucket key uploadId) = some (.record u)) (hset : PartSet s.parts) {fuel : ℕ}
    (hfuel : s.parts.entries.length < fuel) :
    Ends readsOk (partPages fuel bucket key uploadId sizes) (fun r s' => s' = s ∧ ∃ pages, r = .ok pages ∧
      PagesOf partToDto (fun a b => a.partNumber < b.partNumber)
        (fun p => p.isOf bucket key uploadId ∧ ∃ k, s.parts.get k = some (.record p)) sizes pages) s := by
  obtain ⟨ps, hps, hnodup, hmem⟩ := scanned_parts hset ⟨bucket, key, uploadId, hshort⟩
  have hall : ∀ p, p ∈ partsByNumber ps ↔ p.isOf bucket key uploadId ∧ ∃ k, s.parts.get k = some (.record p) := by
    intro p
    rw [partsByNumber, mem_insertionSort, hmem]
  have hlen : (partsByNumber ps).length ≤ s.parts.entries.length := by
    have hcount := congrArg List.length hps
    rw [length_map, length_map] at hcount
    rw [partsByNumber, length_insertionSort, ← hcount]
    exact (takeWhile_sublist _).length_le.trans (s.parts.length_behind_le _)
  refine pages_end hsizes (by decide) (partsByNumber_sorted hnodup) (askParts_ends hupload hps hfuel) (fun p hp => ?_) hall
    (hlen.trans_lt hfuel)
  obtain ⟨-, k, hk⟩ := (hall p).1 hp
  exact asI32_of_small (hset.numbered k p hk)

/-- **Every upload and every part is shown once, in order**, whatever the page sizes. -/
theorem listings_complete (s : Store) (bucket key uploadId : Bytes) (pre : Option Bytes) (sizes : ℕ → Option ℤ)
    (hsizes : ∀ k, ∀ n ∈ sizes k, 1 ≤ n) (fuel : ℕ)
    (hfuel : s.uploads.entries.length < fuel ∧ s.parts.entries.length < fuel) :
    (s.hasTree bucket = true → UploadSet s.uploads →
      Ends readsOk (uploadPages fuel bucket pre sizes) (fun r s' => s' = s ∧ ∃ pages, r = .ok pages ∧
        PagesOf uploadToDto (fun a b => toLex (a.key, a.uploadId) < toLex (b.key, b.uploadId))
          (fun u => (∃ k, s.uploads.get k = some (.record u)) ∧ u.bucket = bucket ∧ ∀ p ∈ pre, p <+: u.key) sizes pages) s) ∧
    (bucket.length < 2 ^ 64 ∧ key.length < 2 ^ 64 ∧ uploadId.length < 2 ^ 64 →
      (∃ u, s.uploads.get (uploadKey bucket key uploadId) = some (.record u)) → PartSet s.parts →
      Ends readsOk (partPages fuel bucket key uploadId sizes) (fun r s' => s' = s ∧ ∃ pages, r = .ok pages ∧
        PagesOf partToDto (fun a b => a.partNumber < b.partNumber)
          (fun p => p.isOf bucket key uploadId ∧ ∃ k, s.parts.get k = some (.record p)) sizes pages) s) :=
  ⟨fun hbucket hset => uploadPages_ends hsizes pre hbucket hset hfuel.1,
    fun hshort ⟨_, hupload⟩ hset => partPages_ends hsizes hshort hupload hset hfuel.2⟩

/-- A store with two uploads of the key `k` of the bucket `b`, the first with a part. -/
def twoUploads : Store :=
  { Store.empty with
    trees := (∅ : OrdMap Bytes (OrdMap Bytes (Cell Object))).insert [98] ∅
    uploads := ((∅ : OrdMap Bytes (Cell UploadRecord)).insert (uploadKey [98] [107] [1]) (.record ⟨0, [98], [107], [1]⟩)).insert
      (uploadKey [98] [107] [2]) (.record ⟨0, [98], [107], [2]⟩)
    parts := (∅ : OrdMap Bytes (Cell MultiPart)).insert (partKey [98] [107] [1] 1)
      (.record ⟨3, 1, [98], [107], [1], abcDigest, [abcId]⟩) }

theorem twoUploads_uploads {k : Bytes} {cell : Cell UploadRecord} (h : twoUploads.uploads.get k = some cell) :
    k = uploadKey [98] [107] [2] ∧ cell = .record ⟨0, [98], [107], [2]⟩ ∨
      k = uploadKey [98] [107] [1] ∧ cell = .record ⟨0, [98], [107], [1]⟩ := by
  simp only [twoUploads, OrdMap.get_insert, OrdMap.get_empty] at h
  split_ifs at h with h2 h1
  · exact .inl ⟨h2, (Option.some.inj h).symm⟩
  · exact .inr ⟨h1, (Option.some.inj h).symm⟩

theorem twoUploads_parts {k : Bytes} {cell : Cell MultiPart} (h : twoUploads.parts.get k = some cell) :
    k = partKey [98] [107] [1] 1 ∧ cell = .record ⟨3, 1, [98], [107], [1], abcDigest, [abcId]⟩ := by
  simp only [twoUploads, OrdMap.get_insert, OrdMap.get_empty] at h
  split_ifs at h with h1
  exact ⟨h1, (Option.some.inj h).symm⟩

theorem twoUploads_uploadSet : UploadSet twoUploads.uploads where
  decodes k cell h := by
    rcases twoUploads_uploads h with ⟨-, rfl⟩ | ⟨-, rfl⟩
    · exact ⟨_, rfl⟩
    · exact ⟨_, rfl⟩
  once k k' u u' h h' hb hk hi := by
    rcases twoUploads_uploads h with ⟨rfl, hu⟩ | ⟨rfl, hu⟩ <;> rcases twoUploads_uploads h' with ⟨rfl, hu'⟩ | ⟨rfl, hu'⟩ <;>
      cases hu <;> cases hu' <;> simp_all

theorem twoUploads_partSet : PartSet twoUploads.parts where
  filed k cell h := by
    obtain ⟨rfl, rfl⟩ := twoUploads_parts h
    exact ⟨_, rfl, rfl⟩
  numbered k p h := by
    cases (twoUploads_parts h).2
    decide
  short k p h := by
    cases (twoUploads_parts h).2
    decide

/-- Two uploads of one key, one to a page. -/
theorem listings_complete_twoUploads :
    Ends readsOk (uploadPages 3 [98] none fun _ => some 1) (fun r s' => s' = twoUploads ∧ ∃ pages, r = .ok pages ∧
      PagesOf uploadToDto (fun a b => toLex (a.key, a.uploadId) < toLex (b.key, b.uploadId))
        (fun u => (∃ k, twoUploads.uploads.get k = some (.record u)) ∧ u.bucket = [98] ∧ ∀ p ∈ (none : Option Bytes), p <+: u.key)
        (fun _ => some 1) pages) twoUploads ∧
    Ends readsOk (partPages 3 [98] [107] [1] fun _ => some 1) (fun r s' => s' = twoUploads ∧ ∃ pages, r = .ok pages ∧
      PagesOf partToDto (fun a b => a.partNumber < b.partNumber)
        (fun p => p.isOf [98] [107] [1] ∧ ∃ k, twoUploads.parts.get k = some (.record p)) (fun _ => some 1) pages) twoUploads := by
  obtain ⟨huploads, hparts⟩ := listings_complete twoUploads [98] [107] [1] none (fun _ => some 1)
    (fun _ n hn => le_of_eq (Option.some.inj hn)) 3 (by decide +kernel)
  exact ⟨huploads (by decide +kernel) twoUploads_uploadSet,
    hparts (by decide) ⟨⟨0, [98], [107], [1]⟩, by decide +kernel⟩ twoUploads_partSet⟩

end QssStorage
