import QssStorage.Spec.Codec

/-!
# The record formats: what is written is read back, and nothing else is accepted by accident

Each method of the reader is `Sound` (`take_sound` … `idList_sound`), so each decoder is:
it never panics, and where it stops is decided by the bytes it took. With the length check
of `finish` an accepted string is then not a strict prefix of another accepted one.

Each method `Reads` what its counterpart writes (`len_reads`, `getString_reads`,
`idList_reads`), and the round trip of a record is their composition in the order of its
fields. The two facts underneath are about numbers and ids: `ofLeBytes_leBytes`, and that
cutting the concatenation of ids of one width gives back the ids (`fromSlices_chunks`).
-/

namespace QssStorage

open Cursor List

/-! ## Numbers -/

theorem length_leBytes (w n : ℕ) : (leBytes w n).length = w := by
  induction w generalizing n with
  | zero => rfl
  | succ w ih => rw [leBytes, length_cons, ih]

theorem ofLeBytes_leBytes {w n : ℕ} (h : n < 256 ^ w) : ofLeBytes (leBytes w n) = n := by
  induction w generalizing n with
  | zero =>
    have hn : n = 0 := by simpa using h
    rw [hn]
    rfl
  | succ w ih =>
    have hq : n / 256 < 256 ^ w := by
      rw [pow_succ] at h
      omega
    rw [leBytes, ofLeBytes, ih hq]
    exact Nat.mod_add_div n 256

theorem toI64_putI64 {z : ℤ} (hlo : -2 ^ 63 ≤ z) (hhi : z < 2 ^ 63) : toI64 (ofLeBytes (putI64 z)) = z := by
  have hlt : (z % 2 ^ 64).toNat < 256 ^ 8 := by omega
  unfold putI64 toI64
  rw [ofLeBytes_leBytes hlt]
  split <;> omega

theorem byteOf_val {n : ℕ} (h : n < 256) : (byteOf n).val = n := Nat.mod_eq_of_lt h

/-! ## Block ids -/

namespace BlockId

theorem length_asSlice (id : BlockId) : id.asSlice.length = id.len := by
  have hlen : id.len ≤ id.bytes.length := by
    have hs := id.size
    have hw := id.width
    unfold maxBlockIdSize blockIdSize at *
    omega
  exact length_take_of_le hlen

/-- The bytes of an id are its significant ones and zeros. -/
theorem asSlice_append (id : BlockId) : id.asSlice ++ List.replicate (maxBlockIdSize - id.len) 0 = id.bytes := by
  have hdrop : id.bytes.drop id.len = List.replicate (maxBlockIdSize - id.len) 0 := by
    refine eq_replicate_iff.2 ⟨?_, id.padded⟩
    rw [length_drop, id.size]
  rw [← hdrop]
  exact take_append_drop _ _

theorem fromSlice_asSlice (id : BlockId) : fromSlice id.asSlice = some id := by
  have hw : id.asSlice.length = blockIdSize ∨ id.asSlice.length = maxBlockIdSize := by
    rw [length_asSlice]
    exact id.width
  unfold fromSlice
  rw [dif_pos hw]
  congr 1
  apply key_injective
  simp only [length_asSlice, asSlice_append]

end BlockId

namespace Codec

/-- All the ids have one width. -/
def OneWidth (ids : List BlockId) : Prop := ∀ a ∈ ids, ∀ b ∈ ids, a.len = b.len

instance (ids : List BlockId) : Decidable (OneWidth ids) :=
  inferInstanceAs (Decidable (∀ a ∈ ids, ∀ b ∈ ids, a.len = b.len))

theorem chunksExact_nil (w : ℕ) : chunksExact w [] = [] := by simp [chunksExact]

theorem chunksExact_append {w : ℕ} (hw : 0 < w) {chunk : Bytes} (rest : Bytes) (hc : chunk.length = w) :
    chunksExact w (chunk ++ rest) = chunk :: chunksExact w rest := by
  have hdiv : (chunk ++ rest).length / w = rest.length / w + 1 := by
    rw [length_append, hc, Nat.add_div_left _ hw]
  have hdrop : ∀ i, (chunk ++ rest).drop ((i + 1) * w) = rest.drop (i * w) := by
    intro i
    have hsplit : (i + 1) * w = chunk.length + i * w := by rw [hc]; ring
    rw [hsplit, ← drop_drop, drop_left]
  unfold chunksExact
  rw [hdiv, range_succ_eq_map, map_cons, map_map]
  congr 1
  · rw [Nat.zero_mul, drop_zero, ← hc, take_left]
  · apply map_congr_left
    intro i _
    simp only [Function.comp_apply, Nat.succ_eq_add_one, hdrop]

/-- Cutting the concatenation of ids of width `w` gives back the ids. -/
theorem fromSlices_chunks {w : ℕ} (hw : 0 < w) {ids : List BlockId} (h : ∀ id ∈ ids, id.len = w) :
    fromSlices (chunksExact w (ids.flatMap BlockId.asSlice)) = .ok ids := by
  induction ids with
  | nil => rw [flatMap_nil, chunksExact_nil, fromSlices]
  | cons id ids ih =>
    have hid : id.asSlice.length = w := by rw [id.length_asSlice, h id mem_cons_self]
    have hrest := ih fun id' hid' => h id' (mem_cons_of_mem _ hid')
    rw [flatMap_cons, chunksExact_append hw _ hid, fromSlices, id.fromSlice_asSlice, hrest]
    rfl

theorem length_flatMap_asSlice {w : ℕ} {ids : List BlockId} (h : ∀ id ∈ ids, id.len = w) :
    (ids.flatMap BlockId.asSlice).length = ids.length * w := by
  induction ids with
  | nil => simp
  | cons id ids ih =>
    have hid := h id mem_cons_self
    have hrest := ih fun id' hid' => h id' (mem_cons_of_mem _ hid')
    rw [flatMap_cons, length_append, id.length_asSlice, hid, hrest, length_cons]
    ring

/-! ## The methods of the reader take any bytes -/

section Reader

variable (m : Target) (record : String)
variable (field : String) (n : ℕ)

theorem checkedAdd_eq_some {a b n : ℕ} : m.checkedAdd a b = some n ↔ a + b < m.usizes ∧ a + b = n := by
  unfold Target.checkedAdd
  split <;> simp_all

/-- `take` off a buffer that is long enough. -/
theorem take_eq {field : String} {n pos stop : ℕ} {buf : Bytes} (hstop : m.checkedAdd pos n = some stop)
    (hle : stop ≤ buf.length) : take m record field n buf pos = .ok ((buf.take stop).drop pos, stop) := by
  have hpos : pos ≤ stop := by
    obtain ⟨-, hsum⟩ := (checkedAdd_eq_some m).1 hstop
    omega
  unfold take
  rw [hstop]
  simp only [slice]
  rw [if_neg (by omega), if_pos ⟨hpos, hle⟩, Result.ok_bind]

theorem take_sound : Sound (take m record field n) fun raw => raw.length = n := by
  refine Sound.slice (fun pos => m.checkedAdd pos n) ?_ ?_ ?_
  · intro buf pos hnone
    exact ⟨.lengthOverflow record field, by simp only [take, hnone]⟩
  · intro buf pos stop hstop hshort
    exact ⟨.truncated record stop buf.length, by simp only [take, hstop, if_pos hshort]⟩
  intro buf pos stop hstop hle
  refine ⟨take_eq m record hstop hle, ?_⟩
  obtain ⟨-, hsum⟩ := (checkedAdd_eq_some m).1 hstop
  rw [length_drop, length_take_of_le hle]
  omega

theorem u8_sound : Sound (u8 m record field) fun _ => True := by
  refine (take_sound m record field 1).bind ?_
  intro raw hraw
  obtain ⟨b, rfl⟩ := length_eq_one_iff.1 hraw
  exact Sound.lift nofun fun _ _ => trivial

theorem array_sound (field : String) : Sound (array m record n field) fun _ => True := by
  refine (take_sound m record field n).bind ?_
  intro raw hraw
  have hok : exactly n raw = (.ok raw : Result FsError Bytes) := if_pos hraw
  rw [hok]
  exact Sound.lift nofun fun _ _ => trivial

theorem u64_sound : Sound (u64 m record field) fun _ => True :=
  (array_sound m record 8 field).bind fun _ _ => Sound.pure trivial

theorem i64_sound : Sound (i64 m record field) fun _ => True :=
  (array_sound m record 8 field).bind fun _ _ => Sound.pure trivial

theorem len_sound : Sound (len m record field) fun _ => True := by
  refine (u64_sound m record field).bind ?_
  intro value _
  refine Sound.lift ?_ fun _ _ => trivial
  split <;> nofun

theorem utf8_sound : Sound (utf8 m record field n) fun _ => True := by
  refine (take_sound m record field n).bind ?_
  intro raw _
  refine Sound.lift ?_ fun _ _ => trivial
  split <;> nofun

theorem getString_sound (lenField field : String) : Sound (getString m record lenField field) fun _ => True :=
  (len_sound m record lenField).bind fun n _ => utf8_sound m record field n

theorem fromSlices_ne_panic : ∀ chunks, fromSlices chunks ≠ .panic
  | [] => nofun
  | chunk :: chunks => by
    have hrest := fromSlices_ne_panic chunks
    unfold fromSlices
    cases BlockId.fromSlice chunk with
    | none => nofun
    | some id =>
      cases hr : fromSlices chunks with
      | panic => exact absurd hr hrest
      | err e | ok ids => nofun

theorem idList_sound : Sound (idList m record) fun _ => True := by
  refine (u8_sound m record _).bind fun width _ => (len_sound m record _).bind fun count _ => ?_
  split
  · exact Sound.pure trivial
  split
  · refine Sound.bind (Q := fun _ => True) (Sound.lift ?_ fun _ _ => trivial) fun total _ => ?_
    · split <;> nofun
    · refine (take_sound m record _ total).bind fun raw _ => ?_
      exact Sound.lift (fromSlices_ne_panic _) fun _ _ => trivial
  · exact Sound.lift nofun fun _ _ => trivial

theorem finish_closes : Closes (finish record) := by
  constructor
  · intro buf pos
    unfold finish
    split
    · rename_i hne
      split <;> simp [hne]
    · rename_i heq
      simp [not_not.1 heq]
  · intro buf pos hpos
    unfold finish
    split
    · rw [if_neg (by omega)]
      nofun
    · nofun

end Reader

end Codec

open Codec

/-! ## The decoders take any bytes -/

section Decoders

variable (m : Target)

theorem Block.read_sound : Sound (Block.read m) fun _ => True :=
  (len_sound m _ _).bind fun _ _ => (u8_sound m _ _).bind fun _ _ => (len_sound m _ _).bind fun _ _ =>
    (u8_sound m _ _).bind fun _ _ => Sound.pure trivial

theorem ObjectType.ofByte_ne_panic (t : Byte) : ObjectType.ofByte t ≠ .panic := by
  unfold ObjectType.ofByte
  split <;> nofun

theorem ObjectData.read_sound (t : ObjectType) : Sound (ObjectData.read m t) fun _ => True := by
  cases t with
  | single => exact (idList_sound m _).bind fun _ _ => Sound.pure trivial
  | multipart =>
    exact (len_sound m _ _).bind fun _ _ => (idList_sound m _).bind fun _ _ => Sound.pure trivial
  | inline =>
    exact (len_sound m _ _).bind fun n _ => (take_sound m _ _ n).bind fun _ _ => Sound.pure trivial

theorem Object.read_sound : Sound (Object.read m) fun _ => True := by
  refine (u8_sound m _ _).bind fun t _ => ?_
  refine (Sound.lift (ObjectType.ofByte_ne_panic t) fun _ _ => trivial).bind (Q := fun _ => True) fun t _ => ?_
  exact (u64_sound m _ _).bind fun _ _ => (i64_sound m _ _).bind fun _ _ => (array_sound m _ _ _).bind fun _ _ =>
    (ObjectData.read_sound m t).bind fun _ _ => Sound.pure trivial

theorem MultiPart.read_sound : Sound (MultiPart.read m) fun _ => True :=
  (len_sound m _ _).bind fun _ _ => (i64_sound m _ _).bind fun _ _ => (getString_sound m _ _ _).bind fun _ _ =>
    (getString_sound m _ _ _).bind fun _ _ => (getString_sound m _ _ _).bind fun _ _ =>
      (array_sound m _ _ _).bind fun _ _ => (idList_sound m _).bind fun _ _ => Sound.pure trivial

theorem UploadRecord.read_sound : Sound (UploadRecord.read m) fun _ => True :=
  (i64_sound m _ _).bind fun _ _ => (getString_sound m _ _ _).bind fun _ _ =>
    (getString_sound m _ _ _).bind fun _ _ => (getString_sound m _ _ _).bind fun _ _ => Sound.pure trivial

theorem BucketMeta.read_sound : Sound (BucketMeta.read m) fun _ => True :=
  (i64_sound m _ _).bind fun _ _ => (getString_sound m _ _ _).bind fun _ _ => Sound.pure trivial

/-- What a decoder must satisfy: no panic, and no accepted string is a strict prefix of another. -/
structure Decodes {α : Type} (decode : Bytes → Result FsError α) : Prop where
  safe : ∀ b, decode b ≠ .panic
  alone : ∀ {b more}, (decode b).isOk = true → (decode (b ++ more)).isOk = true → more = []

theorem decodes_closed {α : Type} {p : Reader Byte FsError α} (hp : Sound p fun _ => True) (record : String) :
    Decodes (p.closed (finish record)) :=
  ⟨closed_ne_panic hp (finish_closes record), closed_unextendable hp (finish_closes record)⟩

/-- The check of the shortest length refuses more, which leaves both properties. -/
theorem Object.tryFrom_decodes : Decodes (Object.tryFrom m) := by
  have hclosed := decodes_closed (Object.read_sound m) "Object"
  have hok : ∀ {b}, (Object.tryFrom m b).isOk = true → ((Object.read m).closed (finish "Object") b).isOk = true := by
    intro b h
    unfold Object.tryFrom at h
    split at h
    · cases h
    · exact h
  constructor
  · intro b
    unfold Object.tryFrom
    split
    · nofun
    · exact hclosed.safe b
  · intro b more hb hmore
    exact hclosed.alone (hok hb) (hok hmore)

theorem Decodes.map {α γ : Type} {decode : Bytes → Result FsError α} (h : Decodes decode) (f : α → γ) :
    Decodes fun b => (decode b).bind fun a => .ok (f a) := by
  have hok : ∀ {b}, ((decode b).bind fun a => (.ok (f a) : Result FsError γ)).isOk = (decode b).isOk := by
    intro b
    cases decode b <;> rfl
  constructor
  · intro b
    have hb := h.safe b
    cases hd : decode b with
    | panic => exact absurd hd hb
    | err e | ok a => nofun
  · intro b more hb hmore
    rw [hok] at hb hmore
    exact h.alone hb hmore

theorem Format.decode_decodes (f : Format) : Decodes (f.decode m) := by
  cases f with
  | block => exact (decodes_closed (Block.read_sound m) _).map _
  | object => exact (Object.tryFrom_decodes m).map _
  | part => exact (decodes_closed (MultiPart.read_sound m) _).map _
  | upload => exact (decodes_closed (UploadRecord.read_sound m) _).map _
  | bucket => exact (decodes_closed (BucketMeta.read_sound m) _).map _

end Decoders

/-- **No decoder panics on any bytes, and what one accepts it accepts alone**: no strict
prefix of an accepted string and no extension of it is accepted. -/
theorem decode_prefix_free (m : Target) (f : Format) (b : Bytes) :
    f.decode m b ≠ .panic ∧
      ((f.decode m b).isOk = true →
        (∀ p, p <+: b → p ≠ b → (f.decode m p).isOk = false) ∧
          ∀ more, more ≠ [] → (f.decode m (b ++ more)).isOk = false) := by
  have hdec := Format.decode_decodes m f
  refine ⟨hdec.safe b, fun hb => ⟨?_, ?_⟩⟩
  · rintro p ⟨more, rfl⟩ hne
    by_contra hp
    have hnil := hdec.alone (Bool.not_eq_false _ ▸ hp) hb
    exact hne (by rw [hnil, append_nil])
  · intro more hne
    by_contra hmore
    exact hne (hdec.alone hb (Bool.not_eq_false _ ▸ hmore))

/-- A 64-bit build. -/
def Target.wide : Target := ⟨64, by decide, le_refl _⟩

/-- The shortest bucket record: created one second before the epoch, with an empty name. -/
def emptyNameRecord : Bytes := [255, 255, 255, 255, 255, 255, 255, 255, 0, 0, 0, 0, 0, 0, 0, 0]

/-- The shortest bucket record is accepted; without its last byte, or with one more, it is not. -/
theorem decode_prefix_free_bucket :
    (Format.bucket.decode .wide emptyNameRecord).isOk = true ∧
      (Format.bucket.decode .wide (emptyNameRecord.take 15)).isOk = false ∧
        (Format.bucket.decode .wide (emptyNameRecord ++ [0])).isOk = false := by
  have hok : (Format.bucket.decode .wide emptyNameRecord).isOk = true := by decide +kernel
  have h := (decode_prefix_free .wide .bucket emptyNameRecord).2 hok
  exact ⟨hok, h.1 _ (List.take_prefix _ _) (by decide), h.2 [0] (by decide)⟩

/-! ## The methods of the reader take what was written -/

namespace Codec

section Written

variable (m : Target) (record : String)
variable {n : ℕ} (field : String)

theorem take_reads (w : Bytes) : Reads m.usizes (take m record field w.length) w w := by
  intro before after hlt
  have hstop : m.checkedAdd before.length w.length = some (before.length + w.length) :=
    (checkedAdd_eq_some m).2 ⟨hlt, rfl⟩
  have hle : before.length + w.length ≤ (before ++ w ++ after).length := by
    simp only [length_append]
    omega
  have htake : (before ++ w ++ after).take (before.length + w.length) = before ++ w := by
    rw [← length_append, take_left]
  rw [take_eq m record hstop hle, htake, drop_left]

theorem u8_reads (b : Byte) : Reads m.usizes (u8 m record field) [b] b :=
  Reads.bind (v := []) (take_reads m record field [b]) (Reads.lift b)

theorem array_reads {w : Bytes} (h : w.length = n) : Reads m.usizes (array m record n field) w w := by
  subst h
  exact (take_reads m record field w).check (if_pos rfl)

theorem u16_reads (h : n < 2 ^ 16) : Reads m.usizes (u16 m record field) (leBytes 2 n) n := by
  have hmap := (array_reads m record field (length_leBytes 2 n)).map (f := ofLeBytes)
  rwa [ofLeBytes_leBytes (by omega)] at hmap

theorem u64_reads (h : n < 2 ^ 64) : Reads m.usizes (u64 m record field) (leBytes 8 n) n := by
  have hmap := (array_reads m record field (length_leBytes 8 n)).map (f := ofLeBytes)
  rwa [ofLeBytes_leBytes (by omega)] at hmap

theorem i64_reads {z : ℤ} (hlo : -2 ^ 63 ≤ z) (hhi : z < 2 ^ 63) : Reads m.usizes (i64 m record field) (putI64 z) z := by
  have hmap := (array_reads m record field (length_leBytes 8 (z % 2 ^ 64).toNat)).map
    (f := fun w => toI64 (ofLeBytes w))
  have hback : toI64 (ofLeBytes (leBytes 8 (z % 2 ^ 64).toNat)) = z := toI64_putI64 hlo hhi
  rwa [hback] at hmap

theorem usizes_le : m.usizes ≤ 2 ^ 64 := Nat.pow_le_pow_right (by decide) m.usize_le

theorem len_reads (h : n < m.usizes) : Reads m.usizes (len m record field) (putLen n) n := by
  have hle := usizes_le m
  exact (u64_reads m record field (by omega)).check (if_pos h)

theorem utf8_reads {s : Bytes} (h : validUtf8 s = true) : Reads m.usizes (utf8 m record field s.length) s s :=
  (take_reads m record field s).check (if_pos h)

theorem length_putString (s : Bytes) : (putString s).length = 8 + s.length := by
  rw [putString, length_append, putLen, length_leBytes]

theorem getString_reads (lenField field : String) {s : Bytes} (h : validUtf8 s = true) :
    Reads m.usizes (getString m record lenField field) (putString s) s := by
  refine Reads.of_lt fun hlt => ?_
  rw [length_putString] at hlt
  exact (len_reads m record lenField (by omega)).bind (utf8_reads m record field h)

/-- An empty list is its width 0 and its count 0; any other is cut at the width of its first id. -/
theorem idList_reads {ids : List BlockId} (h : OneWidth ids) : Reads m.usizes (idList m record) (putIdList ids) ids := by
  refine Reads.of_lt fun hlt => ?_
  cases ids with
  | nil =>
    have hzero : 0 < m.usizes := Nat.two_pow_pos _
    exact (u8_reads m record _ _).bind ((len_reads m record _ hzero).bind (v := []) (Reads.lift []))
  | cons id rest =>
    have hw : ∀ id' ∈ id :: rest, id'.len = id.len := fun id' hid' => h id' hid' id mem_cons_self
    have hpos := id.len_pos
    have hsmall : id.len < 256 := by
      have := id.width
      unfold blockIdSize maxBlockIdSize at this
      omega
    have hbytes := length_flatMap_asSlice hw
    -- the count and the product are bounded by the bytes that were written
    simp only [putIdList, length_cons, length_append, hbytes, putLen, length_leBytes] at hlt
    have hprod : (rest.length + 1) * id.len < m.usizes := by omega
    have hcount : (id :: rest).length < m.usizes := by
      have := Nat.le_mul_of_pos_right (rest.length + 1) hpos
      simp only [length_cons]
      omega
    refine (u8_reads m record _ _).bind ((len_reads m record _ hcount).bind ?_)
    have hval : (byteOf (((id :: rest).head?.map BlockId.len).getD 0)).val = id.len := byteOf_val hsmall
    rw [hval, if_neg (by omega), if_pos id.width]
    have hmul : m.checkedMul (id :: rest).length id.len = some ((id :: rest).length * id.len) := if_pos hprod
    rw [hmul]
    refine Reads.bind (w := []) (Reads.lift _) ?_
    rw [← hbytes]
    exact (take_reads m record "ids" ((id :: rest).flatMap BlockId.asSlice)).check (fromSlices_chunks (by omega) hw)

end Written

end Codec

/-! ## The records fit their formats -/

/-- The numbers of an `i64`. -/
def IsI64 (z : ℤ) : Prop := -2 ^ 63 ≤ z ∧ z < 2 ^ 63

instance (z : ℤ) : Decidable (IsI64 z) := inferInstanceAs (Decidable (_ ∧ _))

structure Block.Fits (m : Target) (b : Block) : Prop where
  size : b.size < m.usizes
  depth : b.depth < 256
  rc : b.rc < m.usizes
  reserved : b.reserved < 128

/-- The block ids have one width, and the part count is a `usize`. -/
def ObjectData.Fits (m : Target) : ObjectData → Prop
  | .inline _ => True
  | .singlePart blocks => OneWidth blocks
  | .multiPart blocks parts => OneWidth blocks ∧ parts < m.usizes

structure Object.Fits (m : Target) (o : Object) : Prop where
  size : o.size < 2 ^ 64
  ctime : IsI64 o.ctime
  hash : o.hash.length = contentHashSize
  data : o.data.Fits m

structure MultiPart.Fits (m : Target) (mp : MultiPart) : Prop where
  size : mp.size < m.usizes
  partNumber : IsI64 mp.partNumber
  bucket : validUtf8 mp.bucket = true
  key : validUtf8 mp.key = true
  uploadId : validUtf8 mp.uploadId = true
  hash : mp.hash.length = contentHashSize
  blocks : OneWidth mp.blocks

structure UploadRecord.Fits (u : UploadRecord) : Prop where
  createdAt : IsI64 u.createdAt
  bucket : validUtf8 u.bucket = true
  key : validUtf8 u.key = true
  uploadId : validUtf8 u.uploadId = true

structure BucketMeta.Fits (b : BucketMeta) : Prop where
  ctime : IsI64 b.ctime
  name : validUtf8 b.name = true

/-- The fields are values of their types in the source, the block ids have one width, and the
encoding is a byte vector the machine can hold. -/
def Record.Fits (m : Target) (r : Record) : Prop :=
  r.encode.length < m.usizes ∧
    match r with
    | .block b => b.Fits m
    | .object o => o.Fits m
    | .part mp => mp.Fits m
    | .upload u => u.Fits
    | .bucket b => b.Fits

/-! ## What is written is read -/

section RoundTrip

variable (m : Target)

theorem Block.read_reads {b : Block} (h : b.Fits m) : Reads m.usizes (Block.read m) b.toVec b := by
  have hflags : b.flags < 256 := by
    have := h.reserved
    unfold Block.flags
    cases b.degraded <;> simp <;> omega
  have hback : Block.mk b.size (byteOf b.depth).val b.rc ((byteOf b.flags).val % 2 = 1) ((byteOf b.flags).val / 2) = b := by
    rw [byteOf_val h.depth, byteOf_val hflags]
    obtain ⟨size, depth, rc, degraded, reserved⟩ := b
    cases degraded
    · simp [Block.flags]
    · simp [Block.flags]
      omega
  have hread : Reads m.usizes (Block.read m) b.toVec
      (Block.mk b.size (byteOf b.depth).val b.rc ((byteOf b.flags).val % 2 = 1) ((byteOf b.flags).val / 2)) :=
    (len_reads m _ _ h.size).bind ((u8_reads m _ _ _).bind ((len_reads m _ _ h.rc).bind (u8_reads m _ _ _).map))
  rwa [hback] at hread

theorem ObjectType.ofByte_asU8 (t : ObjectType) : ObjectType.ofByte t.asU8 = .ok t := by cases t <;> rfl

theorem ObjectData.read_reads {d : ObjectData} (h : d.Fits m) : Reads m.usizes (ObjectData.read m d.type) d.toVec d := by
  cases d with
  | inline data =>
    refine Reads.of_lt fun hlt => ?_
    have hlen : (ObjectData.inline data).toVec.length = 8 + data.length := length_putString data
    exact (len_reads m _ _ (by omega)).bind (Reads.map (take_reads m _ _ data))
  | singlePart blocks => exact (idList_reads m _ h).map
  | multiPart blocks parts => exact (len_reads m _ _ h.2).bind (idList_reads m _ h.1).map

theorem Object.read_reads {o : Object} (h : o.Fits m) : Reads m.usizes (Object.read m) o.toVec o := by
  have htype : Reads m.usizes (Reader.lift (ObjectType.ofByte o.data.type.asU8) : Reader Byte FsError ObjectType)
      [] o.data.type := by
    rw [ObjectType.ofByte_asU8]
    exact Reads.lift _
  exact (u8_reads m _ _ _).bind (htype.bind ((u64_reads m _ _ h.size).bind ((i64_reads m _ _ h.ctime.1 h.ctime.2).bind
    ((array_reads m _ _ h.hash).bind (ObjectData.read_reads m h.data).map))))

theorem MultiPart.read_reads {mp : MultiPart} (h : mp.Fits m) : Reads m.usizes (MultiPart.read m) mp.toVec mp :=
  (len_reads m _ _ h.size).bind ((i64_reads m _ _ h.partNumber.1 h.partNumber.2).bind
    ((getString_reads m _ _ _ h.bucket).bind ((getString_reads m _ _ _ h.key).bind
      ((getString_reads m _ _ _ h.uploadId).bind ((array_reads m _ _ h.hash).bind (idList_reads m _ h.blocks).map)))))

theorem UploadRecord.read_reads {u : UploadRecord} (h : u.Fits) : Reads m.usizes (UploadRecord.read m) u.toVec u :=
  (i64_reads m _ _ h.createdAt.1 h.createdAt.2).bind ((getString_reads m _ _ _ h.bucket).bind
    ((getString_reads m _ _ _ h.key).bind (getString_reads m _ _ _ h.uploadId).map))

theorem BucketMeta.read_reads {b : BucketMeta} (h : b.Fits) : Reads m.usizes (BucketMeta.read m) b.toVec b :=
  (i64_reads m _ _ h.ctime.1 h.ctime.2).bind (getString_reads m _ _ _ h.name).map

theorem minimumRawObjectSize_le {o : Object} (h : o.hash.length = contentHashSize) :
    minimumRawObjectSize ≤ o.toVec.length := by
  have hdata : 8 ≤ o.data.toVec.length := by
    cases o.data with
    | inline data => simp [ObjectData.toVec, length_putString]
    | singlePart blocks =>
      simp only [ObjectData.toVec, putIdList, putLen, length_cons, length_append, length_leBytes]
      omega
    | multiPart blocks parts => simp [ObjectData.toVec, putLen, length_leBytes]
  simp only [Object.toVec, putI64, length_cons, length_append, length_leBytes, h]
  unfold minimumRawObjectSize objectHeaderSize
  omega

end RoundTrip

/-- **What is written for a record is read back as that record.** -/
theorem decode_encode (m : Target) (r : Record) (h : r.Fits m) : r.format.decode m r.encode = .ok r := by
  obtain ⟨hlt, hfits⟩ := h
  cases r with
  | block b =>
    have hread := closed_eq (finish_closes "Block") (Block.read_reads m hfits) hlt
    exact Result.bind_eq_ok.2 ⟨b, hread, rfl⟩
  | object o =>
    have hread := closed_eq (finish_closes "Object") (Object.read_reads m hfits) hlt
    have hmin := minimumRawObjectSize_le hfits.hash
    have hlong : ¬ o.toVec.length < minimumRawObjectSize := by omega
    exact Result.bind_eq_ok.2 ⟨o, (if_neg hlong).trans hread, rfl⟩
  | part mp =>
    have hread := closed_eq (finish_closes "MultiPart") (MultiPart.read_reads m hfits) hlt
    exact Result.bind_eq_ok.2 ⟨mp, hread, rfl⟩
  | upload u =>
    have hread := closed_eq (finish_closes "UploadRecord") (UploadRecord.read_reads m hfits) hlt
    exact Result.bind_eq_ok.2 ⟨u, hread, rfl⟩
  | bucket b =>
    have hread := closed_eq (finish_closes "BucketMeta") (BucketMeta.read_reads m hfits) hlt
    exact Result.bind_eq_ok.2 ⟨b, hread, rfl⟩

/-- An id of sixteen bytes. -/
def narrowId (b : Byte) : BlockId :=
  ⟨List.replicate 16 b ++ List.replicate 16 0, 16, by simp [maxBlockIdSize], .inl rfl, by
    intro x hx
    have hdrop : (List.replicate 16 b ++ List.replicate 16 0).drop 16 = List.replicate 16 0 := rfl
    rw [hdrop] at hx
    exact eq_of_mem_replicate hx⟩

/-- Part 3 of an upload to key `é` of bucket `b`, of two blocks. -/
def samplePart : MultiPart :=
  { size := 5, partNumber := 3, bucket := [98], key := [195, 169], uploadId := [117, 49],
    hash := List.replicate 16 9, blocks := [narrowId 1, narrowId 2] }

theorem samplePart_fits : (Record.part samplePart).Fits .wide :=
  ⟨by decide +kernel, by decide +kernel, by decide +kernel, by decide +kernel, by decide +kernel, by decide +kernel,
    by decide +kernel, by decide +kernel⟩

/-- A part record of two narrow blocks comes back. -/
theorem decode_encode_part :
    (Record.part samplePart).Fits .wide ∧
      Format.part.decode .wide (Record.part samplePart).encode = .ok (.part samplePart) :=
  ⟨samplePart_fits, decode_encode .wide (.part samplePart) samplePart_fits⟩

end QssStorage
