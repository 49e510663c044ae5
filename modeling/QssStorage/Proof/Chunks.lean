import QssStorage.Spec.System

/-!
# The chunks of a stream

However a stream is cut into pieces, `buffered` passes on its bytes cut every block, and it
fails only where the stream does (`none_mem_buffered`).

* `chunks_of_bytes`: **the chunks depend on the bytes of the stream alone.**
-/

namespace QssStorage

open List

/-! ## Cutting a list -/

section Cutting

variable {α : Type} {n : ℕ}

/-- The blocks are the list cut every `n` elements. -/
structure CutEvery (n : ℕ) (l : List α) (blocks : List (List α)) : Prop where
  flatten : blocks.flatten = l
  whole : ∀ b ∈ blocks.dropLast, b.length = n
  nonempty : ∀ b ∈ blocks, b ≠ []
  small : ∀ b ∈ blocks, b.length ≤ n

theorem CutEvery.nil : CutEvery n ([] : List α) [] := ⟨rfl, nofun, nofun, nofun⟩

/-- A short list is one block. -/
theorem CutEvery.single {l : List α} (hne : l ≠ []) (hle : l.length ≤ n) : CutEvery n l [l] :=
  ⟨by simp, nofun, fun b hb => mem_singleton.1 hb ▸ hne, fun b hb => mem_singleton.1 hb ▸ hle⟩

/-- Whole blocks in front of a cut. -/
theorem CutEvery.append (hn : 0 < n) {l : List α} {blocks : List (List α)} (h : CutEvery n l blocks) :
    ∀ {front : List (List α)}, (∀ b ∈ front, b.length = n) → CutEvery n (front.flatten ++ l) (front ++ blocks) := by
  intro front hfront
  have hmem : ∀ b ∈ front ++ blocks, b.length = n ∨ b ∈ blocks := fun b hb =>
    (mem_append.1 hb).imp (hfront b) id
  refine ⟨by rw [flatten_append, h.flatten], fun b hb => ?_, fun b hb => ?_, fun b hb => ?_⟩
  · by_cases hnil : blocks = []
    · rw [hnil, append_nil] at hb
      exact hfront b (mem_of_mem_dropLast hb)
    · rw [dropLast_append_of_ne_nil hnil] at hb
      exact (mem_append.1 hb).elim (hfront b) (h.whole b)
  · rcases hmem b hb with hlen | hb
    · exact ne_nil_of_length_pos (hlen ▸ hn)
    · exact h.nonempty b hb
  · rcases hmem b hb with hlen | hb
    · exact hlen.le
    · exact h.small b hb

/-- All but the first block are a cut of the rest. -/
theorem CutEvery.tail {l b : List α} {blocks : List (List α)} (h : CutEvery n l (b :: blocks)) :
    CutEvery n (l.drop n) blocks ∧ b = l.take n := by
  have hl : l = b ++ blocks.flatten := by rw [← h.flatten, flatten_cons]
  cases blocks with
  | nil =>
    have hle := h.small b mem_cons_self
    rw [flatten_nil, append_nil] at hl
    rw [hl, drop_eq_nil_of_le hle, take_of_length_le hle]
    exact ⟨.nil, rfl⟩
  | cons b' blocks =>
    have hlen : b.length = n := h.whole b mem_cons_self
    rw [hl, drop_left' hlen, take_left' hlen]
    exact ⟨⟨rfl, fun x hx => h.whole x (mem_cons_of_mem _ hx), fun x hx => h.nonempty x (mem_cons_of_mem _ hx),
      fun x hx => h.small x (mem_cons_of_mem _ hx)⟩, rfl⟩

/-- **There is one cut.** -/
theorem CutEvery.unique : ∀ {blocks blocks' : List (List α)} {l : List α}, CutEvery n l blocks → CutEvery n l blocks' →
    blocks = blocks' := by
  -- a first block is not empty, so both cuts have one or neither has
  have hnone : ∀ {b : List α} {bs : List (List α)} {l : List α}, CutEvery n l (b :: bs) → l ≠ [] := by
    intro b bs l h hl
    have hb := h.nonempty b mem_cons_self
    have hflat := h.flatten
    rw [hl, flatten_cons, append_eq_nil_iff] at hflat
    exact hb hflat.1
  intro blocks
  induction blocks with
  | nil =>
    intro blocks' l h h'
    cases blocks' with
    | nil => rfl
    | cons b' blocks' => exact absurd h.flatten.symm (hnone h')
  | cons b blocks ih =>
    intro blocks' l h h'
    cases blocks' with
    | nil => exact absurd h'.flatten.symm (hnone h)
    | cons b' blocks' => rw [h.tail.2, h'.tail.2, ih h.tail.1 h'.tail.1]

end Cutting

/-! ## The stream -/

theorem blockSize_pos : 0 < blockSize := by decide

/-- The blocks taken off a long piece, and the rest of it. -/
theorem fullBlocks_spec (bytes : Bytes) : (fullBlocks bytes).1.flatten ++ (fullBlocks bytes).2 = bytes ∧
    (∀ chunk ∈ (fullBlocks bytes).1, chunk.length = blockSize) ∧ (fullBlocks bytes).2.length ≤ blockSize := by
  induction bytes using fullBlocks.induct with
  | case1 bytes hlong ih =>
    obtain ⟨hflat, hchunks, hrest⟩ := ih
    rw [fullBlocks, if_pos hlong]
    refine ⟨?_, ?_, hrest⟩
    · rw [flatten_cons, append_assoc, hflat, take_append_drop]
    · intro chunk hchunk
      rcases mem_cons.1 hchunk with rfl | hchunk
      · rw [length_take]; omega
      · exact hchunks chunk hchunk
  | case2 bytes hshort =>
    rw [fullBlocks, if_neg hshort]
    exact ⟨rfl, nofun, Nat.le_of_not_lt hshort⟩

/-- **A stream that comes through is cut every block**, what the buffer holds being its first bytes. -/
theorem buffered_pieces : ∀ (pieces : List Bytes) (buffer : Bytes), buffer.length ≤ blockSize →
    ∃ chunks : List Bytes, buffered (pieces.map some) buffer = chunks.map some ∧
      CutEvery blockSize (buffer ++ pieces.flatten) chunks := by
  intro pieces
  induction pieces with
  | nil =>
    intro buffer hbuf
    rw [flatten_nil, append_nil]
    by_cases hnil : buffer = []
    · exact ⟨[], by simp [buffered, hnil], hnil ▸ .nil⟩
    · exact ⟨[buffer], by simp [buffered, hnil], .single hnil hbuf⟩
  | cons bytes pieces ih =>
    intro buffer hbuf
    rw [map_cons, buffered, flatten_cons]
    -- the three ways a piece compares with the room left in the buffer
    by_cases hlt : bytes.length < blockSize - buffer.length
    · obtain ⟨chunks, heq, hcut⟩ := ih (buffer ++ bytes) (by rw [length_append]; omega)
      exact ⟨chunks, by rw [if_pos hlt, heq], by rwa [append_assoc] at hcut⟩
    by_cases hfill : bytes.length = blockSize - buffer.length
    · obtain ⟨chunks, heq, hcut⟩ := ih [] (Nat.zero_le _)
      have hlen : ∀ b ∈ [buffer ++ bytes], b.length = blockSize := by
        intro b hb
        rw [mem_singleton.1 hb, length_append]
        omega
      refine ⟨(buffer ++ bytes) :: chunks, by rw [if_neg hlt, if_pos hfill, heq, map_cons], ?_⟩
      have hall := hcut.append blockSize_pos hlen
      rwa [flatten_singleton, nil_append, append_assoc] at hall
    · -- the buffer is filled, whole blocks follow, and what is left of the piece is buffered
      obtain ⟨hrest, hfull, hshort⟩ := fullBlocks_spec (bytes.drop (blockSize - buffer.length))
      obtain ⟨chunks, heq, hcut⟩ := ih _ hshort
      set room := blockSize - buffer.length
      have hlen : ∀ b ∈ (buffer ++ bytes.take room) :: (fullBlocks (bytes.drop room)).1, b.length = blockSize := by
        intro b hb
        rcases mem_cons.1 hb with rfl | hb
        · rw [length_append, length_take]; omega
        · exact hfull b hb
      refine ⟨((buffer ++ bytes.take room) :: (fullBlocks (bytes.drop room)).1) ++ chunks, ?_, ?_⟩
      · rw [if_neg hlt, if_neg hfill]
        dsimp only
        rw [heq, cons_append, map_cons, map_append]
      have hwhole : ((buffer ++ bytes.take room) :: (fullBlocks (bytes.drop room)).1).flatten ++
          ((fullBlocks (bytes.drop room)).2 ++ pieces.flatten) = buffer ++ (bytes ++ pieces.flatten) := by
        calc _ = buffer ++ (bytes.take room ++ ((fullBlocks (bytes.drop room)).1.flatten ++
                  (fullBlocks (bytes.drop room)).2)) ++ pieces.flatten := by simp only [flatten_cons, append_assoc]
          _ = buffer ++ (bytes ++ pieces.flatten) := by rw [hrest, take_append_drop, append_assoc]
      exact hwhole ▸ hcut.append blockSize_pos hlen

/-- The chunks a stream is cut into. -/
def chunksOf (pieces : List Bytes) : List Bytes := (buffered (pieces.map some) []).reduceOption

theorem chunksOf_cut (pieces : List Bytes) : buffered (pieces.map some) [] = (chunksOf pieces).map some ∧
    CutEvery blockSize pieces.flatten (chunksOf pieces) := by
  obtain ⟨chunks, heq, hcut⟩ := buffered_pieces pieces [] (Nat.zero_le _)
  have hchunks : chunksOf pieces = chunks := by
    unfold chunksOf
    rw [heq, List.reduceOption, filterMap_map]
    simp
  rw [hchunks]
  exact ⟨heq, hcut⟩

theorem chunksOf_spec (pieces : List Bytes) : buffered (pieces.map some) [] = (chunksOf pieces).map some ∧
    (chunksOf pieces).flatten = pieces.flatten ∧ ∀ chunk ∈ chunksOf pieces, chunk.length ≤ blockSize :=
  ⟨(chunksOf_cut pieces).1, (chunksOf_cut pieces).2.flatten, (chunksOf_cut pieces).2.small⟩

/-- **The chunks of a stream are its bytes cut every block, however they came in**, so the same bytes are
stored by the same steps under the same addresses. -/
theorem chunks_of_bytes (c : Config) (pieces : List Bytes) :
    buffered (pieces.map some) [] = (chunksOf pieces).map some ∧ CutEvery blockSize pieces.flatten (chunksOf pieces) ∧
      ∀ pieces' : List Bytes, pieces'.flatten = pieces.flatten →
        chunksOf pieces' = chunksOf pieces ∧ (chunksOf pieces').map c.hash = (chunksOf pieces).map c.hash ∧
          storeObject c (pieces'.map some) = storeObject c (pieces.map some) := by
  obtain ⟨hbuffered, hcut⟩ := chunksOf_cut pieces
  refine ⟨hbuffered, hcut, fun pieces' hsame => ?_⟩
  obtain ⟨hbuffered', hcut'⟩ := chunksOf_cut pieces'
  have hchunks : chunksOf pieces' = chunksOf pieces := (hsame ▸ hcut').unique hcut
  refine ⟨hchunks, congrArg (List.map c.hash) hchunks, ?_⟩
  unfold storeObject
  rw [hbuffered, hbuffered', hchunks]

/-- More than a block in one piece, and in three pieces, one of them empty: a whole block and
what is left. -/
theorem chunks_of_bytes_two :
    chunksOf [List.replicate 700000 97, [], List.replicate 700000 97] =
      [List.replicate blockSize 97, List.replicate (1400000 - blockSize) 97] ∧
    storeObject abcConfig ([List.replicate 700000 97, [], List.replicate 700000 97].map some) =
      storeObject abcConfig ([List.replicate 1400000 97].map some) := by
  have hflat : ∀ m n k : ℕ, m + n = k → [List.replicate m 97, [], List.replicate n 97].flatten =
      ([List.replicate k 97].flatten : Bytes) := fun m n k h => by simp [h]
  have htwo : ∀ n k m : ℕ, n + k = m → 0 < k → k ≤ n →
      CutEvery n ([List.replicate m 97].flatten : Bytes) [List.replicate n 97, List.replicate k 97] := by
    rintro n k m rfl hk hle
    refine ⟨by simp, by simp, ?_, by simpa using hle⟩
    simp only [mem_cons, not_mem_nil, or_false, forall_eq_or_imp, forall_eq]
    exact ⟨by simp; omega, by simp; omega⟩
  obtain ⟨-, hcut, hsame⟩ := chunks_of_bytes abcConfig [List.replicate 1400000 97]
  obtain ⟨hchunks, -, hstore⟩ := hsame _ (hflat 700000 700000 1400000 (by norm_num))
  have hblocks := htwo blockSize (1400000 - blockSize) 1400000 (by decide) (by decide) (by decide)
  exact ⟨hchunks.trans (hcut.unique hblocks), hstore⟩

/-- An error that is passed on was an error of the stream. -/
theorem none_mem_buffered : ∀ {pieces : List (Option Bytes)} {buffer : Bytes}, none ∈ buffered pieces buffer →
    none ∈ pieces := by
  intro pieces
  induction pieces with
  | nil =>
    intro buffer h
    rw [buffered] at h
    split at h
    · cases h
    · cases mem_singleton.1 h
  | cons piece pieces ih =>
    intro buffer h
    cases piece with
    | none => exact mem_cons_self
    | some bytes =>
      refine mem_cons_of_mem _ ?_
      rw [buffered] at h
      split at h
      · exact ih h
      split at h
      · exact ih ((mem_cons.1 h).resolve_left nofun)
      · rcases mem_append.1 ((mem_cons.1 h).resolve_left nofun) with hfull | hrest
        · obtain ⟨_, -, hnone⟩ := mem_map.1 hfull
          cases hnone
        · exact ih hrest

end QssStorage
