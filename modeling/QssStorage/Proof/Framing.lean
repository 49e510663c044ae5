import QssStorage.Spec.Resp

/-!
# Commands do not depend on how their bytes arrive

The stream of a session is cut into tokens: blank lines, inline commands and frames. `lex`
is the lexer the code's `parse_frame` and `serve_buffered_frames` amount to. It is stable
if the decoder is, so the session answers the same tokens however the stream is read.

The check of `oversized_bulk` is not part of it. It looks at the first command of the
buffer only, so whether it sees a command depends on where the reads end, and it takes a
length line that ends in a bare newline for a header, which the decoder rejects.

* `run_passed`: as long as the check passes, so does reading it in pieces.
-/

namespace QssStorage.Resp

open Resp2 (Frame ascii parseI64)
open Lexer List

/-! ## The lexer of a session -/

/-- A blank line, an inline command, or a frame. -/
inductive Token where
  | blank
  | inline (args : List Bytes)
  | resp (frame : Frame)

variable {decode : Decode} {ts : List Token} {r : Bytes}

/-- The frame dispatched for a token. -/
def Token.frame : Token → Option Frame
  | .blank => none
  | .inline args => some (inlineFrame args)
  | .resp frame => some frame

/-- The token of a line. -/
def lineToken : List Bytes → Token
  | [] => .blank
  | arg :: args => .inline (arg :: args)

/-- `parse_inline` as a lexer. -/
def lexInline (b : Bytes) : Verdict Token RespError :=
  match parseInline b with
  | .error e => .bad e
  | .ok none => .more
  | .ok (some (args, len)) => .token (lineToken args) len

/-- The decoder as a lexer. -/
def lexFrame (decode : Decode) (b : Bytes) : Verdict Token RespError :=
  match verdict decode b with
  | .token frame len => .token (.resp frame) len
  | .more => .more
  | .bad text => .bad (.protocol text)

/-- One token of the stream. -/
def lex (decode : Decode) (b : Bytes) : Verdict Token RespError :=
  match b with
  | [] => .more
  | first :: rest =>
    if first ∉ frameMarkers then lexInline (first :: rest) else lexFrame decode (first :: rest)

section Inline

variable {b c : Bytes} {i : ℕ}

theorem newline_lt (h : newline b = some i) : i < b.length :=
  (findIdx?_eq_some_iff_getElem.1 h).1

theorem newline_append (c : Bytes) (h : newline b = some i) : newline (b ++ c) = some i := by
  unfold newline at h ⊢
  rw [findIdx?_append, h]
  rfl

theorem newline_own (c : Bytes) (h : newline b = some i) : newline (b.take (i + 1) ++ c) = some i := by
  refine newline_append c ?_
  have hlt := newline_lt h
  obtain ⟨_, hat, hbefore⟩ := findIdx?_eq_some_iff_getElem.1 h
  refine findIdx?_eq_some_iff_getElem.2 ⟨by simp; omega, by simpa using hat, ?_⟩
  intro j hj
  simpa using hbefore j hj

/-- A newline that arrives later is behind everything that has arrived. -/
theorem le_of_newline_append (h : newline b = none) (h' : newline (b ++ c) = some i) : b.length ≤ i := by
  unfold newline at h h'
  rw [findIdx?_append, h, Option.none_or, Option.map_eq_some_iff] at h'
  obtain ⟨j, -, rfl⟩ := h'
  omega

theorem lexInline_eq_token {t : Token} {n : ℕ} :
    lexInline b = .token t n ↔ ∃ i args, newline b = some i ∧ i ≤ inlineMaxSize ∧
      splitArgs (stripCr (b.take i)) = .ok args ∧ t = lineToken args ∧ n = i + 1 := by
  unfold lexInline parseInline
  cases hb : newline b with
  | none => by_cases hl : b.length > inlineMaxSize <;> simp [hl]
  | some i =>
    by_cases hi : i > inlineMaxSize
    · simp [hi]
    · have hle : i ≤ inlineMaxSize := by omega
      cases hs : splitArgs (stripCr (b.take i)) with
      | error e => simp [hi, hs]
      | ok args => simp [hi, hle, hs, eq_comm]

/-- The three ways a line is refused. -/
theorem lexInline_eq_bad {e : RespError} : lexInline b = .bad e ↔
      (newline b = none ∧ b.length > inlineMaxSize ∧ e = .protocol "too big inline request") ∨
      ∃ i, newline b = some i ∧ (i > inlineMaxSize ∧ e = .protocol "too big inline request" ∨
          i ≤ inlineMaxSize ∧ splitArgs (stripCr (b.take i)) = .error e) := by
  unfold lexInline parseInline
  cases hb : newline b with
  | none => by_cases hl : b.length > inlineMaxSize <;> simp [hl, eq_comm]
  | some i =>
    by_cases hi : i > inlineMaxSize
    · simp [hi, eq_comm]
    · have hle : i ≤ inlineMaxSize := by omega
      cases hs : splitArgs (stripCr (b.take i)) with
      | error e' => simp [hi, hle, hs]
      | ok args => simp [hi, hs]

theorem lexInline_lawful : Lawful lexInline where
  le_length := by
    intro b t n h
    obtain ⟨i, args, hi, -, -, -, rfl⟩ := lexInline_eq_token.1 h
    exact newline_lt hi
  own := by
    intro b t n c h
    obtain ⟨i, args, hi, hmax, hargs, rfl, rfl⟩ := lexInline_eq_token.1 h
    have hlt := newline_lt hi
    have hline : (b.take (i + 1) ++ c).take i = b.take i := by
      rw [take_append_of_le_length (by simp; omega), take_take]
      congr 1
      omega
    exact lexInline_eq_token.2 ⟨i, args, newline_own c hi, hmax, by rw [hline]; exact hargs, rfl, rfl⟩
  bad_append := by
    intro b e c h
    rcases lexInline_eq_bad.1 h with ⟨hnone, hlong, rfl⟩ | ⟨i, hi, hbad⟩
    · -- the line is too long already, wherever it ends
      refine lexInline_eq_bad.2 ?_
      cases hj : newline (b ++ c) with
      | none => exact .inl ⟨rfl, by simp; omega, rfl⟩
      | some j =>
        have hle := le_of_newline_append hnone hj
        exact .inr ⟨j, rfl, .inl ⟨by omega, rfl⟩⟩
    · have hlt := newline_lt hi
      have hline : (b ++ c).take i = b.take i := take_append_of_le_length (by omega)
      exact lexInline_eq_bad.2 (.inr ⟨i, newline_append c hi, by rw [hline]; exact hbad⟩)
  pos := by
    intro b t n h
    obtain ⟨i, args, -, -, -, -, rfl⟩ := lexInline_eq_token.1 h
    omega

end Inline

theorem lexFrame_eq_token {b : Bytes} {t : Token} {n : ℕ} :
    lexFrame decode b = .token t n ↔ ∃ f, verdict decode b = .token f n ∧ t = .resp f := by
  unfold lexFrame
  cases verdict decode b with
  | token f m => simp [eq_comm, and_comm]
  | more | bad e => simp

theorem lexFrame_eq_bad {b : Bytes} {e : RespError} :
    lexFrame decode b = .bad e ↔ ∃ text, verdict decode b = .bad text ∧ e = .protocol text := by
  unfold lexFrame
  cases verdict decode b with
  | token f m | more => simp
  | bad e => simp [eq_comm]

theorem lexFrame_lawful (hd : Lawful (verdict decode)) : Lawful (lexFrame decode) where
  le_length h := by
    obtain ⟨f, hf, -⟩ := lexFrame_eq_token.1 h
    exact hd.le_length hf
  own c h := by
    obtain ⟨f, hf, rfl⟩ := lexFrame_eq_token.1 h
    exact lexFrame_eq_token.2 ⟨f, hd.own c hf, rfl⟩
  bad_append c h := by
    obtain ⟨text, ht, rfl⟩ := lexFrame_eq_bad.1 h
    exact lexFrame_eq_bad.2 ⟨text, hd.bad_append c ht, rfl⟩
  pos h := by
    obtain ⟨f, hf, -⟩ := lexFrame_eq_token.1 h
    exact hd.pos hf

/-- Which of the two lexers reads the stream is decided by its first byte. -/
theorem lex_cons (decode : Decode) (first : Byte) : (∀ rest, lex decode (first :: rest) = lexInline (first :: rest)) ∨
      ∀ rest, lex decode (first :: rest) = lexFrame decode (first :: rest) := by
  by_cases hm : first ∉ frameMarkers
  · exact .inl fun rest => if_pos hm
  · exact .inr fun rest => if_neg hm

/-- **The session's tokens do not depend on how their bytes arrive.** -/
theorem lex_lawful (hd : Lawful (verdict decode)) : Lawful (lex decode) := by
  -- a lexer that agrees with a lawful one on everything that starts with `first`
  have key : ∀ {first : Byte} {l : Bytes → Verdict Token RespError}, Lawful l →
      (∀ rest, lex decode (first :: rest) = l (first :: rest)) → ∀ {rest : Bytes},
      (∀ {t n}, lex decode (first :: rest) = .token t n → 0 < n ∧ n ≤ (first :: rest).length ∧
        ∀ c, lex decode ((first :: rest).take n ++ c) = .token t n) ∧
      ∀ {e}, lex decode (first :: rest) = .bad e → ∀ c, lex decode (first :: rest ++ c) = .bad e := by
    intro first l hl hlex rest
    refine ⟨fun {t n} h => ?_, fun {e} h c => ?_⟩
    · rw [hlex] at h
      have hpos := hl.pos h
      refine ⟨hpos, hl.le_length h, fun c => ?_⟩
      obtain ⟨k, rfl⟩ : ∃ k, n = k + 1 := ⟨n - 1, by omega⟩
      have hown := hl.own c h
      rw [take_succ_cons, cons_append] at hown ⊢
      rw [hlex]
      exact hown
    · rw [hlex] at h
      rw [cons_append, hlex]
      exact hl.bad_append c h
  have both : ∀ (first : Byte) (rest : Bytes),
      (∀ {t n}, lex decode (first :: rest) = .token t n → 0 < n ∧ n ≤ (first :: rest).length ∧
        ∀ c, lex decode ((first :: rest).take n ++ c) = .token t n) ∧
      ∀ {e}, lex decode (first :: rest) = .bad e → ∀ c, lex decode (first :: rest ++ c) = .bad e := by
    intro first rest
    rcases lex_cons decode first with h | h
    · exact key lexInline_lawful h
    · exact key (lexFrame_lawful hd) h
  refine ⟨⟨fun {b t n} h => ?_, fun {b t n} c h => ?_, fun {b e} c h => ?_⟩, fun {b t n} h => ?_⟩
  all_goals cases b with
    | nil => cases h
    | cons first rest => ?_
  · exact ((both first rest).1 h).2.1
  · exact ((both first rest).1 h).2.2 c
  · exact (both first rest).2 h c
  · exact ((both first rest).1 h).1

@[simp] theorem lex_nil (decode : Decode) : lex decode [] = .more := rfl

/-! ## Serving a buffer -/

/-- One turn of the loop of `parse_frame` is one token. -/
theorem parseFrameFrom_succ (decode : Decode) (b : Bytes) (fuel c : ℕ) : parseFrameFrom decode b (fuel + 1) c =
      match lex decode (b.drop c) with
      | .token .blank n => parseFrameFrom decode b fuel (c + n)
      | .token (.inline args) n => .ok (some (inlineFrame args), c + n)
      | .token (.resp frame) n => .ok (some frame, c + n)
      | .more => .ok (none, c)
      | .bad e => .error e := by
  conv_lhs => unfold parseFrameFrom
  cases b.drop c with
  | nil => rfl
  | cons first rest =>
    by_cases hm : first ∉ frameMarkers
    · simp only [lex, if_pos hm, lexInline]
      cases parseInline (first :: rest) with
      | error e => rfl
      | ok o =>
        cases o with
        | none => rfl
        | some line =>
          obtain ⟨args, len⟩ := line
          cases args <;> rfl
    · simp only [lex, if_neg hm, lexFrame, verdict]
      cases decode (first :: rest) with
      | ok o =>
        cases o with
        | none | some fr => rfl
      | error text => by_cases ht : saysIncomplete text <;> simp [ht]

variable {σ : Type} (srv : Server σ)

/-- The session after a token. -/
def take (s : Session σ) (t : Token) : Session σ × Option SessionEnd :=
  match t.frame with
  | none => (s, none)
  | some frame => answer srv s frame

/-- The session after some tokens. -/
def absorb : Session σ → List Token → Session σ × Option SessionEnd
  | s, [] => (s, none)
  | s, t :: ts =>
    match take srv s t with
    | (s', some ended) => (s', some ended)
    | (s', none) => absorb s' ts

/-- The session after a rest that is not a token: an error is reported. -/
def reject (s : Session σ) (r : Bytes) : Session σ × Option SessionEnd :=
  match lex srv.decode r with
  | .bad e =>
    match writeResponse srv s (.error ("ERR " ++ e.text)) with
    | (s', some ended) => (s', some ended)
    | (s', none) => (s', some .protocolError)
  | _ => (s, none)

/-- The session after some tokens and a rest that is not one. -/
def settle (s : Session σ) (ts : List Token) (r : Bytes) : Session σ × Option SessionEnd :=
  match absorb srv s ts with
  | (s', some ended) => (s', some ended)
  | (s', none) => reject srv s' r

/-- What the caller of `serve_buffered_frames` is told. -/
def told (consumed : ℕ) : Session σ × Option SessionEnd → Session σ × Except SessionEnd ℕ
  | (s, some ended) => (s, .error ended)
  | (s, none) => (s, .ok consumed)

/-- What `serve_buffered_frames` makes of a parse result. -/
def serveParsed (b : Bytes) (fuel : ℕ) (s : Session σ) (pos : ℕ) :
    Except RespError (Option Frame × ℕ) → Session σ × Except SessionEnd ℕ
  | .ok (some frame, len) =>
    match answer srv s frame with
    | (s', some ended) => (s', .error ended)
    | (s', none) => serveFrom srv b fuel s' (pos + len)
  | .ok (none, skipped) => (s, .ok (pos + skipped))
  | .error e =>
    match writeResponse srv s (.error ("ERR " ++ e.text)) with
    | (s', some ended) => (s', .error ended)
    | (s', none) => (s', .error .protocolError)

theorem serveFrom_succ (b : Bytes) (fuel : ℕ) (s : Session σ) {pos : ℕ} (h : pos < b.length) :
    serveFrom srv b (fuel + 1) s pos = serveParsed srv b fuel s pos (parseFrame srv.decode (b.drop pos)) := by
  conv_lhs => unfold serveFrom
  rw [if_neg (by omega)]
  cases parseFrame srv.decode (b.drop pos) with
  | ok o =>
    obtain ⟨o, len⟩ := o
    cases o <;> rfl
  | error e => rfl

variable {srv}

/-- Behind the last byte there is nothing to serve, before it a parse decides. -/
theorem serveFrom_eq (b : Bytes) {fuel : ℕ} (s : Session σ) {pos : ℕ} (hf : 0 < fuel) : serveFrom srv b fuel s pos =
      serveParsed srv b (fuel - 1) s pos (parseFrame srv.decode (b.drop pos)) := by
  obtain ⟨k, rfl⟩ : ∃ k, fuel = k + 1 := ⟨fuel - 1, by omega⟩
  rcases Nat.lt_or_ge pos b.length with hlt | hge
  · exact serveFrom_succ srv b k s hlt
  · have hnil : b.drop pos = [] := drop_eq_nil_of_le hge
    rw [hnil, parseFrame, parseFrameFrom_succ]
    simp [serveFrom, serveParsed, hge]

/-- Serving from inside a parse: `c` bytes of blank lines behind `pos` have been skipped. -/
theorem serveParsed_cut (hd : Lawful (lex srv.decode)) {b : Bytes} {x : Bytes} (hx : Cut (lex srv.decode) x ts r)
    (hs : Stuck (lex srv.decode) r) :
    ∀ {pos c fuel pfuel : ℕ} (s : Session σ), x = b.drop (pos + c) → pos + c ≤ b.length →
      x.length < pfuel → x.length ≤ fuel →
      serveParsed srv b fuel s pos (parseFrameFrom srv.decode (b.drop pos) pfuel c) =
        told (b.length - r.length) (settle srv s ts r) := by
  -- one token at a time; a command starts a new parse behind it
  induction hx with
  | nil x =>
    intro pos c fuel pfuel s hxb hle hp hf
    obtain ⟨k, rfl⟩ : ∃ k, pfuel = k + 1 := ⟨pfuel - 1, by omega⟩
    have hend : pos + c = b.length - x.length := by
      rw [hxb, length_drop]
      omega
    rw [parseFrameFrom_succ, drop_drop, ← hxb]
    simp only [settle, absorb, reject]
    cases hv : lex srv.decode x with
    | token t n => exact absurd hv (hs t n)
    | more => simp only [serveParsed, told, hend]
    | bad e =>
      simp only [serveParsed]
      rcases writeResponse srv s (.error ("ERR " ++ e.text)) with ⟨s', _ | ended⟩ <;> rfl
  | @cons x t n ts r ht hrest ih =>
    intro pos c fuel pfuel s hxb hle hp hf
    obtain ⟨k, rfl⟩ : ∃ k, pfuel = k + 1 := ⟨pfuel - 1, by omega⟩
    have hn := hd.pos ht
    have hnle := hd.le_length ht
    have hxlen : x.length = b.length - (pos + c) := by rw [hxb, length_drop]
    have hnext : x.drop n = b.drop (pos + (c + n)) := by
      rw [hxb, drop_drop, Nat.add_assoc]
    have hnext0 : x.drop n = b.drop (pos + (c + n) + 0) := hnext
    have hshort : (x.drop n).length < x.length := by simp; omega
    have hcmd : ∀ frame, t.frame = some frame → serveParsed srv b fuel s pos (.ok (some frame, c + n)) =
          told (b.length - r.length) (settle srv s (t :: ts) r) := by
      intro frame hframe
      simp only [serveParsed, settle, absorb, take, hframe]
      rcases answer srv s frame with ⟨s', _ | ended⟩
      · dsimp only
        rw [serveFrom_eq b s' (by omega)]
        exact ih hs s' hnext0 (by omega) (by rw [hnext]; omega) (by omega)
      · rfl
    rw [parseFrameFrom_succ, drop_drop, ← hxb, ht]
    cases t with
    | blank => exact ih hs s hnext (by omega) (by omega) (by omega)
    | inline args | resp frame => exact hcmd _ rfl

/-- **Serving a buffer answers its tokens and keeps the rest.** -/
theorem serve_eq (hd : Lawful (lex srv.decode)) {b : Bytes} (hcut : Cut (lex srv.decode) b ts r)
    (hs : Stuck (lex srv.decode) r) (s : Session σ) :
    serveBufferedFrames srv s b = told (b.length - r.length) (settle srv s ts r) := by
  unfold serveBufferedFrames
  rw [serveFrom_eq b s (by omega)]
  exact serveParsed_cut hd hcut hs s rfl (by omega) (by simp) (by simp)

/-! ## Reading a stream -/

theorem stuck_of_more {b : Bytes} (h : lex decode b = .more) : Stuck (lex decode) b := by
  intro t n ht
  cases h.symm.trans ht

theorem absorb_append (s : Session σ) (ts us : List Token) : absorb srv s (ts ++ us) =
      match absorb srv s ts with
      | (s', some ended) => (s', some ended)
      | (s', none) => absorb srv s' us := by
  induction ts generalizing s with
  | nil => rfl
  | cons t ts ih =>
    simp only [cons_append, absorb]
    rcases take srv s t with ⟨s', _ | ended⟩
    · exact ih s'
    · rfl

theorem settle_append (s : Session σ) (ts us : List Token) (r : Bytes) : settle srv s (ts ++ us) r =
      match absorb srv s ts with
      | (s', some ended) => (s', some ended)
      | (s', none) => settle srv s' us r := by
  unfold settle
  rw [absorb_append]
  rcases absorb srv s ts with ⟨s', _ | ended⟩ <;> rfl

/-- A session that goes on has answered every token and waits for more bytes. -/
theorem settle_eq_none {s s' : Session σ} (h : settle srv s ts r = (s', none)) (hs : Stuck (lex srv.decode) r) :
    absorb srv s ts = (s', none) ∧ lex srv.decode r = .more := by
  unfold settle at h
  rcases habs : absorb srv s ts with ⟨s1, _ | ended⟩
  · rw [habs] at h
    dsimp only [reject] at h
    cases hv : lex srv.decode r with
    | token t n => exact absurd hv (hs t n)
    | more =>
      rw [hv] at h
      cases h
      exact ⟨rfl, rfl⟩
    | bad e =>
      rw [hv] at h
      dsimp only at h
      rcases hw : writeResponse srv s1 (.error ("ERR " ++ e.text)) with ⟨s2, _ | ended⟩
      · rw [hw] at h; cases h
      · rw [hw] at h; cases h
  · rw [habs] at h
    cases h

/-- Bytes that arrive after the session has ended change nothing. -/
theorem settle_ended (hd : Lawful (lex srv.decode)) {b c r1 r : Bytes} {ts1 ts : List Token}
    {s s' : Session σ} {ended : SessionEnd}
    (h1 : Cut (lex srv.decode) b ts1 r1) (hs1 : Stuck (lex srv.decode) r1)
    (hset : settle srv s ts1 r1 = (s', some ended))
    (h : Cut (lex srv.decode) (b ++ c) ts r) (hs : Stuck (lex srv.decode) r) :
    settle srv s ts r = (s', some ended) := by
  obtain ⟨us, rfl, hus⟩ := h.extends_of_stuck hs (h1.append hd.toStable c)
  rw [settle_append]
  rcases habs : absorb srv s ts1 with ⟨s1, _ | e⟩
  · -- then the rest was wrong, and stays wrong
    unfold settle at hset
    rw [habs] at hset
    dsimp only [reject] at hset
    cases hv : lex srv.decode r1 with
    | token t n => exact absurd hv (hs1 t n)
    | more => rw [hv] at hset; cases hset
    | bad e =>
      have hbad := hd.bad_append c hv
      have hstuck : Stuck (lex srv.decode) (r1 ++ c) := by
        intro t n ht
        cases hbad.symm.trans ht
      obtain ⟨rfl, rfl⟩ := Cut.eq_nil_of_stuck hstuck hus
      rw [hv] at hset
      simp only [settle, absorb, reject, hbad]
      exact hset
  · unfold settle at hset
    rw [habs] at hset
    exact hset

/-- The check of `oversized_bulk` passes at every read. -/
def Passes (srv : Server σ) : Bytes → List Bytes → Prop
  | _, [] => True
  | buffer, chunk :: reads =>
    oversizedBulk (buffer ++ chunk) srv.maxValueSize = none ∧
      ∀ ts r, Cut (lex srv.decode) (buffer ++ chunk) ts r → Stuck (lex srv.decode) r → Passes srv r reads

/-- **As long as the check passes, reading in pieces answers the tokens of the whole.** -/
theorem run_passed (hd : Lawful (lex srv.decode)) :
    ∀ {reads : List Bytes} {buffer r : Bytes} {ts : List Token} {s : Session σ},
      lex srv.decode buffer = .more → (∀ c ∈ reads, c ≠ []) → Passes srv buffer reads →
      Cut (lex srv.decode) (buffer ++ reads.flatten) ts r → Stuck (lex srv.decode) r →
      ∀ later, run srv s buffer (reads ++ later) =
        match settle srv s ts r with
        | (s', some _) => s'
        | (s', none) => run srv s' r later := by
  intro reads
  induction reads with
  | nil =>
    intro buffer r ts s hmore _ _ hcut _ later
    rw [flatten_nil, append_nil] at hcut
    obtain ⟨rfl, rfl⟩ := Cut.eq_nil_of_stuck (stuck_of_more hmore) hcut
    simp [settle, absorb, reject, hmore]
  | cons c cs ih =>
    intro buffer r ts s hmore hne hpass hcut hs later
    have hc : c ≠ [] := hne c mem_cons_self
    obtain ⟨ts1, r1, hcut1, hs1⟩ := Cut.exists_stuck hd (buffer ++ c)
    obtain ⟨p, hp, -⟩ := hcut1.split hd.toStable
    have hkept : (buffer ++ c).drop ((buffer ++ c).length - r1.length) = r1 := by
      rw [hp, length_append, Nat.add_sub_cancel, drop_left]
    rw [flatten_cons, ← append_assoc] at hcut
    rw [cons_append, run, if_neg hc]
    dsimp only
    rw [hpass.1, serve_eq hd hcut1 hs1 s]
    rcases hset : settle srv s ts1 r1 with ⟨s', _ | ended⟩
    · obtain ⟨habs, hmore1⟩ := settle_eq_none hset hs1
      obtain ⟨us, rfl, hus⟩ := hcut.extends_of_stuck hs (hcut1.append hd.toStable cs.flatten)
      dsimp only [told]
      rw [hkept, settle_append, habs]
      exact ih hmore1 (fun d hd => hne d (mem_cons_of_mem _ hd))
        (hpass.2 ts1 r1 hcut1 hs1) hus hs later
    · rw [settle_ended hd hcut1 hs1 hset hcut hs]
      rfl

/-! ## Where the check looks -/

theorem readLenLine_append {rest after : Bytes} {v : ℤ} (c : Bytes)
    (h : readLenLine rest = some (v, after)) :
    readLenLine (rest ++ c) = some (v, after ++ c) := by
  unfold readLenLine at h ⊢
  cases hn : newline rest with
  | none => rw [hn] at h; cases h
  | some i =>
    have hlt := newline_lt hn
    rw [hn] at h
    rw [newline_append c hn]
    dsimp only at h ⊢
    rw [take_append_of_le_length (by omega), drop_append_of_le_length (by omega)]
    cases hv : parseI64 (stripCr (rest.take i)) with
    | none => rw [hv] at h; cases h
    | some w => rw [hv] at h; cases h; rfl

theorem oversizedArgs_append {cap declared : ℕ} (c : Bytes) :
    ∀ {count : ℕ} {rest : Bytes}, oversizedArgs cap count rest = some declared →
      oversizedArgs cap count (rest ++ c) = some declared := by
  intro count
  induction count with
  | zero => intro rest h; cases h
  | succ count ih =>
    intro rest h
    cases rest with
    | nil => cases h
    | cons marker rest =>
      simp only [oversizedArgs, cons_append] at h ⊢
      split_ifs at h ⊢ with hm
      cases hl : readLenLine rest with
      | none => rw [hl] at h; cases h
      | some line =>
        obtain ⟨len, after⟩ := line
        rw [hl] at h
        rw [readLenLine_append c hl]
        dsimp only at h ⊢
        by_cases hneg : len < 0
        · rw [if_pos hneg] at h ⊢
          exact ih h
        rw [if_neg hneg] at h ⊢
        by_cases hcap : len.toNat > cap
        · rw [if_pos hcap] at h ⊢
          exact h
        rw [if_neg hcap] at h ⊢
        by_cases hend : len.toNat + 2 > after.length
        · cases (if_pos hend).symm.trans h
        · rw [if_neg hend] at h
          rw [if_neg (by simp; omega), drop_append_of_le_length (by omega)]
          exact ih h

/-- **What the check has seen it still sees when more has arrived.** -/
theorem oversizedBulk_append {b : Bytes} {cap declared : ℕ} (c : Bytes)
    (h : oversizedBulk b cap = some declared) : oversizedBulk (b ++ c) cap = some declared := by
  cases b with
  | nil => cases h
  | cons first rest =>
    simp only [oversizedBulk, cons_append] at h ⊢
    split_ifs at h ⊢ with hm
    cases hl : readLenLine rest with
    | none => rw [hl] at h; cases h
    | some line =>
      obtain ⟨count, after⟩ := line
      rw [hl] at h
      rw [readLenLine_append c hl]
      exact oversizedArgs_append c h

theorem oversizedBulk_of_append {b c : Bytes} {cap : ℕ} (h : oversizedBulk (b ++ c) cap = none) :
    oversizedBulk b cap = none := by
  cases hb : oversizedBulk b cap with
  | none => rfl
  | some declared =>
    cases (oversizedBulk_append c hb).symm.trans h

/-- The check passes at every read if it would at the start of every token that starts
before the last read. -/
theorem passes_of_starts (hd : Lawful (lex srv.decode)) : ∀ {reads : List Bytes} {buffer : Bytes},
      (∀ p t, buffer ++ reads.flatten = p ++ t → Whole (lex srv.decode) p →
        p.length ≤ (buffer ++ reads.dropLast.flatten).length →
        oversizedBulk t srv.maxValueSize = none) →
      Passes srv buffer reads := by
  intro reads
  induction reads with
  | nil => intros; trivial
  | cons c cs ih =>
    intro buffer h
    have hhead : oversizedBulk ((buffer ++ c) ++ cs.flatten) srv.maxValueSize = none :=
      h [] _ (by simp) ⟨[], .nil _⟩ (by simp)
    refine ⟨oversizedBulk_of_append hhead, fun ts r hcut _ => ?_⟩
    obtain ⟨p, hp, hwhole⟩ := hcut.split hd.toStable
    cases cs with
    | nil => trivial
    | cons c' cs' =>
      refine ih fun q t hq hwq hlen => h (p ++ q) t ?_ ?_ ?_
      · rw [flatten_cons, ← append_assoc, hp, append_assoc, hq, append_assoc]
      · obtain ⟨us, hus⟩ := hwq
        exact ⟨ts ++ us, (hwhole.of_whole hd.toStable q).trans hus⟩
      · have hlen' := congrArg List.length hp
        rw [dropLast_cons_cons, flatten_cons]
        simp only [length_append] at hlen hlen' ⊢
        omega

end QssStorage.Resp
