import QssStorage.Proof.Framing

/-!
# One stream, read in different pieces

A session on a stream answers the same commands with the same replies however the stream
is split into reads, if the check of `oversized_bulk` passes at the start of every command,
or refuses the first one before it can be answered. It does not on other streams:
the check looks at the start of the buffer only, so it sees a command that starts a read and
not the same command behind another one.

A stream without over-long arguments can still meet the check. A length line that ends in a
bare newline is a header to `oversized_bulk`, and malformed to the decoder.

* `splits_agree_iff`: **on which streams the reads do not matter.**
-/

namespace QssStorage.Resp

open Resp2 List
open Lexer

/-! ## What a session has dispatched only grows -/

section Monotone

variable {σ : Type} (srv : Server σ)
variable (s : Session σ) (ts : List Token)

theorem writeResponse_dispatched (response : Frame) : (writeResponse srv s response).1.dispatched = s.dispatched := by
  unfold writeResponse
  split <;> rfl

theorem answer_dispatched (frame : Frame) : (answer srv s frame).1.dispatched = s.dispatched ++ [frame] :=
  writeResponse_dispatched srv _ _

theorem take_dispatched (t : Token) : (take srv s t).1.dispatched = s.dispatched ++ t.frame.toList := by
  unfold take
  cases t.frame with
  | none => simp
  | some frame => exact answer_dispatched srv s frame

theorem filterMap_frame_cons (t : Token) (ts : List Token) :
    (t :: ts).filterMap Token.frame = t.frame.toList ++ ts.filterMap Token.frame := by
  cases hf : t.frame <;> simp [hf]

/-- The frames dispatched are those of the first tokens. -/
theorem absorb_dispatched : ∀ s : Session σ,
    ∃ us, us <+: ts ∧ (absorb srv s ts).1.dispatched = s.dispatched ++ us.filterMap Token.frame := by
  induction ts with
  | nil => intro s; exact ⟨[], prefix_refl _, by simp [absorb]⟩
  | cons t ts ih =>
    intro s
    have ht := take_dispatched srv s t
    unfold absorb
    rcases hr : take srv s t with ⟨s', _ | ended⟩
    · obtain ⟨us, hus, hdisp⟩ := ih s'
      rw [hr] at ht
      dsimp only at ht ⊢
      refine ⟨t :: us, cons_prefix_cons.2 ⟨rfl, hus⟩, ?_⟩
      rw [hdisp, ht, filterMap_frame_cons, append_assoc]
    · rw [hr] at ht
      dsimp only at ht ⊢
      refine ⟨[t], cons_prefix_cons.2 ⟨rfl, List.nil_prefix⟩, ?_⟩
      rw [ht, filterMap_frame_cons]
      simp

/-- A session that goes on has dispatched every command. -/
theorem absorb_none_dispatched {ts : List Token} : ∀ {s s' : Session σ},
    absorb srv s ts = (s', none) → s'.dispatched = s.dispatched ++ ts.filterMap Token.frame := by
  induction ts with
  | nil => intro s s' h; cases h; simp
  | cons t ts ih =>
    intro s s' h
    have ht := take_dispatched srv s t
    unfold absorb at h
    rcases hr : take srv s t with ⟨s1, _ | ended⟩
    · rw [hr] at h ht
      rw [ih h, filterMap_frame_cons, ← append_assoc, ← ht]
    · rw [hr] at h
      cases h

theorem reject_dispatched (r : Bytes) : (reject srv s r).1.dispatched = s.dispatched := by
  unfold reject
  split
  next e _ =>
    have hw := writeResponse_dispatched srv s (.error ("ERR " ++ e.text))
    rcases hr : writeResponse srv s (.error ("ERR " ++ e.text)) with ⟨s', _ | ended⟩
    · rwa [hr] at hw
    · rwa [hr] at hw
  next => rfl

theorem settle_dispatched (r : Bytes) : (settle srv s ts r).1.dispatched = (absorb srv s ts).1.dispatched := by
  unfold settle
  rcases absorb srv s ts with ⟨s', _ | ended⟩
  · exact reject_dispatched srv s' r
  · rfl

variable {srv}

theorem run_dispatched (hd : Lawful (lex srv.decode)) : ∀ (reads : List Bytes) (s : Session σ) (buffer : Bytes),
      s.dispatched <+: (run srv s buffer reads).dispatched := by
  intro reads
  induction reads with
  | nil => intro s buffer; exact prefix_refl _
  | cons c cs ih =>
    intro s buffer
    unfold run
    split
    · exact prefix_refl _
    dsimp only
    split
    · rw [writeResponse_dispatched]
    obtain ⟨ts, r, hcut, hs⟩ := Cut.exists_stuck hd (buffer ++ c)
    have hset := settle_dispatched srv s ts r
    obtain ⟨us, -, hdisp⟩ := absorb_dispatched srv ts s
    have hgrow : s.dispatched <+: (settle srv s ts r).1.dispatched := by
      rw [hset, hdisp]
      exact prefix_append _ _
    rw [serve_eq hd hcut hs s]
    rcases hr : settle srv s ts r with ⟨s', _ | ended⟩
    · rw [hr] at hgrow
      exact hgrow.trans (ih s' _)
    · rw [hr] at hgrow
      exact hgrow

/-- A client that takes every reply gets every token answered. -/
theorem absorb_of_writes (hw : ∀ sent f, srv.writes sent f = true) (ts : List Token) :
    ∀ s : Session σ, ∃ s', absorb srv s ts = (s', none) := by
  induction ts with
  | nil => intro s; exact ⟨s, rfl⟩
  | cons t ts ih =>
    intro s
    have ht : ∃ s1, take srv s t = (s1, none) := by
      unfold take
      cases t.frame with
      | none => exact ⟨s, rfl⟩
      | some frame =>
        unfold answer writeResponse
        simp [hw]
    obtain ⟨s1, ht⟩ := ht
    obtain ⟨s', habs⟩ := ih s1
    exact ⟨s', by simp only [absorb, ht, habs]⟩

end Monotone

/-! ## The streams on which the reads do not matter -/

/-- `reads` are non-empty reads of `stream`. -/
structure IsSplit (reads : List Bytes) (stream : Bytes) : Prop where
  ne_nil : ∀ c ∈ reads, c ≠ []
  flatten : reads.flatten = stream

variable {σ : Type}

/-- The commands a session executes on some reads, and the replies it writes. -/
def outcome (srv : Server σ) (state : σ) (reads : List Bytes) : List Frame × List Frame :=
  let s := run srv (.opened state) [] reads
  (s.dispatched, s.replies)

/-- However the stream is read, and whenever the client goes away: the same commands and
the same replies. -/
def SplitsAgree (decode : Decode) (dispatch : σ → Frame → σ × Frame) (cap : ℕ) (state : σ)
    (stream : Bytes) : Prop :=
  ∀ writes reads reads', IsSplit reads stream → IsSplit reads' stream →
    outcome ⟨decode, dispatch, writes, cap⟩ state reads = outcome ⟨decode, dispatch, writes, cap⟩ state reads'

/-- The check passes at the start of every command. -/
def NothingRefused (decode : Decode) (cap : ℕ) (stream : Bytes) : Prop :=
  ∀ p t, stream = p ++ t → Whole (lex decode) p → oversizedBulk t cap = none

/-- The check refuses the first command, before it can be answered or rejected. -/
def RefusedAtOnce (decode : Decode) (cap : ℕ) (stream : Bytes) : Prop :=
  oversizedBulk stream cap ≠ none ∧ ∀ p, p <+: stream → lex decode p ≠ .more → oversizedBulk p cap ≠ none

/-- The check only looks at arrays. -/
theorem lex_of_oversized {decode : Decode} {t : Bytes} {cap n : ℕ}
    (h : oversizedBulk t cap = some n) : lex decode t = lexFrame decode t := by
  cases t with
  | nil => cases h
  | cons first rest =>
    simp only [oversizedBulk] at h
    split_ifs at h with hm
    have hstar : first = ascii '*' := not_not.1 hm
    have hmarker : ¬ ascii '*' ∉ frameMarkers := by decide
    subst hstar
    rw [lex, if_neg hmarker]

theorem overLimit_ne_protocol (n cap : ℕ) (e : RespError) : overLimit n cap ≠ .error ("ERR " ++ e.text) := by
  obtain ⟨text⟩ := e
  intro h
  have heq : "ERR value of " ++ toString n ++ " bytes is over the " ++ toString cap ++
      " byte limit (resp.max_value_size)" = "ERR " ++ ("Protocol error: " ++ text) :=
    Frame.error.inj h
  have htext := congrArg String.toList heq
  rw [String.toList_append, String.toList_append, String.toList_append, String.toList_append,
    String.toList_append, String.toList_append] at htext
  have hv : "ERR value of ".toList = 'E' :: 'R' :: 'R' :: ' ' :: 'v' :: "alue of ".toList := by decide
  have hp : "ERR ".toList = ['E', 'R', 'R', ' '] := by decide
  have hq : "Protocol error: ".toList = 'P' :: "rotocol error: ".toList := by decide
  rw [hv, hp, hq] at htext
  injection htext with _ htext
  injection htext with _ htext
  injection htext with _ htext
  injection htext with _ htext
  injection htext with hc
  exact absurd hc (by decide)

section Agree

variable {srv : Server σ} {stream : Bytes} {state : σ}

/-- Where nothing is refused, a session answers the tokens of the stream. -/
theorem run_nothingRefused (hd : Lawful (lex srv.decode))
    (hq : NothingRefused srv.decode srv.maxValueSize stream) {ts : List Token} {r : Bytes}
    (hcut : Cut (lex srv.decode) stream ts r) (hs : Stuck (lex srv.decode) r)
    {reads : List Bytes} (hreads : IsSplit reads stream) (s : Session σ) :
    run srv s [] reads = (settle srv s ts r).1 := by
  have hpass : Passes srv [] reads := by
    refine passes_of_starts hd fun p t hpt hp _ => hq p t ?_ hp
    rw [← hpt, hreads.flatten, nil_append]
  have hcut' : Cut (lex srv.decode) ([] ++ reads.flatten) ts r := by
    rwa [hreads.flatten, nil_append]
  have hrun := run_passed hd (lex_nil _) hreads.ne_nil hpass hcut' hs (s := s) []
  rw [append_nil] at hrun
  rw [hrun]
  rcases settle srv s ts r with ⟨s', _ | ended⟩ <;> rfl

/-- Where the first command is refused at once, a session refuses it and does nothing else. -/
theorem run_refusedAtOnce (hd : Lawful (lex srv.decode)) {n : ℕ}
    (hn : oversizedBulk stream srv.maxValueSize = some n)
    (hq : ∀ p, p <+: stream → lex srv.decode p ≠ .more → oversizedBulk p srv.maxValueSize ≠ none) (s : Session σ) :
    ∀ {reads : List Bytes} {buffer : Bytes}, buffer ++ reads.flatten = stream →
      (∀ c ∈ reads, c ≠ []) → oversizedBulk buffer srv.maxValueSize = none →
      run srv s buffer reads = (writeResponse srv s (overLimit n srv.maxValueSize)).1 := by
  intro reads
  induction reads with
  | nil =>
    intro buffer hst _ hnone
    rw [flatten_nil, append_nil] at hst
    rw [hst, hn] at hnone
    cases hnone
  | cons c cs ih =>
    intro buffer hst hne hnone
    have hpre : buffer ++ c <+: stream := ⟨cs.flatten, by rw [← hst]; simp⟩
    rw [run, if_neg (hne c mem_cons_self)]
    dsimp only
    cases hv : oversizedBulk (buffer ++ c) srv.maxValueSize with
    | some m =>
      obtain ⟨d, hd'⟩ := hpre
      have hm := oversizedBulk_append d hv
      rw [hd', hn] at hm
      cases hm
      rfl
    | none =>
      -- nothing is answered before the refusal: the buffer is kept as it is
      have hmore : lex srv.decode (buffer ++ c) = .more := by
        by_contra hcon
        exact hq _ hpre hcon hv
      rw [serve_eq hd (.nil _) (stuck_of_more hmore) s]
      simp only [settle, absorb, reject, hmore, told, Nat.sub_self, drop_zero]
      refine ih ?_ (fun d hd => hne d (mem_cons_of_mem _ hd)) hv
      rw [← hst]
      simp

end Agree

theorem isSplit_one {stream : Bytes} (h : stream ≠ []) : IsSplit [stream] stream :=
  ⟨by simpa using h, by simp⟩

theorem isSplit_two {p q : Bytes} (hp : p ≠ []) (hq : q ≠ []) : IsSplit [p, q] (p ++ q) :=
  ⟨by simp [hp, hq], by simp⟩

section Disagree

variable {srv : Server σ} {state : σ}

/-- What a first read leaves to the reads after it, if it passes the check. -/
theorem run_first (hd : Lawful (lex srv.decode)) {p : Bytes} (hp : p ≠ [])
    (hnone : oversizedBulk p srv.maxValueSize = none) {ts : List Token} {r : Bytes}
    (hcut : Cut (lex srv.decode) p ts r) (hs : Stuck (lex srv.decode) r) (s : Session σ)
    (later : List Bytes) :
    run srv s [] (p :: later) =
      match settle srv s ts r with
      | (s', some _) => s'
      | (s', none) => run srv s' r later := by
  have hpass : Passes srv [] [p] := ⟨hnone, fun _ _ _ _ => trivial⟩
  have hcut' : Cut (lex srv.decode) ([] ++ [p].flatten) ts r := by simpa using hcut
  exact run_passed hd (lex_nil _) (by simpa using hp) hpass hcut' hs later

/-- What is dispatched for a first read stays dispatched. -/
theorem mem_dispatched_of_first (hd : Lawful (lex srv.decode)) (hw : ∀ sent f, srv.writes sent f = true)
    {p : Bytes} (hp : p ≠ []) (hnone : oversizedBulk p srv.maxValueSize = none)
    {ts : List Token} {r : Bytes} (hcut : Cut (lex srv.decode) p ts r)
    (hs : Stuck (lex srv.decode) r) (s : Session σ) (later : List Bytes) :
    s.dispatched ++ ts.filterMap Token.frame <+: (run srv s [] (p :: later)).dispatched := by
  have hset := settle_dispatched srv s ts r
  obtain ⟨s1, habs⟩ := absorb_of_writes hw ts s
  have hdisp := absorb_none_dispatched srv habs
  rw [habs] at hset
  rw [run_first hd hp hnone hcut hs s later, ← hdisp, ← hset]
  rcases settle srv s ts r with ⟨s', _ | ended⟩
  · exact run_dispatched hd later s' r
  · exact prefix_refl _

/-- A first command that a short read gets answered, or rejected, and a longer one refused. -/
theorem outcome_ne_at_once (hd : Lawful (lex srv.decode)) (hw : ∀ sent f, srv.writes sent f = true)
    {p q : Bytes} {n : ℕ} (hn : oversizedBulk (p ++ q) srv.maxValueSize = some n)
    (hp : lex srv.decode p ≠ .more) (hnone : oversizedBulk p srv.maxValueSize = none) :
    outcome srv state [p ++ q] ≠ outcome srv state [p, q] := by
  intro heq
  have hp0 : p ≠ [] := by rintro rfl; exact hp rfl
  -- read at once it is refused
  have hone : outcome srv state [p ++ q] = ([], [overLimit n srv.maxValueSize]) := by
    simp [outcome, run, hp0, hn, writeResponse, Session.opened, hw]
  rw [hone] at heq
  cases hv : lex srv.decode p with
  | more => exact hp hv
  | token t m =>
    -- read in two it is dispatched
    have htok := hd.token_append q hv
    rw [lex_of_oversized hn] at htok
    obtain ⟨f, -, rfl⟩ := lexFrame_eq_token.1 htok
    obtain ⟨ts, r, hcut, hs⟩ := Cut.exists_stuck hd (p.drop m)
    have hgrow := mem_dispatched_of_first hd hw hp0 hnone (.cons hv hcut) hs (.opened state) [q]
    have hnil : [] = (run srv (.opened state) [] [p, q]).dispatched := (Prod.mk.inj heq).1
    rw [← hnil] at hgrow
    simp [Token.frame] at hgrow
  | bad e =>
    -- read in two it is a protocol error
    have hstuck : Stuck (lex srv.decode) p := fun t m ht => by rw [hv] at ht; cases ht
    have htwo : outcome srv state [p, q] = ([], [.error ("ERR " ++ e.text)]) := by
      rw [outcome, run_first hd hp0 hnone (.nil p) hstuck]
      simp [settle, absorb, reject, hv, writeResponse, Session.opened, hw]
    rw [htwo] at heq
    exact overLimit_ne_protocol n _ e (List.cons.inj (Prod.mk.inj heq).2).1

/-- A later command that is refused where a read starts with it, and not behind another. -/
theorem outcome_ne_behind (hd : Lawful (lex srv.decode)) (hw : ∀ sent f, srv.writes sent f = true)
    {p t : Bytes} {n : ℕ} (hp : Whole (lex srv.decode) p) (hp0 : p ≠ [])
    (hn : oversizedBulk t srv.maxValueSize = some n)
    (hnone : oversizedBulk (p ++ t) srv.maxValueSize = none) :
    outcome srv state [p ++ t] ≠ outcome srv state [p, t] := by
  intro heq
  obtain ⟨ts, hts⟩ := hp
  have ht0 : t ≠ [] := by rintro rfl; cases hn
  have hnil : Stuck (lex srv.decode) [] := stuck_of_more (lex_nil _)
  obtain ⟨s1, habs⟩ := absorb_of_writes hw ts (.opened state)
  have hdisp := absorb_none_dispatched srv habs
  -- where a read starts with it, it is refused
  have htwo : run srv (.opened state) [] [p, t] = { s1 with replies := s1.replies ++ [overLimit n srv.maxValueSize] } := by
    rw [run_first hd hp0 (oversizedBulk_of_append hnone) hts hnil]
    simp [settle, habs, reject, run, ht0, hn, writeResponse, hw]
  obtain ⟨us, r, hus, hs⟩ := Cut.exists_stuck hd t
  have hcut := (hts.of_whole hd.toStable t).trans hus
  have hone := run_first hd (by simp [hp0]) hnone hcut hs (.opened state) []
  rw [settle_append, habs] at hone
  dsimp only at hone
  have hdispeq : (run srv (.opened state) [] [p ++ t]).dispatched = s1.dispatched := by
    have := (Prod.mk.inj heq).1
    rwa [htwo] at this
  have hrepeq : (run srv (.opened state) [] [p ++ t]).replies = s1.replies ++ [overLimit n srv.maxValueSize] := by
    have := (Prod.mk.inj heq).2
    rwa [htwo] at this
  cases hus with
  | nil =>
    cases hv : lex srv.decode t with
    | token u m => exact hs u m hv
    | more =>
      rw [hone] at hrepeq
      simp [settle, absorb, reject, hv, run] at hrepeq
    | bad e =>
      simp only [settle, absorb, reject, hv, writeResponse, hw, if_true] at hone
      rw [hone] at hrepeq
      simp only [append_cancel_left_eq, List.cons.injEq, and_true] at hrepeq
      exact overLimit_ne_protocol n _ e hrepeq.symm
  | @cons _ u m us _ hu hrest =>
    rw [lex_of_oversized hn] at hu
    obtain ⟨f, -, rfl⟩ := lexFrame_eq_token.1 hu
    have hgrow := mem_dispatched_of_first hd hw (by simp [hp0]) hnone hcut hs (.opened state) []
    rw [hdispeq, hdisp] at hgrow
    have hlen := hgrow.length_le
    simp [Token.frame] at hlen

end Disagree

/-- **On which streams the reads do not matter**: those on which the check passes at the start
of every command, and those whose first command it refuses before anything is answered. -/
theorem splits_agree_iff {decode : Decode} (hd : Lawful (verdict decode))
    (dispatch : σ → Frame → σ × Frame) (cap : ℕ) (state : σ) (stream : Bytes) :
    SplitsAgree decode dispatch cap state stream ↔
      NothingRefused decode cap stream ∨ RefusedAtOnce decode cap stream := by
  have hl := lex_lawful hd
  constructor
  · intro hagree
    by_cases hq : NothingRefused decode cap stream
    · exact .inl hq
    right
    unfold NothingRefused at hq
    push Not at hq
    obtain ⟨p, t, rfl, hp, ht⟩ := hq
    obtain ⟨n, hn⟩ := Option.ne_none_iff_exists'.1 ht
    cases hfirst : oversizedBulk (p ++ t) cap with
    | none =>
      -- then another command is in front of the one refused
      exfalso
      have hp0 : p ≠ [] := by
        rintro rfl
        rw [nil_append, hn] at hfirst
        cases hfirst
      have ht0 : t ≠ [] := by rintro rfl; cases hn
      exact outcome_ne_behind hl (fun _ _ => rfl) hp hp0 hn hfirst
        (hagree (fun _ _ => true) _ _ (isSplit_one (by simp [hp0])) (isSplit_two hp0 ht0))
    | some m =>
      refine ⟨by simp [hfirst], fun q hq hsettled hnone => ?_⟩
      obtain ⟨d, hd'⟩ := hq
      rw [← hd'] at hfirst hagree
      have hq0 : q ≠ [] := by rintro rfl; exact hsettled rfl
      have hd0 : d ≠ [] := by
        rintro rfl
        rw [append_nil, hnone] at hfirst
        cases hfirst
      exact outcome_ne_at_once hl (fun _ _ => rfl) hfirst hsettled hnone
        (hagree (fun _ _ => true) _ _ (isSplit_one (by simp [hq0])) (isSplit_two hq0 hd0))
  · rintro (hq | ⟨hfirst, hq⟩) writes reads reads' hreads hreads'
    · obtain ⟨ts, r, hcut, hs⟩ := Cut.exists_stuck hl stream
      simp only [outcome]
      rw [run_nothingRefused hl hq hcut hs hreads, run_nothingRefused hl hq hcut hs hreads']
    · obtain ⟨n, hn⟩ := Option.ne_none_iff_exists'.1 hfirst
      simp only [outcome]
      rw [run_refusedAtOnce hl hn hq _ hreads.flatten hreads.ne_nil rfl,
        run_refusedAtOnce hl hn hq _ hreads'.flatten hreads'.ne_nil rfl]

/-! ## A stream on which they do -/

/-- The bytes of an ASCII text. -/
def text (s : String) : Bytes := s.toList.map ascii

/-- `t` starts with an array that has a bulk argument of `n` bytes, by its header lines. -/
def Declares (t : Bytes) (n : ℕ) : Prop :=
  ∃ line count args parts lenLine rest, parseI64 line = some count ∧ (args.length : ℤ) < count ∧
    List.Forall₂ Resp2.Element args parts ∧ parseI64 lenLine = some (n : ℤ) ∧
    t = ascii '*' :: (line ++ Resp2.crlf ++ (parts.flatten ++ ascii '$' :: (lenLine ++ Resp2.crlf ++ rest)))

/-- No command of the stream, the last and possibly unfinished one included, has a bulk
argument longer than `cap`. -/
def NoBulkOver (decode : Decode) (cap : ℕ) (stream : Bytes) : Prop :=
  ∀ p t, stream = p ++ t → Whole (lex decode) p → ∀ n, Declares t n → n ≤ cap

theorem verdict_decodeResp2 (depth : ℕ) (b : Bytes) : verdict (decodeResp2 depth) b =
      match frame depth b with
      | .token f n => .token f n
      | .more => .more
      | .bad fault => .bad fault.text := by
  unfold verdict decodeResp2
  cases frame depth b with
  | token f n | more => rfl
  | bad fault => cases fault <;> rfl

theorem verdict_eq_token {depth n : ℕ} {b : Bytes} {f : Frame} :
    verdict (decodeResp2 depth) b = .token f n ↔ frame depth b = .token f n := by
  rw [verdict_decodeResp2]
  cases frame depth b <;> simp

/-- The decoder of `Resp2` is one of those the results are about. -/
theorem codec_decodeResp2 (depth : ℕ) : Codec (decodeResp2 depth) := by
  have hl := frame_lawful depth
  refine ⟨⟨⟨fun h => hl.le_length (verdict_eq_token.1 h),
    fun c h => verdict_eq_token.2 (hl.own c (verdict_eq_token.1 h)), fun {b e} c h => ?_⟩,
    fun h => hl.pos (verdict_eq_token.1 h)⟩, fun h => frame_wire (verdict_eq_token.1 h),
    fun h hf => frame_star (verdict_eq_token.1 h) hf⟩
  rw [verdict_decodeResp2] at h ⊢
  cases hv : frame depth b with
  | token f n | more => rw [hv] at h; cases h
  | bad fault =>
    rw [hv] at h
    rw [hl.bad_append c hv]
    exact h

/-- A number on its line is read as such. -/
theorem number_line {line : Bytes} {v : ℤ} (h : parseI64 line = some v) (rest : Bytes) :
    number (line ++ crlf ++ rest) = .token v (line.length + 2) := by
  have hfind : ∀ l : Bytes, (∀ b ∈ l, b ≠ 10 ∧ b ≠ 13) → find crlf (l ++ crlf ++ rest) = some l.length := by
    intro l hl
    induction l with
    | nil => rfl
    | cons x l ih =>
      have hno : ¬ crlf <+: x :: (l ++ crlf ++ rest) := by
        intro hpre
        have hx := (cons_prefix_cons.1 hpre).1
        exact (hl x mem_cons_self).2 hx.symm
      simp only [cons_append, find]
      rw [if_neg hno, ih fun b hb => hl b (mem_cons_of_mem _ hb)]
      rfl
  refine bind_eq_token.2 ⟨line, line.length + 2, 0, ?_, by rw [h]; rfl, rfl⟩
  unfold upTo
  rw [hfind line (parseI64_ne_newline h), append_assoc]
  dsimp only
  rw [take_left]
  rfl

/-- The length line of the first argument, if an array declares more than null ones. -/
theorem not_declares_of_number {first : Byte} {rest : Bytes} {n m : ℕ} {v : ℤ}
    (hcount : number rest = .token v m) (hv : v ≤ 1)
    (hlen : (number (rest.drop (m + 1))).len? = none) :
    ¬ Declares (first :: rest) n := by
  rintro ⟨line, count, args, parts, lenLine, tail, hline, hlt, hargs, hdecl, ht⟩
  obtain ⟨-, rfl⟩ := List.cons.inj ht
  have hnum := number_line hline (parts.flatten ++ ascii '$' :: (lenLine ++ crlf ++ tail))
  cases hnum.symm.trans hcount
  have hnil : args = [] := length_eq_zero_iff.1 (by omega)
  subst hnil
  cases hargs
  have hdrop : (line ++ crlf ++ ([].flatten ++ ascii '$' :: (lenLine ++ crlf ++ tail))).drop
      (line.length + 2 + 1) = lenLine ++ crlf ++ tail := by
    rw [← drop_drop, drop_left' (by simp [crlf])]
    rfl
  rw [hdrop, number_line hdecl tail] at hlen
  cases hlen

/-- An inline command, and behind it an array whose length line ends in a bare newline. -/
def ping : Bytes := text "PING\r\n"

def bareHeader : Bytes := text "*1\r\n$99\nfoo\r\n"

def pong : Frame := .simpleString (text "PONG")

/-- A server that answers every command with `PONG`. -/
def pongServer : Server Unit := ⟨decodeResp2 4, fun _ _ => ((), pong), fun _ _ => true, 50⟩

/-- The text of an error reply. -/
def errorText : Frame → Option String
  | .error text => some text
  | _ => none

/-- **Behind another command the array is a protocol error; at the start of a read it is an
over-long argument.** No bulk argument of the stream is over the cap of 50 bytes. -/
theorem bare_newline_split :
    NoBulkOver (decodeResp2 4) 50 (ping ++ bareHeader) ∧
      (outcome pongServer () [ping ++ bareHeader]).2.map errorText =
        [none, some "ERR Protocol error: invalid number"] ∧
      (outcome pongServer () [ping, bareHeader]).2.map errorText =
        [none, some "ERR value of 99 bytes is over the 50 byte limit (resp.max_value_size)"] ∧
      ¬ SplitsAgree (decodeResp2 4) pongServer.dispatch 50 () (ping ++ bareHeader) := by
  have hone : (outcome pongServer () [ping ++ bareHeader]).2.map errorText =
      [none, some "ERR Protocol error: invalid number"] := by decide +kernel
  have htwo : (outcome pongServer () [ping, bareHeader]).2.map errorText =
      [none, some "ERR value of 99 bytes is over the 50 byte limit (resp.max_value_size)"] := by
    decide +kernel
  refine ⟨?_, hone, htwo, fun hagree => ?_⟩
  · have hl := (lex_lawful (codec_decodeResp2 4).lawful).toStable
    have hfirst : (lex (decodeResp2 4) (ping ++ bareHeader)).len? = some 6 := by decide +kernel
    have hrest : (ping ++ bareHeader).drop 6 = bareHeader := by decide +kernel
    have hstuck : (lex (decodeResp2 4) bareHeader).len? = none := by decide +kernel
    refine starts_of_token hl hfirst ?_ ?_
    · rintro n ⟨line, count, args, parts, lenLine, rest, -, -, -, -, h⟩
      have hmarker := (List.cons.inj h).1
      exact absurd hmarker (by decide)
    · rw [hrest]
      refine starts_of_stuck hl hstuck fun n hdecl => ?_
      have hcount : Resp2.number (text "1\r\n$99\nfoo\r\n") = .token 1 3 := by decide +kernel
      exact absurd hdecl (not_declares_of_number hcount (by decide) (by decide +kernel))
  · have heq := hagree (fun _ _ => true) _ _ (isSplit_one (by decide +kernel))
      (isSplit_two (p := ping) (q := bareHeader) (by decide +kernel) (by decide +kernel))
    have hmap := congrArg (fun o => o.2.map errorText) heq
    exact absurd (hone.symm.trans (hmap.trans htwo)) (by decide +kernel)

/-- A blank line, an inline command, a frame and an unfinished one. -/
def mixed : Bytes := text "\r\nPING\r\n*2\r\n$4\r\nECHO\r\n$3\r\nabc\r\n*1\r\n$3\r\nGE"

theorem splits_agree_mixed :
    SplitsAgree (decodeResp2 4) pongServer.dispatch 50 () mixed := by
  refine (splits_agree_iff (codec_decodeResp2 4).lawful pongServer.dispatch 50 () mixed).2 (.inl ?_)
  have hl := (lex_lawful (codec_decodeResp2 4).lawful).toStable
  refine starts_of_token hl (n := 2) (by decide +kernel) (by decide +kernel) ?_
  refine starts_of_token hl (n := 6) (by decide +kernel) (by decide +kernel) ?_
  refine starts_of_token hl (n := 23) (by decide +kernel) (by decide +kernel) ?_
  exact starts_of_stuck hl (by decide +kernel) (by decide +kernel)

end QssStorage.Resp
