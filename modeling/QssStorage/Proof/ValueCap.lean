import QssStorage.Proof.ReadSplits

/-!
# The cap on values and the commands behind others

`oversized_bulk` refuses a command whose declared argument is over the cap, before the
argument is read. It is asked once per read, about the first command of the buffer. So a
command is caught if some read ends at its first byte or inside it: then the buffer starts
with it at the next read. A command that arrives whole behind other bytes is dispatched
whatever the length of its arguments.

* `dispatched_in_order`: **whatever the reads, a session runs a beginning of the stream's commands.**
* `only_short_iff`: **which reads let no over-long command through.**
-/

namespace QssStorage.Resp

open Resp2 List
open Lexer
open List (append_assoc flatten_cons length_cons cons_append length_append take_append_drop nil_append)

/-! ## What the check says about a whole array -/

/-- The length lines the decoder reads are those the check reads. -/
theorem readLenLine_line {line : Bytes} {v : ℤ} (h : parseI64 line = some v) (rest : Bytes) :
    readLenLine (line ++ crlf ++ rest) = some (v, rest) := by
  have hno := parseI64_ne_newline h
  have hnl : newline (line ++ crlf ++ rest) = some (line.length + 1) := by
    have hline : List.findIdx? (· = ascii '\n') line = none := by
      rw [findIdx?_eq_none_iff]
      intro b hb
      have hne : b ≠ ascii '\n' := (hno b hb).1
      simpa using hne
    unfold newline
    rw [append_assoc, findIdx?_append, hline]
    simp [crlf, findIdx?_cons, ascii, Nat.add_comm]
  have htake : (line ++ crlf ++ rest).take (line.length + 1) = line ++ [ascii '\r'] := by
    rw [append_assoc, take_length_add_append]
    rfl
  have hdrop : (line ++ crlf ++ rest).drop (line.length + 1 + 1) = rest :=
    drop_left' (by simp [crlf])
  have hstrip : stripCr (line ++ [ascii '\r']) = line := by simp [stripCr]
  unfold readLenLine
  rw [hnl]
  dsimp only
  rw [htake, hdrop, hstrip, h]

/-- The walk over the arguments depends on the arguments alone. -/
theorem oversizedArgs_wire (cap : ℕ) {items : List Frame} {parts : List Bytes}
    (h : List.Forall₂ Element items parts) :
    ∃ res, (∀ rest, oversizedArgs cap items.length (parts.flatten ++ rest) = res) ∧
      ∀ m, res = some m → ∃ data, .bulkString data ∈ items ∧ cap < data.length := by
  induction h with
  | nil => exact ⟨none, fun _ => rfl, nofun⟩
  | @cons f part items parts hf _ ih =>
    obtain ⟨res, hres, hsound⟩ := ih
    have hlater : ∀ m, res = some m → ∃ data, .bulkString data ∈ f :: items ∧ cap < data.length := by
      intro m hm
      obtain ⟨data, hmem, hlen⟩ := hsound m hm
      exact ⟨data, mem_cons_of_mem _ hmem, hlen⟩
    cases hf with
    | @bulk data line x y hline =>
      have hnext : ∀ rest, oversizedArgs cap (items.length + 1)
          (ascii '$' :: (line ++ crlf ++ (data ++ [x, y]) ++ (parts.flatten ++ rest))) =
            if cap < data.length then some data.length else oversizedArgs cap items.length (parts.flatten ++ rest) := by
        intro rest
        rw [oversizedArgs, if_neg (by simp), append_assoc, readLenLine_line hline]
        dsimp only
        rw [if_neg (by omega), Int.toNat_natCast, if_neg (c := _ > List.length _) (by simp), drop_left' (by simp)]
      by_cases hcap : cap < data.length
      · refine ⟨some data.length, fun rest => ?_, fun m _ => ⟨data, mem_cons_self, hcap⟩⟩
        rw [flatten_cons, append_assoc, length_cons]
        exact (hnext rest).trans (if_pos hcap)
      · refine ⟨res, fun rest => ?_, hlater⟩
        rw [flatten_cons, append_assoc, length_cons, ← hres rest]
        exact (hnext rest).trans (if_neg hcap)
    | @null line v hline hv =>
      refine ⟨res, fun rest => ?_, hlater⟩
      simp only [flatten_cons, cons_append, length_cons, oversizedArgs]
      rw [if_neg (by simp), append_assoc _ parts.flatten, readLenLine_line hline]
      dsimp only
      rw [if_pos hv]
      exact hres rest
    | @other _ b tail _ hb =>
      refine ⟨none, fun rest => ?_, nofun⟩
      simp only [flatten_cons, cons_append, length_cons, oversizedArgs]
      rw [if_pos hb]

/-- **What the check says about a whole array depends on the array alone**, and it refuses
one only for an argument over the cap. -/
theorem oversizedBulk_wire (cap : ℕ) {items : List Frame} {bytes : Bytes}
    (h : ArrayWire items bytes) :
    ∃ res, (∀ rest, oversizedBulk (bytes ++ rest) cap = res) ∧
      ∀ m, res = some m → ∃ data, .bulkString data ∈ items ∧ cap < data.length := by
  obtain ⟨line, parts, hline, hparts, rfl⟩ := h
  obtain ⟨res, hres, hsound⟩ := oversizedArgs_wire cap hparts
  refine ⟨res, fun rest => ?_, hsound⟩
  simp only [cons_append, oversizedBulk]
  rw [if_neg (by simp), append_assoc _ parts.flatten, readLenLine_line hline]
  exact hres rest

/-! ## What the check says about the first bytes of a command -/

/-- A bulk argument: its data, behind a line that declares their length. -/
structure BulkArg where
  line : Bytes
  data : Bytes
  declares : parseI64 line = some (data.length : ℤ)

def BulkArg.header (a : BulkArg) : Bytes := ascii '$' :: (a.line ++ Resp2.crlf)

def BulkArg.bytes (a : BulkArg) : Bytes := a.header ++ (a.data ++ Resp2.crlf)

/-- A command: an array of bulk arguments, behind a line that counts them. -/
structure BulkCommand where
  line : Bytes
  args : List BulkArg
  counts : parseI64 line = some (args.length : ℤ)

def BulkCommand.header (c : BulkCommand) : Bytes := ascii '*' :: (c.line ++ Resp2.crlf)

def BulkCommand.bytes (c : BulkCommand) : Bytes := c.header ++ c.args.flatMap BulkArg.bytes

/-- The arguments whose length line is among the first `k` bytes. -/
def declaredBy : ℕ → List BulkArg → List BulkArg
  | _, [] => []
  | k, a :: args => if a.header.length ≤ k then a :: declaredBy (k - a.bytes.length) args else []

/-- A length line that has not arrived yet is not read. -/
theorem readLenLine_take {line : Bytes} {v : ℤ} (h : parseI64 line = some v) (rest : Bytes) (k : ℕ) :
    readLenLine ((line ++ crlf ++ rest).take k) =
      if line.length + 2 ≤ k then some (v, rest.take (k - (line.length + 2))) else none := by
  have hlen : (line ++ crlf).length = line.length + 2 := by simp [crlf]
  split
  · rename_i hk
    rw [take_append, hlen, take_of_length_le (by omega)]
    exact readLenLine_line h _
  rename_i hk
  have hcut : (line ++ crlf ++ rest).take k <+: line ++ [ascii '\r'] := by
    refine prefix_of_prefix_length_le (List.take_prefix _ _) ⟨ascii '\n' :: rest, ?_⟩ ?_
    · rw [append_assoc, append_assoc]
      rfl
    · simp only [length_take, length_append, length_singleton]
      omega
  have hnone : newline ((line ++ crlf ++ rest).take k) = none := by
    refine findIdx?_eq_none_iff.2 fun b hb => decide_eq_false ?_
    rcases mem_append.1 (hcut.subset hb) with hb | hb
    · exact (parseI64_ne_newline h b hb).1
    · rw [mem_singleton.1 hb]
      decide
  unfold readLenLine
  rw [hnone]

theorem oversizedArgs_nil (cap count : ℕ) : oversizedArgs cap count [] = none := by cases count <;> rfl

/-- **The walk over the arguments stops at the first declared over the cap**, by induction on them. -/
theorem oversizedArgs_take (cap : ℕ) : ∀ (args : List BulkArg) (k : ℕ),
    oversizedArgs cap args.length ((args.flatMap BulkArg.bytes).take k) =
      ((declaredBy k args).find? fun a => cap < a.data.length).map fun a => a.data.length := by
  intro args
  induction args with
  | nil => exact fun _ => rfl
  | cons a args ih =>
    intro k
    have hhead : a.header.length = a.line.length + 2 + 1 := by simp [BulkArg.header, crlf]
    have hall : a.bytes.length = a.line.length + 2 + 1 + (a.data.length + 2) := by
      simp [BulkArg.bytes, hhead, crlf]
    rw [declaredBy, hhead, hall]
    cases k with
    | zero => rfl
    | succ k =>
      have hbytes : (a :: args).flatMap BulkArg.bytes =
          ascii '$' :: (a.line ++ crlf ++ (a.data ++ crlf ++ args.flatMap BulkArg.bytes)) := by
        simp [BulkArg.bytes, BulkArg.header]
      rw [hbytes, take_succ_cons, length_cons, oversizedArgs, if_neg (by simp), readLenLine_take a.declares]
      by_cases hk : a.line.length + 2 ≤ k
      · rw [if_pos hk, if_pos (by omega)]
        dsimp only
        rw [if_neg (by omega), Int.toNat_natCast]
        by_cases hcap : cap < a.data.length
        · rw [if_pos hcap, find?_cons_of_pos (by simpa using hcap)]
          rfl
        rw [if_neg hcap, find?_cons_of_neg (by simpa using hcap)]
        have hskip : ((a.data ++ crlf ++ args.flatMap BulkArg.bytes).take (k - (a.line.length + 2))).drop
            (a.data.length + 2) = (args.flatMap BulkArg.bytes).take (k + 1 - (a.line.length + 2 + 1 + (a.data.length + 2))) := by
          rw [drop_take, drop_left' (by simp [crlf])]
          congr 1
          omega
        rw [← ih, ← hskip]
        split
        · rename_i hshort
          rw [drop_eq_nil_of_le (by omega), oversizedArgs_nil]
        · rfl
      · rw [if_neg hk, if_neg (by omega)]
        rfl

/-- **On the first bytes of a command the check reports the first argument declared over the cap**, as soon as its length line
has arrived, whatever the payloads hold; and what it reports it reports again on more bytes. -/
theorem oversizedBulk_take (c : BulkCommand) (cap : ℕ) :
    (∀ k, oversizedBulk (c.bytes.take k) cap =
      ((declaredBy (k - c.header.length) c.args).find? fun a => cap < a.data.length).map fun a => a.data.length) ∧
    ∀ k k' m, k ≤ k' → oversizedBulk (c.bytes.take k) cap = some m → oversizedBulk (c.bytes.take k') cap = some m := by
  refine ⟨fun k => ?_, fun k k' m hk h => ?_⟩
  · have hhead : c.header.length = c.line.length + 2 + 1 := by simp [BulkCommand.header, Resp2.crlf]
    have hbytes : c.bytes = ascii '*' :: (c.line ++ Resp2.crlf ++ c.args.flatMap BulkArg.bytes) := rfl
    rw [hhead, hbytes]
    cases k with
    | zero =>
      rw [Nat.zero_sub, ← oversizedArgs_take]
      exact (oversizedArgs_nil cap _).symm
    | succ k =>
      rw [take_succ_cons, oversizedBulk, if_neg (by simp), readLenLine_take c.counts, Nat.add_sub_add_right, ← oversizedArgs_take]
      by_cases hk : c.line.length + 2 ≤ k
      · rw [if_pos hk]
        rfl
      · rw [if_neg hk, Nat.sub_eq_zero_of_le (by omega), take_zero, oversizedArgs_nil]
  · obtain ⟨d, rfl⟩ := Nat.exists_eq_add_of_le hk
    rw [take_add]
    exact oversizedBulk_append _ h

/-- `SET k abcde`, whose third length line ends with the byte 24. -/
def setCommand : BulkCommand :=
  ⟨text "3", [⟨text "3", text "SET", by decide +kernel⟩, ⟨text "1", text "k", by decide +kernel⟩,
    ⟨text "5", text "abcde", by decide +kernel⟩], by decide +kernel⟩

example : oversizedBulk (setCommand.bytes.take 23) 4 = none ∧
    oversizedBulk (setCommand.bytes.take 24) 4 = some 5 := by decide +kernel

/-! ## Over-long commands -/

/-- The frame is a command with a bulk argument longer than `cap`. -/
def Carries (cap : ℕ) (f : Frame) : Prop :=
  ∃ items data, f = .array items ∧ .bulkString data ∈ items ∧ cap < data.length

/-- Only a RESP array can carry a bulk argument; an inline command has a bound of its own. -/
def Token.Over (cap : ℕ) : Token → Prop
  | .resp f => Carries cap f
  | _ => False

section Check

variable {decode : Decode} {cap : ℕ}

/-- The check passes a token that is not over the cap. -/
theorem oversizedBulk_of_short (hc : Codec decode) {b : Bytes} {t : Token} {n : ℕ}
    (hb : lex decode b = .token t n) (ht : ¬ t.Over cap) : oversizedBulk b cap = none := by
  cases ho : oversizedBulk b cap with
  | none => rfl
  | some m =>
    exfalso
    rw [lex_of_oversized ho] at hb
    obtain ⟨f, hf, rfl⟩ := lexFrame_eq_token.1 hb
    have hsplit : b = b.take n ++ b.drop n := (take_append_drop n b).symm
    by_cases harr : ∃ items, f = .array items
    · obtain ⟨items, rfl⟩ := harr
      obtain ⟨res, hres, hsound⟩ := oversizedBulk_wire cap (hc.wire hf)
      have hm := hres (b.drop n)
      rw [← hsplit, ho] at hm
      obtain ⟨data, hmem, hlen⟩ := hsound m hm.symm
      exact ht ⟨items, data, rfl, hmem, hlen⟩
    -- a null array has no arguments
    cases b with
    | nil => cases ho
    | cons first rest =>
      have hstar : first = ascii '*' := by
        simp only [oversizedBulk] at ho
        split_ifs at ho with hm
        exact not_not.1 hm
      subst hstar
      obtain ⟨line, v, hline, hv, hbytes⟩ := hc.star hf fun items h => harr ⟨items, h⟩
      rw [hsplit, hbytes] at ho
      have hzero : v.toNat = 0 := by omega
      simp only [cons_append, oversizedBulk] at ho
      rw [if_neg (by simp), readLenLine_line hline] at ho
      dsimp only at ho
      rw [hzero] at ho
      cases ho

/-- What the check says about an over-long command it says as soon as the command is there. -/
theorem oversizedBulk_of_whole (hc : Codec decode) {b c : Bytes} {f : Frame} {n : ℕ}
    (hb : lex decode b = .token (.resp f) n) (hf : Carries cap f) (hpre : b.take n <+: c) :
    oversizedBulk c cap = oversizedBulk b cap := by
  obtain ⟨items, data, rfl, -, -⟩ := hf
  have hv : verdict decode b = .token (.array items) n := by
    cases b with
    | nil => cases hb
    | cons first rest =>
      by_cases hm : first ∉ frameMarkers
      · rw [lex, if_pos hm] at hb
        obtain ⟨i, args, -, -, -, ht, -⟩ := lexInline_eq_token.1 hb
        cases args <;> cases ht
      · rw [lex, if_neg hm] at hb
        obtain ⟨f, hf, ht⟩ := lexFrame_eq_token.1 hb
        cases ht
        exact hf
  obtain ⟨res, hres, -⟩ := oversizedBulk_wire cap (hc.wire hv)
  obtain ⟨d, rfl⟩ := hpre
  have hown := hres (b.drop n)
  rw [take_append_drop] at hown
  rw [hres d, hown]

end Check

/-! ## What a run dispatches -/

section Run

variable {σ : Type} {srv : Server σ}

variable (srv) in
/-- **A session dispatches the commands of the stream in order**, up to some point. -/
theorem run_dispatched_prefix (hd : Lawful (lex srv.decode)) :
    ∀ {reads : List Bytes} {buffer r : Bytes} {ts : List Token} (s : Session σ),
      lex srv.decode buffer = .more → Cut (lex srv.decode) (buffer ++ reads.flatten) ts r →
      Stuck (lex srv.decode) r → ∃ us, us <+: ts ∧
        (run srv s buffer reads).dispatched = s.dispatched ++ us.filterMap Token.frame := by
  intro reads
  induction reads with
  | nil => intro buffer r ts s _ _ _; exact ⟨[], List.nil_prefix, by simp [run]⟩
  | cons c cs ih =>
    intro buffer r ts s hmore hcut hs
    rw [run]
    split
    · exact ⟨[], List.nil_prefix, by simp⟩
    dsimp only
    cases hv : oversizedBulk (buffer ++ c) srv.maxValueSize with
    | some m => exact ⟨[], List.nil_prefix, by simp [writeResponse_dispatched]⟩
    | none =>
      obtain ⟨ts1, r1, hcut1, hs1⟩ := Cut.exists_stuck hd (buffer ++ c)
      obtain ⟨p, hp, -⟩ := hcut1.split hd.toStable
      have hkept : (buffer ++ c).drop ((buffer ++ c).length - r1.length) = r1 := by
        rw [hp, length_append, Nat.add_sub_cancel, drop_left]
      rw [flatten_cons, ← append_assoc] at hcut
      obtain ⟨us, rfl, hus⟩ := hcut.extends_of_stuck hs (hcut1.append hd.toStable cs.flatten)
      have hset := settle_dispatched srv s ts1 r1
      obtain ⟨vs, hvs, hdisp⟩ := absorb_dispatched srv ts1 s
      rw [serve_eq hd hcut1 hs1 s]
      rcases hr : settle srv s ts1 r1 with ⟨s', _ | ended⟩
      · obtain ⟨habs, hmore1⟩ := settle_eq_none hr hs1
        obtain ⟨ws, hws, hdisp'⟩ := ih s' hmore1 hus hs
        have hall : s'.dispatched = s.dispatched ++ ts1.filterMap Token.frame :=
          absorb_none_dispatched srv habs
        refine ⟨ts1 ++ ws, prefix_append_right_inj _ |>.2 hws, ?_⟩
        dsimp only [told]
        rw [hkept, hdisp', hall, filterMap_append, append_assoc]
      · rw [hr, hdisp] at hset
        exact ⟨vs, hvs.trans (prefix_append _ _), hset⟩

/-- **The bytes of a connection decide what it runs**: however they are split into reads, whatever
the cap and whichever replies can be written, what is dispatched is a beginning of the commands
of the stream. -/
theorem dispatched_in_order {decode : Decode} (hd : Lawful (lex decode)) (bytes : Bytes) :
    ∃ ts r, Cut (lex decode) bytes ts r ∧ Stuck (lex decode) r ∧
      ∀ {σ : Type} (dispatch : σ → Frame → σ × Frame) writes cap state reads, reads.flatten = bytes →
        (run ⟨decode, dispatch, writes, cap⟩ (.opened state) [] reads).dispatched <+:
          ts.filterMap Token.frame := by
  obtain ⟨ts, r, hcut, hs⟩ := Cut.exists_stuck hd bytes
  refine ⟨ts, r, hcut, hs, fun dispatch writes cap state reads hreads => ?_⟩
  subst hreads
  obtain ⟨us, hus, hdisp⟩ :=
    run_dispatched_prefix ⟨decode, dispatch, writes, cap⟩ hd (.opened state) (lex_nil _) hcut hs
  rw [hdisp]
  exact hus.filterMap _

/-- Two commands that come in three reads, none of which ends where a command does. -/
theorem dispatched_in_order_mixed :
    (run pongServer (.opened ()) [] [mixed.take 3, (mixed.drop 3).take 9, mixed.drop 12]).dispatched.length = 2 ∧
      ∃ ts r, Cut (lex (decodeResp2 4)) mixed ts r ∧ Stuck (lex (decodeResp2 4)) r ∧
        (run pongServer (.opened ()) [] [mixed.take 3, (mixed.drop 3).take 9, mixed.drop 12]).dispatched <+:
          ts.filterMap Token.frame := by
  refine ⟨by decide +kernel, ?_⟩
  obtain ⟨ts, r, hcut, hs, hdispatched⟩ := dispatched_in_order (lex_lawful (codec_decodeResp2 4).lawful) mixed
  exact ⟨ts, r, hcut, hs, hdispatched pongServer.dispatch pongServer.writes 50 () _ (by decide +kernel)⟩

/-- A strict part of a command that the check refuses is never more than buffered. -/
theorem run_withheld (hc : Codec srv.decode) {t : Bytes} {f : Frame} {n : ℕ}
    (ht : lex srv.decode t = .token (.resp f) n) (hf : Carries srv.maxValueSize f)
    (hover : oversizedBulk t srv.maxValueSize ≠ none) :
    ∀ {reads : List Bytes} {buffer : Bytes} (s : Session σ), buffer ++ reads.flatten = t →
      buffer.length < n → (run srv s buffer reads).dispatched = s.dispatched := by
  have hd := lex_lawful hc.lawful
  intro reads
  induction reads with
  | nil => intros; rfl
  | cons c cs ih =>
    intro buffer s hst hlt
    rw [run]
    split
    · rfl
    dsimp only
    have hst' : (buffer ++ c) ++ cs.flatten = t := by rw [← hst]; simp
    cases hv : oversizedBulk (buffer ++ c) srv.maxValueSize with
    | some m => exact writeResponse_dispatched srv s _
    | none =>
      have hshort : (buffer ++ c).length < n := by
        -- a whole command would have been refused
        by_contra hge
        have hpre : t.take n <+: buffer ++ c := by
          rw [← hst', take_append_of_le_length (by omega)]
          exact List.take_prefix _ _
        rw [oversizedBulk_of_whole hc ht hf hpre] at hv
        exact hover hv
      have hmore : lex srv.decode (buffer ++ c) = .more := by
        rw [← hst'] at ht
        exact hd.more_of_strict ht hshort
      rw [serve_eq hd (.nil _) (stuck_of_more hmore) s]
      simp only [settle, absorb, reject, hmore, told, Nat.sub_self, drop_zero]
      exact ih s hst' hshort

/-- The check passes at the start of every token before the first over-long one. -/
theorem oversizedBulk_before (hc : Codec srv.decode) {p t p' t' : Bytes} {ts : List Token}
    (hp : Cut (lex srv.decode) p ts []) (hshort : ∀ u ∈ ts, ¬ u.Over srv.maxValueSize)
    (hp' : Whole (lex srv.decode) p') (heq : p ++ t = p' ++ t') (hlt : p'.length < p.length) :
    oversizedBulk t' srv.maxValueSize = none := by
  have hd := lex_lawful hc.lawful
  obtain ⟨ts', hts'⟩ := hp'
  have hcut := hp.of_whole hd.toStable t
  have hcut' := hts'.of_whole hd.toStable t'
  have hlen := congrArg List.length heq
  simp only [length_append] at hlen
  rw [← heq] at hcut'
  rcases hcut.compare hcut' with ⟨us, -, hus⟩ | ⟨us, rfl, hus⟩
  · have := hus.length_le hd.toStable
    omega
  · cases hus with
    | nil => omega
    | cons hu _ => exact oversizedBulk_of_short hc hu (hshort _ (by simp))

end Run

/-! ## Which reads let nothing over-long through -/

variable {σ : Type}

/-- Whatever the client takes of the replies, the frames dispatched are those of tokens of the
stream that are not over the cap. -/
def OnlyShort (decode : Decode) (dispatch : σ → Frame → σ × Frame) (cap : ℕ) (state : σ)
    (reads : List Bytes) : Prop :=
  ∀ writes, ∃ ts r, Cut (lex decode) reads.flatten ts r ∧
    (run ⟨decode, dispatch, writes, cap⟩ (.opened state) [] reads).dispatched = ts.filterMap Token.frame ∧
    ∀ t ∈ ts, ¬ t.Over cap

/-- The first over-long command of the stream is one the check refuses, and it is the first
of the buffer at some read: the stream starts with it, or a read ends at its first byte or
inside it. -/
def MetAtStart (decode : Decode) (cap : ℕ) (reads : List Bytes) : Prop :=
  ∀ p t ts f n, reads.flatten = p ++ t → Cut (lex decode) p ts [] → (∀ u ∈ ts, ¬ u.Over cap) →
    lex decode t = .token (.resp f) n → Carries cap f →
    oversizedBulk t cap ≠ none ∧ ∃ k, p.length ≤ (reads.take k).flatten.length ∧ (reads.take k).flatten.length < p.length + n

section Reads

variable {srv : Server σ} {reads : List Bytes} {p t : Bytes} {ts : List Token} {f : Frame} {n : ℕ}

theorem dropLast_take (reads : List Bytes) (k : ℕ) : (reads.take k).dropLast = reads.take (min k reads.length - 1) := by
  rw [dropLast_eq_take, length_take, take_take]
  congr 1
  omega

/-- The reads up to the first that reaches past the first `m` bytes. -/
theorem exists_first_read (reads : List Bytes) {m : ℕ} (h : m ≤ reads.flatten.length) :
    ∃ k, m ≤ (reads.take k).flatten.length ∧ (reads.take k = [] ∨ (reads.take k).dropLast.flatten.length < m) ∧
      ∀ j, m ≤ (reads.take j).flatten.length → (reads.take k).flatten.length ≤ (reads.take j).flatten.length := by
  have hex : ∃ k, m ≤ (reads.take k).flatten.length := ⟨reads.length, by simpa using h⟩
  classical
  refine ⟨Nat.find hex, Nat.find_spec hex, ?_, fun j hj => ?_⟩
  · rcases Nat.eq_zero_or_pos (Nat.find hex) with hz | hpos
    · left
      rw [hz]
      rfl
    by_cases hle : Nat.find hex ≤ reads.length
    · right
      have hmin := Nat.find_min hex (m := Nat.find hex - 1) (by omega)
      rw [dropLast_take, Nat.min_eq_left hle]
      omega
    · -- then the reads before the last reach as far
      exfalso
      have hmin := Nat.find_min hex (m := reads.length) (by omega)
      exact hmin (by simpa using h)
  · have hle := Nat.find_min' hex hj
    obtain ⟨d, hd⟩ := Nat.exists_eq_add_of_le hle
    rw [hd, take_add, flatten_append, length_append]
    omega

/-- A read ends inside the command: the reads up to it are everything before the command and a
strict part of it. -/
theorem split_reads {k : ℕ} (hpt : reads.flatten = p ++ t)
    (hk : p.length ≤ (reads.take k).flatten.length) :
    ∃ q, (reads.take k).flatten = p ++ q ∧ q ++ (reads.drop k).flatten = t := by
  have hall : (reads.take k).flatten ++ (reads.drop k).flatten = p ++ t := by
    rw [← flatten_append, take_append_drop, hpt]
  rcases append_eq_append_iff.1 hall with ⟨q, hp, hrest⟩ | ⟨q, hq, ht⟩
  · have hlen := congrArg List.length hp
    rw [length_append] at hlen
    have hnil : q = [] := length_eq_zero_iff.1 (by omega)
    subst hnil
    exact ⟨[], by simpa using hp.symm, by simpa using hrest⟩
  · exact ⟨q, hq, ht.symm⟩

variable (srv) in
/-- **A command met at the start of a buffer is not dispatched**, nor anything behind it. -/
theorem dispatched_le_of_met (hc : Codec srv.decode) (hne : ∀ c ∈ reads, c ≠ [])
    (hpt : reads.flatten = p ++ t) (hp : Cut (lex srv.decode) p ts [])
    (hshort : ∀ u ∈ ts, ¬ u.Over srv.maxValueSize) (ht : lex srv.decode t = .token (.resp f) n)
    (hf : Carries srv.maxValueSize f) (hover : oversizedBulk t srv.maxValueSize ≠ none) {k : ℕ}
    (hk : p.length ≤ (reads.take k).flatten.length)
    (hk' : (reads.take k).flatten.length < p.length + n) (s : Session σ) :
    (run srv s [] reads).dispatched.length ≤ s.dispatched.length + (ts.filterMap Token.frame).length := by
  have hd := lex_lawful hc.lawful
  obtain ⟨j, hj, hbefore, hmin⟩ := exists_first_read reads (m := p.length) (by rw [hpt]; simp)
  have hjk := hmin k hk
  obtain ⟨q, hq, hrest⟩ := split_reads hpt hj
  have hqlen : q.length < n := by
    have hlen := congrArg List.length hq
    rw [length_append] at hlen
    omega
  have hmore : lex srv.decode q = .more := by
    rw [← hrest] at ht
    exact hd.more_of_strict ht hqlen
  -- up to that read the check only looks at shorter commands
  have hpass : Passes srv [] (reads.take j) := by
    rcases hbefore with hnil | hlast
    · rw [hnil]; trivial
    refine passes_of_starts hd fun p' t' hp't' hp' hlen => ?_
    rw [nil_append] at hp't' hlen
    refine oversizedBulk_of_append (c := (reads.drop j).flatten) ?_
    refine oversizedBulk_before hc hp hshort hp' (t := t) ?_ (by omega)
    rw [← hpt, ← append_assoc, ← hp't', ← flatten_append, take_append_drop]
  have hcut : Cut (lex srv.decode) ([] ++ (reads.take j).flatten) ts q := by
    rw [nil_append, hq]
    exact hp.of_whole hd.toStable q
  have hrun := run_passed hd (lex_nil _) (fun c hc => hne c (mem_of_mem_take hc)) hpass hcut
    (stuck_of_more hmore) (s := s) (reads.drop j)
  rw [take_append_drop] at hrun
  obtain ⟨us, hus, hdisp⟩ := absorb_dispatched srv ts s
  have hle : (settle srv s ts q).1.dispatched.length ≤ s.dispatched.length + (ts.filterMap Token.frame).length := by
    rw [settle_dispatched, hdisp, length_append]
    have := (hus.filterMap Token.frame).length_le
    omega
  rw [hrun]
  rcases hr : settle srv s ts q with ⟨s', _ | ended⟩
  · rw [hr] at hle
    dsimp only at hle ⊢
    rw [run_withheld hc ht hf hover s' hrest hqlen]
    exact hle
  · rw [hr] at hle
    exact hle

variable (srv) in
/-- **A command that no buffer starts with is dispatched**, and so is one that the check does
not refuse. -/
theorem lt_dispatched_of_missed (hc : Codec srv.decode) (hw : ∀ sent f, srv.writes sent f = true)
    (hne : ∀ c ∈ reads, c ≠ [])
    (hpt : reads.flatten = p ++ t) (hp : Cut (lex srv.decode) p ts [])
    (hshort : ∀ u ∈ ts, ¬ u.Over srv.maxValueSize) (ht : lex srv.decode t = .token (.resp f) n)
    (hmiss : oversizedBulk t srv.maxValueSize = none ∨ ∀ k, p.length ≤ (reads.take k).flatten.length →
        p.length + n ≤ (reads.take k).flatten.length) (s : Session σ) :
    s.dispatched.length + (ts.filterMap Token.frame).length < (run srv s [] reads).dispatched.length := by
  have hd := lex_lawful hc.lawful
  have hn := hd.pos ht
  have hle := hd.le_length ht
  obtain ⟨j, hj, hbefore, -⟩ := exists_first_read reads (m := p.length + n)
    (by rw [hpt, length_append]; omega)
  obtain ⟨q, hq, hrest⟩ := split_reads hpt (by omega : p.length ≤ (reads.take j).flatten.length)
  have hlen := congrArg List.length hq
  rw [length_append] at hlen
  have hqt : lex srv.decode q = .token (.resp f) n := by
    have hown := hd.own (q.drop n) ht
    rwa [← hrest, take_append_of_le_length (by omega), take_append_drop] at hown
  have hpass : Passes srv [] (reads.take j) := by
    rcases hbefore with hnil | hlast
    · rw [hnil]; trivial
    refine passes_of_starts hd fun p' t' hp't' hp' hlen' => ?_
    rw [nil_append] at hp't' hlen'
    refine oversizedBulk_of_append (c := (reads.drop j).flatten) ?_
    have hall : p ++ t = p' ++ (t' ++ (reads.drop j).flatten) := by
      rw [← hpt, ← append_assoc, ← hp't', ← flatten_append, take_append_drop]
    rcases Nat.lt_or_ge p'.length p.length with hlt | hge
    · exact oversizedBulk_before hc hp hshort hp' hall hlt
    -- the check looks at the command itself
    rcases hmiss with hnone | hmiss
    · have hsame : t' ++ (reads.drop j).flatten = t := by
        obtain ⟨ts', hts'⟩ := hp'
        have hcut' := hts'.of_whole hd.toStable (t' ++ (reads.drop j).flatten)
        rw [← hall] at hcut'
        have hl := congrArg List.length hall
        simp only [length_append] at hl
        rcases (hp.of_whole hd.toStable t).compare hcut' with ⟨us, -, hus⟩ | ⟨us, -, hus⟩
        · cases hus with
          | nil => rfl
          | cons hu hrest' =>
            cases ht.symm.trans hu
            have := hrest'.length_le hd.toStable
            simp only [length_append, length_drop] at this
            omega
        · cases hus with
          | nil => rfl
          | cons hu hrest' =>
            have h1 := hrest'.length_le hd.toStable
            have h2 := hd.pos hu
            have h3 := hd.le_length hu
            simp only [length_append, length_drop] at h1 h3
            omega
      rw [hsame]
      exact hnone
    · exfalso
      rw [dropLast_take] at hlast hlen'
      have := hmiss (min j reads.length - 1) (by omega)
      omega
  obtain ⟨vs, r, hvs, hs⟩ := Cut.exists_stuck hd (q.drop n)
  have hcut : Cut (lex srv.decode) ([] ++ (reads.take j).flatten) (ts ++ .resp f :: vs) r := by
    rw [nil_append, hq]
    exact (hp.of_whole hd.toStable q).trans (.cons hqt hvs)
  have hrun := run_passed hd (lex_nil _) (fun c hc => hne c (mem_of_mem_take hc)) hpass hcut hs
    (s := s) (reads.drop j)
  rw [take_append_drop] at hrun
  obtain ⟨s1, habs⟩ := absorb_of_writes hw (ts ++ .resp f :: vs) s
  have hset := settle_dispatched srv s (ts ++ .resp f :: vs) r
  rw [habs, absorb_none_dispatched srv habs] at hset
  have hmany : s.dispatched.length + (ts.filterMap Token.frame).length <
      (settle srv s (ts ++ .resp f :: vs) r).1.dispatched.length := by
    rw [hset]
    simp [Token.frame]
  rw [hrun]
  rcases hr : settle srv s (ts ++ .resp f :: vs) r with ⟨s', _ | ended⟩
  · rw [hr] at hmany
    exact lt_of_lt_of_le hmany (run_dispatched hd (reads.drop j) s' r).length_le
  · rw [hr] at hmany
    exact hmany

end Reads

theorem exists_first_over {cap : ℕ} : ∀ {ts : List Token}, (∃ t ∈ ts, t.Over cap) →
    ∃ us t vs, ts = us ++ t :: vs ∧ (∀ u ∈ us, ¬ u.Over cap) ∧ t.Over cap
  | [], h => by simp at h
  | t :: ts, h => by
    by_cases ht : t.Over cap
    · exact ⟨[], t, ts, rfl, by simp, ht⟩
    · have hlater : ∃ u ∈ ts, u.Over cap := by simpa [ht] using h
      obtain ⟨us, u, vs, rfl, hus, hu⟩ := exists_first_over hlater
      exact ⟨t :: us, u, vs, rfl, by simpa [ht] using hus, hu⟩

section Iff

variable {decode : Decode} {dispatch : σ → Frame → σ × Frame} {cap : ℕ} {state : σ}
  {reads : List Bytes}

theorem met_of_only_short (hc : Codec decode) (hne : ∀ c ∈ reads, c ≠ [])
    (hshort : OnlyShort decode dispatch cap state reads) : MetAtStart decode cap reads := by
  have hd := lex_lawful hc.lawful
  intro p t ts f n hpt hp hts ht hf
  obtain ⟨ts', r', hcut', hdisp, hts'⟩ := hshort fun _ _ => true
  -- were the command dispatched, it would be among those that are not over-long
  have hcontra : ¬ (ts.filterMap Token.frame).length < (ts'.filterMap Token.frame).length := by
    intro hlt
    have hcut : Cut (lex decode) reads.flatten (ts ++ [.resp f]) (t.drop n) := by
      rw [hpt]
      exact (hp.of_whole hd.toStable t).trans (.cons ht (.nil _))
    rcases hcut.compare hcut' with ⟨us, rfl, -⟩ | ⟨us, hus, -⟩
    · exact hts' (.resp f) (by simp) hf
    rcases eq_nil_or_concat us with rfl | ⟨us', u, rfl⟩
    · rw [append_nil] at hus
      exact hts' (.resp f) (by rw [← hus]; simp) hf
    · rw [concat_eq_append, ← append_assoc] at hus
      have hinit : ts = ts' ++ us' := append_inj_left' hus rfl
      rw [hinit, filterMap_append, length_append] at hlt
      omega
  rw [← hdisp] at hcontra
  by_contra hmet
  refine hcontra ?_
  have hmiss : oversizedBulk t cap = none ∨ ∀ k, p.length ≤ (reads.take k).flatten.length →
      p.length + n ≤ (reads.take k).flatten.length := by
    by_cases hover : oversizedBulk t cap = none
    · exact .inl hover
    · refine .inr fun k hk => ?_
      by_contra hlt
      exact hmet ⟨hover, k, hk, by omega⟩
  have hlt := lt_dispatched_of_missed ⟨decode, dispatch, fun _ _ => true, cap⟩ hc
    (fun _ _ => rfl) hne hpt hp hts ht hmiss (.opened state)
  simpa [Session.opened] using hlt

theorem only_short_of_met (hc : Codec decode) (hne : ∀ c ∈ reads, c ≠ [])
    (hmet : MetAtStart decode cap reads) : OnlyShort decode dispatch cap state reads := by
  have hd := lex_lawful hc.lawful
  intro writes
  obtain ⟨ts, r, hcut, hs⟩ := Cut.exists_stuck hd reads.flatten
  obtain ⟨us, ⟨vs, rfl⟩, hdisp⟩ := run_dispatched_prefix ⟨decode, dispatch, writes, cap⟩ hd
    (.opened state) (lex_nil _) hcut hs
  obtain ⟨m, hus, hvs⟩ := Cut.of_append hcut
  refine ⟨us, m, hus, by simpa [Session.opened] using hdisp, fun u hu hover => ?_⟩
  -- the first over-long command of the stream is met, so the session stops before it
  obtain ⟨ws, t, xs, rfl, hws, ht⟩ := exists_first_over ⟨u, hu, hover⟩
  obtain ⟨b, hcutb, hrest⟩ := Cut.of_append hus
  obtain ⟨p, hp, hwhole⟩ := hcutb.split hd.toStable
  cases hrest with
  | @cons _ _ n _ _ hlex _ =>
    cases t with
    | blank | inline args => exact ht
    | resp f =>
      obtain ⟨hrefused, k, hk, hk'⟩ := hmet p b ws f n hp hwhole hws hlex ht
      have hle := dispatched_le_of_met ⟨decode, dispatch, writes, cap⟩ hc hne hp hwhole
        hws hlex ht hrefused hk hk' (.opened state)
      rw [hdisp] at hle
      simp [Session.opened, Token.frame] at hle

end Iff

/-- **Which reads let no over-long command through**: those at which the first one is met at the
start of a buffer, and is one the check refuses. -/
theorem only_short_iff {decode : Decode} (hc : Codec decode) (dispatch : σ → Frame → σ × Frame)
    (cap : ℕ) (state : σ) {reads : List Bytes} (hne : ∀ c ∈ reads, c ≠ []) :
    OnlyShort decode dispatch cap state reads ↔ MetAtStart decode cap reads :=
  ⟨met_of_only_short hc hne, only_short_of_met hc hne⟩

/-! ## Reads that let one through -/

/-- The lengths of a command's bulk arguments. -/
def bulkLengths : Frame → List ℕ
  | .array items => items.filterMap fun
    | .bulkString data => some data.length
    | _ => none
  | _ => []

theorem carries_iff {cap : ℕ} {f : Frame} : Carries cap f ↔ ∃ m ∈ bulkLengths f, cap < m := by
  constructor
  · rintro ⟨items, data, rfl, hmem, hlt⟩
    exact ⟨data.length, mem_filterMap.2 ⟨_, hmem, rfl⟩, hlt⟩
  rintro ⟨m, hm, hlt⟩
  cases f with
  | array items =>
    obtain ⟨item, hitem, hsome⟩ := mem_filterMap.1 hm
    cases item with
    | bulkString data => cases hsome; exact ⟨items, data, rfl, hitem, hlt⟩
    | simpleString _ | error _ | integer _ | array _ | null => cases hsome
  | simpleString _ | error _ | integer _ | bulkString _ | null => cases hm

/-- The lengths of the bulk arguments of the frame found, if any. -/
def foundLengths : Verdict Token RespError → List ℕ
  | .token (.resp f) _ => bulkLengths f
  | _ => []

def pingFrame : Bytes := text "*1\r\n$4\r\nPING\r\n"

/-- A `SET` of eight bytes. -/
def setFrame : Bytes := text "*3\r\n$3\r\nSET\r\n$3\r\nkey\r\n$8\r\nabcdefgh\r\n"

/-- A server with a cap of four bytes. -/
def smallServer : Server Unit := { pongServer with maxValueSize := 4 }

theorem exists_frame (decode : Decode) {b : Bytes} {n : ℕ} (hstar : b.head? = some (ascii '*'))
    (hlen : (lex decode b).len? = some n) :
    ∃ f, lex decode b = .token (.resp f) n ∧ foundLengths (lex decode b) = bulkLengths f := by
  have hresp : lex decode b = lexFrame decode b := by
    have hmarker : ¬ ascii '*' ∉ frameMarkers := by decide
    obtain ⟨rest, rfl⟩ := head?_eq_some_iff.1 hstar
    rw [lex, if_neg hmarker]
  cases hv : lex decode b with
  | more | bad e => rw [hv] at hlen; cases hlen
  | token t m =>
    rw [hv] at hlen
    cases hlen
    rw [hresp] at hv
    obtain ⟨f, -, rfl⟩ := lexFrame_eq_token.1 hv
    exact ⟨f, rfl, rfl⟩

/-- **Behind another command the `SET` is dispatched with its eight bytes; where a read starts
with it, it is refused.** -/
theorem pipelined_over_cap :
    (run smallServer (.opened ()) [] [pingFrame ++ setFrame]).dispatched.map bulkLengths =
        [[4], [3, 3, 8]] ∧
      (run smallServer (.opened ()) [] [pingFrame, setFrame]).dispatched.map bulkLengths =
        [[4]] ∧
      ¬ OnlyShort (decodeResp2 4) smallServer.dispatch 4 () [pingFrame ++ setFrame] := by
  refine ⟨by decide +kernel, by decide +kernel, fun hshort => ?_⟩
  obtain ⟨f, hf, hflen⟩ := exists_frame (decodeResp2 4)
    (b := pingFrame) (n := pingFrame.length) (by decide +kernel) (by decide +kernel)
  obtain ⟨g, hg, hglen⟩ := exists_frame (decodeResp2 4)
    (b := setFrame) (n := setFrame.length) (by decide +kernel) (by decide +kernel)
  have hping : Cut (lex (decodeResp2 4)) pingFrame [.resp f] [] := by
    refine .cons hf ?_
    rw [drop_length]
    exact .nil []
  have hfshort : ¬ Carries 4 f := by
    rw [carries_iff, ← hflen]
    decide +kernel
  have hgover : Carries 4 g := by
    rw [carries_iff, ← hglen]
    decide +kernel
  have hmet := met_of_only_short (codec_decodeResp2 4) (by decide +kernel) hshort
  obtain ⟨-, k, hk, hk'⟩ := hmet pingFrame setFrame [.resp f] g _ (by simp) hping
    (by simpa [Token.Over] using hfshort) hg hgover
  -- the only read ends behind both
  cases k with
  | zero => exact absurd hk (by decide +kernel)
  | succ k =>
    have hall : ([pingFrame ++ setFrame].take (k + 1)).flatten.length =
        pingFrame.length + setFrame.length := by simp
    omega

theorem only_short_split :
    OnlyShort (decodeResp2 4) smallServer.dispatch 4 () [pingFrame, setFrame] := by
  refine (only_short_iff (codec_decodeResp2 4) smallServer.dispatch 4 () (by decide +kernel)).2 ?_
  have hl := (lex_lawful (codec_decodeResp2 4).lawful).toStable
  obtain ⟨f, hf, hflen⟩ := exists_frame (decodeResp2 4)
    (b := pingFrame ++ setFrame) (n := pingFrame.length) (by decide +kernel) (by decide +kernel)
  have hfshort : ¬ Carries 4 f := by
    rw [carries_iff, ← hflen]
    decide +kernel
  have hfirst : (lex (decodeResp2 4) (pingFrame ++ setFrame)).len? = some pingFrame.length := by
    rw [hf]; rfl
  have hsecond : (lex (decodeResp2 4) setFrame).len? = some setFrame.length := by decide +kernel
  have hrefused : oversizedBulk setFrame 4 ≠ none := by decide +kernel
  -- the only over-long command starts where the first read ends
  have hstarts : ∀ p t, pingFrame ++ setFrame = p ++ t → Whole (lex (decodeResp2 4)) p →
      ∀ g n, lex (decodeResp2 4) t = .token (.resp g) n → Carries 4 g → t = setFrame := by
    refine starts_of_token hl hfirst ?_ ?_
    · intro g n hg hover
      cases hf.symm.trans hg
      exact absurd hover hfshort
    · rw [drop_left]
      refine starts_of_token hl hsecond (fun _ _ _ _ => rfl) ?_
      rw [drop_length]
      exact starts_of_stuck hl rfl fun g n hg => by cases hg
  intro p t ts g n hpt hp _ hg hover
  have hpt' : pingFrame ++ setFrame = p ++ t := by simpa using hpt
  obtain rfl := hstarts p t hpt' ⟨ts, hp⟩ g n hg hover
  have hp' : p = pingFrame := (append_cancel_right hpt').symm
  have hn := (lex_lawful (codec_decodeResp2 4).lawful).pos hg
  refine ⟨hrefused, 1, ?_, ?_⟩
  · simp [hp']
  · simpa [hp'] using hn

end QssStorage.Resp
