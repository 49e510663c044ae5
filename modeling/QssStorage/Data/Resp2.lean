import QssStorage.Data.Byte
import QssStorage.Data.Lexer

/-!
# RESP2 on the wire

The frames of the second version of the Redis protocol, the wire form of an array, and a
decoder.

`ArrayWire items bytes` says that `bytes` is an array of `items`: its count line, and then
the elements one after another. Only a bulk string or a null starts with `$`; how the
other elements are written is left open.

* `frame_wire`: what it takes for an array has the wire form of one.
-/

namespace Resp2

open Lexer

abbrev Byte := Fin 256

/-- The byte of an ASCII character. -/
def ascii (c : Char) : Byte := Fin.ofNat 256 c.toNat

def crlf : List Byte := [13, 10]

/-- A decoded frame. -/
inductive Frame where
  | simpleString (text : List Byte)
  | error (text : String)
  | integer (i : ℤ)
  | bulkString (data : List Byte)
  | array (items : List Frame)
  | null

variable {v : ℤ} {b l : List Byte} {f : Frame}

/-! ## Numbers -/

/-- A decimal numeral with its digits read after `acc`. -/
def digits : ℕ → List Byte → Option ℕ
  | acc, [] => some acc
  | acc, b :: bs => if 48 ≤ b ∧ b ≤ 57 then digits (acc * 10 + (b.val - 48)) bs else none

/-- A number in the signed 64-bit range: at least one digit, below zero after a minus. -/
def signed (negative : Bool) (numeral : List Byte) : Option ℤ :=
  if numeral = [] then none
  else
    match digits 0 numeral with
    | none => none
    | some n =>
      let v : ℤ := if negative then -n else n
      if -2 ^ 63 ≤ v ∧ v < 2 ^ 63 then some v else none

/-- A signed 64-bit number: an optional sign and at least one digit. -/
def parseI64 : List Byte → Option ℤ
  | [] => none
  | b :: rest =>
    if b = ascii '-' then signed true rest
    else if b = ascii '+' then signed false rest
    else signed false (b :: rest)

theorem digits_ne_newline : ∀ {acc n : ℕ} {l : List Byte}, digits acc l = some n → ∀ b ∈ l, b ≠ 10 ∧ b ≠ 13
  | acc, n, [], _, b, hb => by cases hb
  | acc, n, x :: l, h, b, hb => by
    unfold digits at h
    split at h
    next hx =>
      rcases List.mem_cons.1 hb with rfl | hb'
      · constructor <;> rintro rfl <;> exact absurd hx.1 (by decide)
      · exact digits_ne_newline h b hb'
    next => cases h

theorem signed_ne_newline {negative : Bool} (h : signed negative l = some v) : ∀ b ∈ l, b ≠ 10 ∧ b ≠ 13 := by
  unfold signed at h
  split at h
  next => cases h
  next =>
    split at h
    next => cases h
    next n hn => exact digits_ne_newline hn

/-- No line end occurs in a number. -/
theorem parseI64_ne_newline (h : parseI64 l = some v) : ∀ b ∈ l, b ≠ 10 ∧ b ≠ 13 := by
  cases l with
  | nil => cases h
  | cons x rest =>
    simp only [parseI64] at h
    intro b hb
    split_ifs at h with hminus hplus
    · rcases List.mem_cons.1 hb with rfl | hb'
      · subst hminus; decide
      · exact signed_ne_newline h b hb'
    · rcases List.mem_cons.1 hb with rfl | hb'
      · subst hplus; decide
      · exact signed_ne_newline h b hb'
    · exact signed_ne_newline h b hb

/-! ## The wire form of an array -/

/-- The bytes of one element of an array. -/
inductive Element : Frame → List Byte → Prop where
  | bulk {data line : List Byte} (x y : Byte) :
      parseI64 line = some (data.length : ℤ) →
      Element (.bulkString data) (ascii '$' :: (line ++ crlf ++ (data ++ [x, y])))
  | null {line : List Byte} {v : ℤ} :
      parseI64 line = some v → v < 0 → Element .null (ascii '$' :: (line ++ crlf))
  | other {f : Frame} {b : Byte} (rest : List Byte) :
      (∀ data, f ≠ .bulkString data) → b ≠ ascii '$' → Element f (b :: rest)

/-- `bytes` is an array of `items`. -/
def ArrayWire (items : List Frame) (bytes : List Byte) : Prop :=
  ∃ line parts, parseI64 line = some (items.length : ℤ) ∧ List.Forall₂ Element items parts ∧
    bytes = ascii '*' :: (line ++ crlf ++ parts.flatten)

/-- `bytes` is a null array. -/
def NullArrayWire (bytes : List Byte) : Prop :=
  ∃ line v, parseI64 line = some v ∧ v < 0 ∧ bytes = ascii '*' :: (line ++ crlf)

/-! ## A decoder -/

/-- Why bytes are not a frame. -/
inductive Fault where
  | number
  | length
  | marker
  | depth
deriving DecidableEq

def Fault.text : Fault → String
  | .number => "invalid number"
  | .length => "invalid length"
  | .marker => "invalid frame type"
  | .depth => "nested too deeply"

/-- A line with a number on it. -/
def number : List Byte → Verdict ℤ Fault :=
  bind (upTo crlf) fun line =>
    match parseI64 line with
    | some v => ret v
    | none => fail .number

/-- One frame, with arrays nested at most `depth` deep. -/
def frame : ℕ → List Byte → Verdict Frame Fault
  | 0 => fail .depth
  | depth + 1 =>
    bind (take 1) fun marker =>
      if marker = [ascii '+'] then bind (upTo crlf) fun text => ret (.simpleString text)
      else if marker = [ascii '-'] then
        bind (upTo crlf) fun text =>
          ret (.error (String.ofList (text.map fun b => Char.ofNat b.val)))
      else if marker = [ascii ':'] then bind number fun v => ret (.integer v)
      else if marker = [ascii '$'] then
        bind number fun v =>
          if v = -1 then ret .null
          else if v < 0 then fail .length
          else bind (take v.toNat) fun data => bind (take 2) fun _ => ret (.bulkString data)
      else if marker = [ascii '*'] then
        bind number fun v =>
          if v = -1 then ret .null
          else if v < 0 then fail .length
          else bind (times (frame depth) v.toNat) fun items => ret (.array items)
      else fail .marker

theorem number_stable : Stable number := by
  refine (Stable.upTo crlf).bind fun line => ?_
  cases parseI64 line with
  | some v => exact Stable.ret v
  | none => exact Stable.fail _

theorem frame_stable : ∀ depth, Stable (frame depth)
  | 0 => Stable.fail _
  | depth + 1 => by
    have ih := frame_stable depth
    refine (Stable.take 1).bind fun marker => ?_
    split_ifs
    · exact (Stable.upTo crlf).bind fun text => Stable.ret _
    · exact (Stable.upTo crlf).bind fun text => Stable.ret _
    · exact number_stable.bind fun v => Stable.ret _
    · refine number_stable.bind fun v => ?_
      split_ifs
      · exact Stable.ret _
      · exact Stable.fail _
      · exact (Stable.take _).bind fun data => (Stable.take 2).bind fun _ => Stable.ret _
    · refine number_stable.bind fun v => ?_
      split_ifs
      · exact Stable.ret _
      · exact Stable.fail _
      · exact (ih.times _).bind fun items => Stable.ret _
    · exact Stable.fail _

theorem take_eq_token {β ε : Type} {n m : ℕ} {b t : List β} :
    (take n b : Verdict (List β) ε) = .token t m ↔ n ≤ b.length ∧ t = b.take n ∧ m = n := by
  unfold take
  split
  next h => simp [h, eq_comm]
  next h => simp [h]

theorem frame_lawful (depth : ℕ) : Lawful (frame depth) where
  toStable := frame_stable depth
  pos := by
    intro b t n h
    cases depth with
    | zero => cases h
    | succ depth =>
      obtain ⟨m, k, l, hm, -, rfl⟩ := bind_eq_token.1 h
      have := (take_eq_token.1 hm).2.2
      omega

/-! ### Its arrays -/

theorem find_crlf_spec : ∀ {b : List Byte} {i : ℕ}, find crlf b = some i → b = b.take i ++ (crlf ++ b.drop (i + 2))
  | [], i, h => by simp [find, crlf] at h
  | x :: b, i, h => by
    unfold find at h
    split at h
    next hpre =>
      cases h
      obtain ⟨d, hd⟩ := hpre
      rw [← hd]
      rfl
    next =>
      obtain ⟨j, hj, rfl⟩ := Option.map_eq_some_iff.1 h
      have ih := find_crlf_spec hj
      simp only [List.take_succ_cons, List.cons_append, List.drop_succ_cons, show j + 1 + 2 = (j + 2) + 1 by omega]
      rw [← ih]

theorem number_eq_token {n : ℕ} (h : number b = .token v n) :
    ∃ line, parseI64 line = some v ∧ n = line.length + 2 ∧ b = line ++ crlf ++ b.drop n := by
  obtain ⟨line, k, m, h1, h2, rfl⟩ := bind_eq_token.1 h
  unfold upTo at h1
  split at h1
  next i hi =>
    cases h1
    have hle := find_le hi
    have hspec := find_crlf_spec hi
    cases hw : parseI64 (b.take i) with
    | some w =>
      rw [hw] at h2
      cases h2
      refine ⟨b.take i, hw, ?_, ?_⟩
      · simp only [List.length_take, crlf, List.length_cons, List.length_nil] at hle ⊢
        omega
      · simpa [crlf, List.append_assoc] using hspec
    | none =>
      rw [hw] at h2
      cases h2
  next => cases h1

/-- What a lexer takes in a row is its tokens' bytes one after another. -/
theorem times_eq_token {β τ ε : Type} {p : List β → Verdict τ ε} (hp : Stable p) :
    ∀ {n m : ℕ} {b : List β} {ts : List τ}, times p n b = .token ts m →
      ts.length = n ∧ ∃ parts, List.Forall₂ (fun t s => p s = .token t s.length) ts parts ∧
        b.take m = parts.flatten ∧ m ≤ b.length
  | 0, m, b, ts, h => by
    cases h
    exact ⟨rfl, [], .nil, by simp, by omega⟩
  | n + 1, m, b, ts, h => by
    obtain ⟨t, k, l, h1, h2, rfl⟩ := bind_eq_token.1 h
    obtain ⟨us, k', l', h3, h4, rfl⟩ := bind_eq_token.1 h2
    cases h4
    obtain ⟨hlen, parts, hparts, htake, hle'⟩ := times_eq_token hp h3
    have hle := hp.le_length h1
    have hown : p (b.take k) = .token t (b.take k).length := by
      have := hp.own [] h1
      rw [List.append_nil] at this
      rw [this, List.length_take, Nat.min_eq_left hle]
    refine ⟨by simp [hlen], b.take k :: parts, .cons hown hparts, ?_, ?_⟩
    · rw [List.flatten_cons, ← htake, Nat.add_zero, List.take_add]
    · simp only [List.length_drop] at hle'
      omega

/-- What `frame` takes has the form of an array's element. -/
theorem frame_element {depth : ℕ} {s : List Byte} (h : frame depth s = .token f s.length) : Element f s := by
  cases depth with
  | zero => cases h
  | succ depth =>
    obtain ⟨marker, k, l, h1, h2, hkl⟩ := bind_eq_token.1 h
    obtain ⟨hlen, rfl, rfl⟩ := take_eq_token.1 h1
    cases s with
    | nil => simp at hlen
    | cons b rest =>
      have hmark : (b :: rest).take 1 = [b] := rfl
      have hdrop : (b :: rest).drop 1 = rest := rfl
      rw [hdrop] at h2
      simp only [hmark, List.cons.injEq, and_true, List.length_cons] at h2 hkl
      by_cases hb : b = ascii '$'
      · subst hb
        rw [if_neg (by decide), if_neg (by decide), if_neg (by decide), if_pos rfl] at h2
        obtain ⟨v, n, m, h3, h4, rfl⟩ := bind_eq_token.1 h2
        obtain ⟨line, hline, rfl, hrest⟩ := number_eq_token h3
        split_ifs at h4 with hnull hneg
        · cases h4
          have hnil : rest.drop (line.length + 2) = [] := List.drop_eq_nil_of_le (by omega)
          rw [hnil, List.append_nil] at hrest
          rw [hrest]
          exact .null hline (by omega)
        · cases h4
        obtain ⟨data, n', m', h5, h6, rfl⟩ := bind_eq_token.1 h4
        obtain ⟨tail, n'', m'', h7, h8, rfl⟩ := bind_eq_token.1 h6
        cases h8
        obtain ⟨hle5, rfl, rfl⟩ := take_eq_token.1 h5
        obtain ⟨hle7, rfl, rfl⟩ := take_eq_token.1 h7
        generalize hbody : rest.drop (line.length + 2) = body at *
        have hlast : (body.drop v.toNat).length = 2 := by
          have hl := congrArg List.length hbody
          simp only [List.length_drop] at hl hle7 ⊢
          omega
        obtain ⟨x, y, hxy⟩ := List.length_eq_two.1 hlast
        have hdata : (body.take v.toNat).length = v.toNat := by
          rw [List.length_take, Nat.min_eq_left hle5]
        have hsplit : body = body.take v.toNat ++ [x, y] := by
          rw [← hxy, List.take_append_drop]
        have hform : rest = line ++ crlf ++ (body.take v.toNat ++ [x, y]) := by
          rw [← hsplit]
          exact hrest
        rw [hform]
        refine .bulk x y ?_
        rw [hdata, Int.toNat_of_nonneg (by omega)]
        exact hline
      · refine .other rest ?_ hb
        -- every other marker decodes to something else
        rintro data rfl
        rw [if_neg hb] at h2
        have hnull : ∀ {v : ℤ} {k : List Byte → Verdict Frame Fault} {b' m}, (∀ m', k b' ≠ .token (.bulkString data) m') →
            (if v = -1 then ret Frame.null else if v < 0 then fail .length else k) b' ≠
              .token (.bulkString data) m := by
          intro v k b' m hk
          split_ifs
          · exact nofun
          · exact nofun
          · exact hk m
        split_ifs at h2
        · obtain ⟨_, _, _, -, h3, -⟩ := bind_eq_token.1 h2
          cases h3
        · obtain ⟨_, _, _, -, h3, -⟩ := bind_eq_token.1 h2
          cases h3
        · obtain ⟨_, _, _, -, h3, -⟩ := bind_eq_token.1 h2
          cases h3
        · obtain ⟨v, n, m, -, h3, -⟩ := bind_eq_token.1 h2
          refine hnull (fun m' hm => ?_) h3
          obtain ⟨_, _, _, -, h4, -⟩ := bind_eq_token.1 hm
          cases h4
        · cases h2

/-- **What the decoder takes for an array has the wire form of one.** -/
theorem frame_wire {depth n : ℕ} {items : List Frame} (h : frame depth b = .token (.array items) n) : ArrayWire items (b.take n) := by
  have hle := (frame_lawful depth).le_length h
  have hown : frame depth (b.take n) = .token (.array items) (b.take n).length := by
    have := (frame_lawful depth).own [] h
    rw [List.append_nil] at this
    rw [this, List.length_take, Nat.min_eq_left hle]
  generalize b.take n = s at hown
  cases depth with
  | zero => cases hown
  | succ depth =>
    obtain ⟨marker, k, l, h1, h2, hkl⟩ := bind_eq_token.1 hown
    obtain ⟨hlen, rfl, rfl⟩ := take_eq_token.1 h1
    cases s with
    | nil => simp at hlen
    | cons x rest =>
      have hmark : (x :: rest).take 1 = [x] := rfl
      have hdrop : (x :: rest).drop 1 = rest := rfl
      rw [hdrop] at h2
      simp only [hmark, List.cons.injEq, and_true, List.length_cons] at h2 hkl
      split_ifs at h2 with hplus hminus hcolon hdollar hstar
      · obtain ⟨_, _, _, -, h3, -⟩ := bind_eq_token.1 h2
        cases h3
      · obtain ⟨_, _, _, -, h3, -⟩ := bind_eq_token.1 h2
        cases h3
      · obtain ⟨_, _, _, -, h3, -⟩ := bind_eq_token.1 h2
        cases h3
      · obtain ⟨v, _, _, -, h3, -⟩ := bind_eq_token.1 h2
        split_ifs at h3
        · cases h3
        · cases h3
        · obtain ⟨_, _, _, -, h4, -⟩ := bind_eq_token.1 h3
          obtain ⟨_, _, _, -, h5, -⟩ := bind_eq_token.1 h4
          cases h5
      · obtain ⟨v, n', m, h3, h4, rfl⟩ := bind_eq_token.1 h2
        obtain ⟨line, hline, rfl, hrest⟩ := number_eq_token h3
        split_ifs at h4 with hnull hneg
        · cases h4
        · cases h4
        obtain ⟨ts, k', l', h5, h6, rfl⟩ := bind_eq_token.1 h4
        cases h6
        obtain ⟨hcount, parts, hparts, htake, hle'⟩ :=
          times_eq_token (frame_stable depth) h5
        refine ⟨line, parts, ?_, hparts.imp fun _ _ => frame_element, ?_⟩
        · rw [hcount, Int.toNat_of_nonneg (by omega)]
          exact hline
        · rw [hstar, ← htake, List.take_of_length_le, ← hrest]
          rw [List.length_drop] at hle' ⊢
          omega
      · cases h2

/-- **Whatever else starts like an array is a null array.** -/
theorem frame_star {depth n : ℕ} (h : frame depth (ascii '*' :: b) = .token f n) (hf : ∀ items, f ≠ .array items) :
    NullArrayWire ((ascii '*' :: b).take n) := by
  cases depth with
  | zero => cases h
  | succ depth =>
    obtain ⟨marker, k, l, h1, h2, rfl⟩ := bind_eq_token.1 h
    obtain ⟨-, rfl, rfl⟩ := take_eq_token.1 h1
    have hmark : (ascii '*' :: b).take 1 = [ascii '*'] := rfl
    have hdrop : (ascii '*' :: b).drop 1 = b := rfl
    rw [hdrop, hmark, if_neg (by decide), if_neg (by decide), if_neg (by decide), if_neg (by decide), if_pos rfl] at h2
    obtain ⟨v, n', m, h3, h4, rfl⟩ := bind_eq_token.1 h2
    obtain ⟨line, hline, rfl, hrest⟩ := number_eq_token h3
    split_ifs at h4 with hnull hneg
    · cases h4
      refine ⟨line, v, hline, by omega, ?_⟩
      have hlen : 1 + (line.length + 2 + 0) = (line ++ crlf).length + 1 := by
        simp [crlf]; omega
      rw [hlen, List.take_succ_cons, hrest, List.take_left]
    · cases h4
    · obtain ⟨ts, k', l', -, h6, -⟩ := bind_eq_token.1 h4
      cases h6
      exact absurd rfl (hf ts)

end Resp2
