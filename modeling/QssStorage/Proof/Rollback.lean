import QssStorage.Conc.Among
import QssStorage.Proof.Names

/-!
# A put that is rolled back

A body that does not match its Content-MD5 is found out after it was stored, unless it is inlined:
the record is then deleted again. What was under the key before the put is gone with it, and so
is what others stored there in between.

The put runs among others that may do anything, each of their turns saying whether it touched the
key. `Standing` keeps what they left there.

* `bad_digest_keeps_iff`: **when the key is as if the put had not been made.**
-/

namespace QssStorage

open Conc Prog

variable (c : Config) (inlineMax : ℕ) (bucket key : Bytes)

/-- What the others may do in one turn: anything, but a turn that does not touch the key leaves it. -/
def Touching (touched : Bool) (s s' : Store) : Prop := touched = false → recordAt bucket key s' = recordAt bucket key s

/-- What the others have left under the key, and whether they touched it since the put last changed it. -/
structure Standing where
  left : Option (Cell Object)
  touched : Bool
deriving DecidableEq

/-- The account of one turn. -/
def Standing.turn (g : Standing) : Turn Bool Store → Standing
  | .own s s' => if recordAt bucket key s' = recordAt bucket key s then g else ⟨g.left, false⟩
  | .other true _ s' => ⟨recordAt bucket key s', true⟩
  | .other false _ _ => g

/-- What the others leave under the key in the course of a run, and whether they touched it last. -/
def standing (s : Store) (tr : List (Turn Bool Store)) : Standing :=
  tr.foldl (Standing.turn bucket key) ⟨recordAt bucket key s, false⟩

variable {bucket key}

/-- The key is as the others left it. -/
def AsLeft (bucket key : Bytes) (s : Store) (g : Standing) : Prop := recordAt bucket key s = g.left

/-- The key is as the others left it if they touched it last. -/
def Yields (bucket key : Bytes) (s : Store) (g : Standing) : Prop := g.touched = true → recordAt bucket key s = g.left

/-- The key is as the others left it if they touched it last, and empty if they did not. -/
def Vacated (bucket key : Bytes) (s : Store) (g : Standing) : Prop :=
  Yields bucket key s g ∧ (g.touched = false → recordAt bucket key s = none)

theorem turn_same {s s' : Store} (h : SameAt bucket key s s') (g : Standing) : g.turn bucket key (.own s s') = g :=
  if_pos h

theorem turn_changed {s s' : Store} (h : ¬ SameAt bucket key s s') (g : Standing) :
    g.turn bucket key (.own s s') = ⟨g.left, false⟩ :=
  if_neg h

theorem asLeft_stable : Stable (Standing.turn bucket key) (Touching bucket key) (AsLeft bucket key) := by
  intro touched s s' g hR h
  cases touched with
  | true => rfl
  | false => exact (hR rfl).trans h

theorem yields_stable : Stable (Standing.turn bucket key) (Touching bucket key) (Yields bucket key) := by
  intro touched s s' g hR h
  cases touched with
  | true => exact fun _ => rfl
  | false => exact fun ht => (hR rfl).trans (h ht)

theorem vacated_stable : Stable (Standing.turn bucket key) (Touching bucket key) (Vacated bucket key) := by
  intro touched s s' g hR h
  refine ⟨yields_stable touched s s' g hR h.1, fun hf => ?_⟩
  cases touched with
  | true => cases hf
  | false => exact (hR rfl).trans (h.2 hf)

theorem asLeft_own (s s' : Store) (g : Standing) (hsame : SameAt bucket key s s') (h : AsLeft bucket key s g) :
    AsLeft bucket key s' (g.turn bucket key (.own s s')) := by
  rw [turn_same hsame]
  exact hsame.trans h

/-- Whatever the put does, the key is as the others left it if they touched it last. -/
theorem yields_own (s s' : Store) (g : Standing) (h : Yields bucket key s g) :
    Yields bucket key s' (g.turn bucket key (.own s s')) := by
  by_cases hsame : SameAt bucket key s s'
  · rw [turn_same hsame]
    exact fun ht => hsame.trans (h ht)
  · rw [turn_changed hsame]
    exact fun ht => by cases ht

theorem vacated_own (s s' : Store) (g : Standing) (hsame : SameAt bucket key s s') (h : Vacated bucket key s g) :
    Vacated bucket key s' (g.turn bucket key (.own s s')) := by
  refine ⟨yields_own s s' g h.1, ?_⟩
  rw [turn_same hsame]
  exact fun hf => hsame.trans (h.2 hf)

/-! ## The handler -/

/-- A request that goes on behind a part that may fail: such a failure is not answered with BadDigest. -/
theorem stored_tallies {α : Type} (p : StoreProg (Except Err α)) {q : α → StoreProg (Except S3Err S3Reply)}
    {Q : Store → Standing → Prop} (hq : ∀ a, Tallies (Touching bucket key) (Standing.turn bucket key) (Yields bucket key)
      (q a) fun r s g => r = .error .badDigest → Q s g) :
    Tallies (Touching bucket key) (Standing.turn bucket key) (AsLeft bucket key) ((tryStore p).andThen q)
      fun r s g => r = .error .badDigest → Q s g := by
  have hp : Tallies (Touching bucket key) (Standing.turn bucket key) (Yields bucket key) (tryStore p)
      fun r s g => r ≠ .error .badDigest ∧ Yields bucket key s g := by
    refine tallies_quiet yields_stable (fun s s' g _ => yields_own s s' g) (fun _ => trivial)
      (Steps.bind ((steps_any p).mono (fun _ _ h => h) ?_))
    intro r _
    cases r <;> exact fun h => by cases h
  refine Tallies.weaken (tallies_andThen hp ?_ ?_ fun a => (hq a).weaken fun s g h => h.2) fun s g h _ => h
  · exact fun e => (Stable.const _).and yields_stable
  · rintro e s g h hbad
    cases hbad
    exact absurd rfl h.1

/-- **A delete** leaves the key empty, until others touch it. -/
theorem delete_tallies : Tallies (Touching bucket key) (Standing.turn bucket key) (Yields bucket key)
    (deleteObject c bucket key) fun r s g => r.isOk = true → Vacated bucket key s g := by
  refine tallies_andThen (K := fun r s g => r.isOk = true → Vacated bucket key s g) ?_ ?_ ?_ fun taken => ?_
  · refine tallies_step yields_stable (fun r => vacated_stable.imp _) ?_
    intro e s g r s' hf h hok
    refine ⟨yields_own s s' g h, fun _ => ?_⟩
    split at hf
    · cases hf; cases hok
    · rename_i hbody _
      cases hf
      exact RecordTx.recordAt_eq ⟨_, deleteObjectTx_ok hbody⟩
    · cases hf; cases hok
    · cases hf; cases hok
  · exact fun e => vacated_stable.imp _
  · exact fun e s g _ hok => by cases hok
  · have hvacated : ∀ s g, ((Except.ok taken : Except Err (Option Object)).isOk = true → Vacated bucket key s g) →
        Vacated bucket key s g := fun s g h => h rfl
    cases taken with
    | none => exact (tallies_ret vacated_stable fun s g h _ => h).weaken hvacated
    | some o =>
      refine Tallies.weaken (tallies_bind (tallies_quiet vacated_stable vacated_own (fun _ => rfl)
        ((releaseOwn_steps c (fun _ => rfl) o.blocks).mono (fun s s' h => sameAt_of_trees h.blockStep.trees) fun _ h => h))
          fun _ => ?_) hvacated
      exact (tallies_ret vacated_stable fun s g h _ => h).weaken fun s g h => h.2

/-- The answer of a put that takes its record back. -/
theorem rollback_tallies : Tallies (Touching bucket key) (Standing.turn bucket key) (Yields bucket key)
    ((tryStore (deleteObject c bucket key)).andThen fun _ => .ret (.error .badDigest) : StoreProg (Except S3Err S3Reply))
      fun r s g => r = .error .badDigest → Vacated bucket key s g := by
  refine tallies_bind (K := fun r s g => r ≠ .error .badDigest ∧ (r.isOk = true → Vacated bucket key s g))
    (tallies_bind (delete_tallies c) ?_) ?_
  · intro r
    cases r with
    | ok taken => exact tallies_ret (vacated_stable.imp _) fun s g h => ⟨by simp, fun _ => h rfl⟩
    | error e =>
      exact tallies_ret (vacated_stable.imp _) fun s g _ => ⟨by simp, fun hok => by cases hok⟩
  intro r
  have hstable : Stable (Standing.turn bucket key) (Touching bucket key) fun s g =>
      r ≠ .error .badDigest ∧ (r.isOk = true → Vacated bucket key s g) := (Stable.const _).and (vacated_stable.imp _)
  cases r with
  | ok taken => exact tallies_ret hstable fun s g h _ => h.2 rfl
  | error e =>
    refine tallies_ret hstable fun s g h hbad => ?_
    cases hbad
    exact absurd rfl h.1

/-- The declared length of a body that is inlined. -/
def Inlined (inlineMax : ℕ) (contentLength : Option ℤ) : Prop := ∃ len ∈ contentLength, len.toNat ≤ inlineMax

/-- **How a put that answers BadDigest ends**: it changed nothing, or it left the key empty. -/
theorem putObject_tallies (validClass : Bool) (contentMd5 : Option (Option Bytes)) (body : Option (List (Option Bytes)))
    (contentLength : Option ℤ) : Tallies (Touching bucket key) (Standing.turn bucket key) (AsLeft bucket key)
      (putObject c inlineMax bucket key validClass contentMd5 body contentLength) fun r s g => r = .error .badDigest →
        (Inlined inlineMax contentLength ∧ AsLeft bucket key s g) ∨
          (¬ Inlined inlineMax contentLength ∧ Vacated bucket key s g) := by
  have hother : ∀ {J : Store → Standing → Prop} {r : Except S3Err S3Reply} {Q : Store → Standing → Prop},
      Stable (Standing.turn bucket key) (Touching bucket key) J → r ≠ .error .badDigest →
        Tallies (Touching bucket key) (Standing.turn bucket key) J (.ret r : StoreProg _)
          fun r s g => r = .error .badDigest → Q s g :=
    fun hJ hr => tallies_ret hJ fun s g _ hbad => absurd hbad hr
  unfold putObject
  split
  · exact hother asLeft_stable (by simp)
  split
  · exact hother asLeft_stable (by simp)
  · exact hother asLeft_stable (by simp)
  refine tallies_bind (tallies_quiet asLeft_stable asLeft_own (fun _ => rfl) (bucketExists_steps fun s => rfl))
    fun found => ?_
  refine Tallies.weaken (J := AsLeft bucket key) ?_ fun s g h => h.2
  split
  · split
    · exact hother asLeft_stable (by simp)
    rename_i len
    split
    · exact hother asLeft_stable (by simp)
    split
    · rename_i hsmall
      split
      · exact hother asLeft_stable (by simp)
      · split
        · exact tallies_ret asLeft_stable fun s g h _ => .inl ⟨⟨len, rfl, hsmall⟩, h⟩
        · exact stored_tallies _ fun _ => hother yields_stable (by simp)
    rename_i hsmall
    have hlarge : ¬ Inlined inlineMax (some len) := by
      rintro ⟨_, hlen, h⟩
      cases hlen
      exact hsmall h
    refine stored_tallies _ fun o => ?_
    split
    · exact (rollback_tallies c).mono fun r s g h hbad => .inr ⟨hlarge, h hbad⟩
    · exact hother yields_stable (by simp)
  · exact hother asLeft_stable (by simp)

/-- **When the key is as if the put had not been made**: the body was inlined, or the others left the key empty, or they
touched it after the put took its record back. -/
theorem bad_digest_keeps_iff (validClass : Bool) (contentMd5 : Option (Option Bytes)) (body : Option (List (Option Bytes)))
    (contentLength : Option ℤ) (s s' : Store) (tr : List (Turn Bool Store))
    (h : Among (Touching bucket key) (putObject c inlineMax bucket key validClass contentMd5 body contentLength) s tr
      (.error .badDigest) s') :
    recordAt bucket key s' = (standing bucket key s tr).left ↔
      Inlined inlineMax contentLength ∨ (standing bucket key s tr).left = none ∨
        (standing bucket key s tr).touched = true := by
  have hend := putObject_tallies c inlineMax validClass contentMd5 body contentLength s tr _ s' h
    ⟨recordAt bucket key s, false⟩ rfl rfl
  rcases hend with ⟨hsmall, hleft⟩ | ⟨hlarge, hyields, hempty⟩
  · exact iff_of_true hleft (Or.inl hsmall)
  cases htouched : (standing bucket key s tr).touched with
  | true => exact iff_of_true (hyields htouched) (Or.inr (Or.inr rfl))
  | false =>
    have hnone : recordAt bucket key s' = none := hempty htouched
    rw [hnone]
    simp [hlarge, eq_comm]

/-- A store with `abc` under the key `k` of the bucket `b`, too large to be inlined. -/
def abcStored : Store :=
  (((createBucket [98]).bind fun _ => putObject abcConfig 0 [98] [107] true none (some [some abc]) (some 3)).eval steady
    Store.empty).elim Store.empty Prod.snd

/-- The same body again, with a Content-MD5 it does not have. -/
def badPut : StoreProg (Except S3Err S3Reply) :=
  putObject abcConfig 0 [98] [107] true (some (some [0])) (some [some abc]) (some 3)

theorem badPut_eval : (badPut.eval steady abcStored).map (fun r => (r.1, recordAt [98] [107] r.2)) =
    some (.error .badDigest, none) := by decide +kernel

theorem badPut_alone : ∃ s' tr, Among (Touching [98] [107]) badPut abcStored tr (.error .badDigest) s' ∧
    (∀ t ∈ tr, ∃ s1 s2, t = .own s1 s2) ∧ recordAt [98] [107] s' = none := by
  obtain ⟨⟨r, s'⟩, heval, hr⟩ := Option.map_eq_some_iff.1 badPut_eval
  obtain ⟨rfl, hnone⟩ := Prod.mk.inj hr
  obtain ⟨tr, hrun, hown⟩ := among_of_eval heval
  exact ⟨s', tr, hrun, hown, hnone⟩

/-- A put that nobody interferes with answers BadDigest, and the object that was there before is gone. -/
theorem bad_digest_loses_object : recordAt [98] [107] abcStored =
    some (.record ⟨3, 0, abcConfig.md5 abc, .singlePart [abcId]⟩) ∧ ∃ s' tr,
      Among (Touching [98] [107]) badPut abcStored tr (.error .badDigest) s' ∧
        (∀ t ∈ tr, ∃ s1 s2, t = .own s1 s2) ∧ recordAt [98] [107] s' = none :=
  ⟨by decide +kernel, badPut_alone⟩

theorem bad_digest_keeps_iff_alone : ∃ s' tr,
    Among (Touching [98] [107]) badPut abcStored tr (.error .badDigest) s' ∧
      (recordAt [98] [107] s' = (standing [98] [107] abcStored tr).left ↔
        Inlined 0 (some 3) ∨ (standing [98] [107] abcStored tr).left = none ∨
          (standing [98] [107] abcStored tr).touched = true) := by
  obtain ⟨s', tr, hrun, -⟩ := badPut_alone
  exact ⟨s', tr, hrun,
    bad_digest_keeps_iff abcConfig 0 true (some (some [0])) (some [some abc]) (some 3) abcStored s' tr hrun⟩

end QssStorage
