import QssStorage.Conc.Among
import QssStorage.Spec.Sessions

/-!
# What a session is bound to

A session carries the connection's namespace and rights, and a handler that is bound to a
namespace object. SELECT and AUTH change them, nothing else does.

* `failed_dispatch_keeps_session`: **a frame that is answered with an error leaves the session
  as it was, exactly if it spares it.** SELECT switches the connection's namespace before it
  knows that it can, and AUTH gives the rights before it binds the handler.
-/

namespace QssStorage.Respcas

open Conc Prog
open Resp2 (Frame)

/-! ## Commands that fail -/

section Failing

variable {Λ : Type} {R : Λ → Node → Node → Prop} {c : RespConfig} {me : ℕ} {s : Session}

/-- The reply is an error. -/
def isError : Frame → Bool
  | .error _ => true
  | _ => false

/-- What a frame that is answered with an error leaves as it is: SELECT has switched the
connection's namespace by then, AUTH has given it its rights. -/
def Spares (c : RespConfig) (s : Session) (frame : Frame) : Prop :=
  match Command.fromFrame c.text frame with
  | .ok (.select name _) => s.connNamespace = name
  | .ok (.auth password) => s.connAdmin = true ∨ c.adminPassword ≠ some password
  | _ => True

theorem isError_selected (isAuthenticated isPublic : Bool) : isError (selected isAuthenticated isPublic) = false := by
  unfold selected
  split
  · rfl
  · split <;> rfl

/-- A SELECT that fails has switched the connection's namespace. -/
theorem selectNamespace_steps (name : Bytes) (password : Option Bytes) :
    Steps (fun _ _ => True) (selectNamespace c me s name password) fun r =>
      isError r.2 = true → r.1 = { s with connNamespace := name } := by
  refine Steps.seq (steps_any _) fun _ => Steps.seq (steps_any _) fun r => ?_
  cases r with
  | error e => exact fun _ => rfl
  | ok o =>
    refine Steps.seq (steps_any _) fun auth => Steps.seq (steps_any _) fun isPublic => Steps.seq (steps_any _) fun handler =>
      Steps.seq (steps_any _) fun _ hreply => ?_
    rw [isError_selected] at hreply
    cases hreply

/-- An AUTH that fails with the right password has given the connection its rights. -/
theorem authenticate_steps (password : Bytes) :
    Steps (fun _ _ => True) (authenticate c me s password) fun r => isError r.2 = true →
      r.1 = if c.adminPassword = some password then { s with connAdmin := true } else s := by
  unfold authenticate
  cases c.adminPassword with
  | none => exact fun h => by cases h
  | some admin =>
    by_cases hpw : password = admin
    · subst hpw
      simp only [ne_eq, not_true_eq_false, if_false, if_true]
      refine Steps.seq (steps_any _) fun _ => Steps.seq (steps_any _) fun r => ?_
      cases r with
      | error e => exact fun _ => rfl
      | ok o =>
        refine Steps.seq (steps_any _) fun handler => Steps.seq (steps_any _) fun _ hreply => ?_
        cases hreply
    · have hne : some admin ≠ some password := fun h => hpw (Option.some.inj h).symm
      simp only [ne_eq, hpw, not_false_eq_true, if_true, if_neg hne]
      exact fun _ => rfl

/-- Any other command leaves the session as it is. -/
theorem execute_steps (cmd : Command) : Steps (fun _ _ => True)
    ((execute c me s.handler cmd).bind fun reply => .ret (s, reply)) fun r => r.1 = s :=
  Steps.seq (steps_any _) fun _ => rfl

/-- **A frame that is answered with an error leaves the session as it was, exactly if it spares it.** -/
theorem failed_dispatch_keeps_session {frame : Frame} {n n' : Node} {tr : List (Turn Λ Node)} {s' : Session} {reply : Frame}
    (hrun : Among R (s.dispatch c me frame) n tr (s', reply) n') (herr : isError reply = true) :
    s' = s ↔ Spares c s frame := by
  unfold Session.dispatch at hrun
  unfold Spares
  split at hrun
  · rename_i cmd hcmd
    rw [hcmd]
    cases cmd with
    | select name password =>
      have hs' : s' = { s with connNamespace := name } := hrun.returns (selectNamespace_steps name password) herr
      rw [hs']
      exact ⟨fun h => (congrArg Session.connNamespace h).symm, fun h => by rw [← h]⟩
    | auth password =>
      have hs' : s' = if c.adminPassword = some password then { s with connAdmin := true } else s :=
        hrun.returns (authenticate_steps password) herr
      dsimp only
      by_cases hpw : c.adminPassword = some password
      · rw [hs', if_pos hpw]
        constructor
        · exact fun h => Or.inl (congrArg Session.connAdmin h).symm
        · rintro (h | h)
          · rw [← h]
          · exact absurd hpw h
      · rw [hs', if_neg hpw]
        exact ⟨fun _ => Or.inr hpw, fun _ => rfl⟩
    | _ => exact ⟨fun _ => trivial, fun _ => hrun.returns (execute_steps _)⟩
  · rename_i e he
    rw [he]
    cases hrun.1
    exact ⟨fun _ => trivial, fun _ => rfl⟩

/-- SELECT of a namespace that does not exist: the handler stays, the connection's namespace does not. -/
theorem failed_select_switches : ∃ s n s' reply n', (Session.new abcServer 0).eval steady freshNode = some (.ok s, n) ∧
    (s.dispatch abcServer 0 (request [utf8 "SELECT", utf8 "x"])).eval steady n = some ((s', reply), n') ∧
      isError reply = true ∧ s'.handler = s.handler ∧ s' ≠ s := by
  have hrun : (match (Session.new abcServer 0).eval steady freshNode with
      | some (.ok s, n) =>
        match (s.dispatch abcServer 0 (request [utf8 "SELECT", utf8 "x"])).eval steady n with
        | some ((s', reply), _) => isError reply && decide (s'.handler = s.handler) && decide (s' ≠ s)
        | none => false
      | some (.error _, _) => false
      | none => false) = true := by decide +kernel
  split at hrun
  · rename_i s n hs
    split at hrun
    · rename_i s' reply n' hs'
      simp only [Bool.and_eq_true, decide_eq_true_eq] at hrun
      exact ⟨s, n, s', reply, n', hs, hs', hrun.1.1, hrun.1.2, hrun.2⟩
    · cases hrun
  · cases hrun
  · cases hrun

/-- A connection whose last SELECT, of `x`, failed. -/
def strayed : Session := ⟨utf8 "x", false, ⟨0, false, true⟩⟩

/-- The same SELECT again. -/
theorem failed_dispatch_keeps_session_strayed : ∃ tr reply n',
    Among (fun (_ : Unit) _ _ => True) (strayed.dispatch abcServer 0 (request [utf8 "SELECT", utf8 "x"])) freshNode tr
      (strayed, reply) n' ∧ isError reply = true := by
  have hrun : (match (strayed.dispatch abcServer 0 (request [utf8 "SELECT", utf8 "x"])).eval steady freshNode with
      | some ((_, reply), _) => isError reply
      | none => false) = true := by decide +kernel
  have hspares : Spares abcServer strayed (request [utf8 "SELECT", utf8 "x"]) := by
    have hcmd : Command.fromFrame abcServer.text (request [utf8 "SELECT", utf8 "x"]) = .ok (.select (utf8 "x") none) := by
      decide +kernel
    unfold Spares
    rw [hcmd]
    rfl
  split at hrun
  · rename_i s' reply n' hs'
    obtain ⟨tr, hamong, -⟩ := among_of_eval (R := fun (_ : Unit) _ _ => True) hs'
    rw [(failed_dispatch_keeps_session hamong hrun).2 hspares] at hamong
    exact ⟨tr, reply, n', hamong, hrun⟩
  · cases hrun

end Failing
end QssStorage.Respcas
