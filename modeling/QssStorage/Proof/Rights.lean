import QssStorage.Proof.Bindings
import QssStorage.Proof.Flush

/-!
# Who is an administrator

A connection starts with the rights of an administrator only if the server has no admin password.
An AUTH with the password gives them, and a SELECT hands them to its new handler.

* `served_rights`: **nobody gains the rights without the admin password.**
-/

namespace QssStorage.Respcas

open Conc Prog
open Resp2 (Frame)

variable {c : RespConfig} {me : ℕ} {s : Session}

/-- An AUTH with the admin password. -/
def Proves (c : RespConfig) (frame : Frame) : Prop :=
  ∃ password, Command.fromFrame c.text frame = .ok (.auth password) ∧ c.adminPassword = some password

/-- The connection or its handler has the rights of an administrator. -/
def Session.IsAdmin (s : Session) : Prop := s.connAdmin = true ∨ s.handler.isAdmin = true

theorem new_steps (o : ℕ) (isAdmin : Bool) :
    Steps (fun _ _ => True) (CommandHandler.new me o isAdmin) fun h => h.isAdmin = isAdmin :=
  holding_steps (fun _ _ _ => trivial) me _ _ (Steps.seq (steps_any _) fun _ => Steps.seq (steps_any _) fun _ => rfl)

/-- One command gives the rights only if it proves the password. -/
theorem dispatch_rights (frame : Frame) : Steps (fun _ _ => True) (s.dispatch c me frame) fun r =>
    r.1.IsAdmin → s.IsAdmin ∨ Proves c frame := by
  unfold Session.dispatch
  cases hcmd : Command.fromFrame c.text frame with
  | error e => exact .inl
  | ok cmd =>
    cases cmd with
    | select name password =>
      refine Steps.seq (steps_any _) fun _ => Steps.seq (steps_any _) fun r => ?_
      cases r with
      | error e => exact .inl
      | ok o =>
        refine Steps.seq (steps_any _) fun _ => Steps.seq (steps_any _) fun _ => Steps.bind ((new_steps o _).mono
          (fun _ _ h => h) fun handler hnew => Steps.seq (steps_any _) fun _ => ?_)
        rintro (h | h)
        · exact .inl (.inl h)
        · exact .inl (.inl (hnew.symm.trans h))
    | auth password =>
      show Steps _ (authenticate c me s password) _
      unfold authenticate
      split
      · exact .inl
      rename_i admin hadmin
      split
      · exact .inl
      · rename_i hpw
        have hproves : Proves c frame := ⟨password, hcmd, by rw [hadmin, not_not.1 hpw]⟩
        exact (steps_any _).mono (fun _ _ h => h) fun _ _ _ => .inr hproves
    | _ => exact (execute_steps _).mono (fun _ _ h => h) fun r hr h => .inl (hr ▸ h)

/-- **Nobody gains the rights of an administrator without the admin password**, whatever a connection sends and whatever
others do between its steps. -/
theorem served_rights : ∀ (frames : List Frame) (s : Session), Steps (fun _ _ => True) (served c me s frames) fun s' =>
    s'.IsAdmin → s.IsAdmin ∨ ∃ frame ∈ frames, Proves c frame := by
  intro frames
  induction frames with
  | nil => exact fun _ => .inl
  | cons frame frames ih =>
    intro s
    refine Steps.bind ((dispatch_rights frame).mono (fun _ _ h => h) fun r hr => (ih r.1).mono (fun _ _ h => h)
      fun s' hs' hadmin => ?_)
    rcases hs' hadmin with h | ⟨f, hf, hproves⟩
    · exact (hr h).imp_right fun hproves => ⟨frame, List.mem_cons_self, hproves⟩
    · exact .inr ⟨f, List.mem_cons_of_mem _ hf, hproves⟩

end QssStorage.Respcas
