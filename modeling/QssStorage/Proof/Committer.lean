import QssStorage.Conc.Meter
import QssStorage.Proof.FailingReads
import QssStorage.Proof.Group
import QssStorage.Spec.Committer

/-!
# What the committer does with the batches

Batches arrive while the committer receives, waits and commits. What it has answered, what it took
from the queue and has not answered yet, and the queue are at any time the batches that arrived, in
order (`Queued`): a batch leaves the queue only into the group or the carried slot, and the carried
slot only into the next group.

* `committer_exact`: **every batch is closed in exactly one group and told what came of it there, in
  the order of arrival, and no group is larger than the cap.**
-/

namespace QssStorage

open Conc Prog Pool List

/-! ## One outcome for each member -/

section Outcomes

theorem recordGroup_length : ∀ {members : List (List BatchEntry × Option Err)} {outcomes : List FlushOutcome} {s s' : Store},
    recordGroup members s = .ok (outcomes, s') → outcomes.length = members.length := by
  intro members
  induction members with
  | nil => intro outcomes s s' h; cases h; rfl
  | cons member members ih =>
    intro outcomes s s' h
    obtain ⟨es, refused⟩ := member
    -- the outcomes of the rest, one more in front
    have hrest : ∀ {s1 : Store} {o : FlushOutcome},
        (recordGroup members s1).map (fun r => (o :: r.1, r.2)) = .ok (outcomes, s') →
          outcomes.length = members.length + 1 := by
      intro s1 o h1
      cases hr : recordGroup members s1 with
      | error e => rw [hr] at h1; cases h1
      | ok r =>
        rw [hr] at h1
        cases h1
        rw [length_cons, ih hr]
    cases refused with
    | some e => exact hrest h
    | none =>
      simp only [recordGroup] at h
      split at h
      · cases h
      · exact hrest h

theorem replayAlone_told : ∀ members : List (List BatchEntry × Option Err),
    Steps (fun _ _ => True) (replayAlone members) fun rs => rs.length = members.length := by
  intro members
  induction members with
  | nil => exact rfl
  | cons member members ih =>
    have hrest : ∀ r : Except Err FlushOutcome, Steps (fun _ _ => True)
        ((replayAlone members).bind fun rest => .ret (r :: rest)) fun rs => rs.length = members.length + 1 :=
      fun r => Steps.bind (ih.mono (fun _ _ h => h) fun rest hrest => congrArg Nat.succ hrest)
    obtain ⟨es, refused⟩ := member
    cases refused with
    | some e => exact hrest _
    | none => exact Steps.seq (steps_any _) hrest

/-- **The close of a group has one outcome for each member.** -/
theorem closeGroup_told (members : List (List BatchEntry)) :
    Steps (fun _ _ => True) (closeGroup members) fun rs => rs.length = members.length := by
  refine Steps.seq (steps_any _) fun live => Steps.seq (steps_any _) fun placed => Steps.seq (steps_any _) fun r => ?_
  cases r with
  | error e => exact length_map _
  | ok _ =>
    refine Steps.bind ((transact_steps (fun _ => trivial) fun _ _ _ h => ⟨trivial, recordGroup_length h⟩).mono
      (fun _ _ h => h) fun outcomes hlen => ?_)
    cases outcomes with
    | ok outcomes =>
      have hall := (groupReplies_spec (hlen outcomes rfl)).1
      rw [length_map] at hall
      exact hall
    | error e => exact (replayAlone_told _).mono (fun _ _ h => h) fun rs hrs => by rw [hrs, length_map]

/-- The blocking task of a group, whether it completes or not. -/
theorem closeTask_told (panics : Option ℕ) (group : List SealedBatch) :
    Steps CloseStep (Committer.closeTask panics (group.map SealedBatch.entries))
      fun joined => (Committer.told group joined).length = group.length := by
  have hclose := (closeGroup_steps (group.map SealedBatch.entries)).and (closeGroup_told (group.map SealedBatch.entries))
  cases panics with
  | none => exact Steps.bind (hclose.mono (fun _ _ h => h.1) fun outcomes h => by rw [length_map] at h; exact h.2)
  | some n =>
    refine (hclose.upTo (n := n)).mono (fun _ _ h => h.1) fun joined h => ?_
    cases joined with
    | none => exact length_map _
    | some outcomes =>
      have hlen := (h outcomes rfl).2
      rw [length_map] at hlen
      exact hlen

theorem closeTask_unblocked (panics : Option ℕ) (members : List (List BatchEntry)) :
    Unblocked anyChoice (Committer.closeTask panics members) := by
  cases panics with
  | none => exact (closeGroup_unblocked members).bind fun _ => .ret _
  | some n => exact fun s => (closeGroup_unblocked members s).upTo

end Outcomes

/-! ## Batches on their way -/

section Queues

/-- What happens beside the committer: a batch of at most `cap` entries is submitted, or something
that leaves the queue alone and sends no reply. -/
def Arrives (cap : ℕ) : Option SealedBatch → Store → Store → Prop
  | some batch, s, s' => batch.entries.length ≤ cap ∧ batch.ticket = s.nextTicket ∧
      s' = { s with queue := s.queue ++ [batch], nextTicket := s.nextTicket + 1 }
  | none, s, s' => s'.queue = s.queue ∧ s'.nextTicket = s.nextTicket ∧ ∀ t, s.replies.get t = none → s'.replies.get t = none

/-- The replies that a step sends: the ticket, the entries of the batch, and its outcome. -/
def sends (s s' : Store) : List (ℕ × List BatchEntry × Except Err FlushOutcome) :=
  s'.replies.entries.filter fun x => (s.replies.get x.1).isNone

/-- The batches that arrived, and the replies that were sent, in order. -/
structure Ledger where
  arrived : List SealedBatch
  answered : List (ℕ × List BatchEntry × Except Err FlushOutcome)

/-- What a batch is sent. -/
def replyOf (x : SealedBatch × Except Err FlushOutcome) : ℕ × List BatchEntry × Except Err FlushOutcome :=
  (x.1.ticket, x.1.entries, x.2)

/-- The account of a run. -/
def Ledger.note (g : Ledger) : Turn (Option SealedBatch) Store → Ledger
  | .own s s' => { g with answered := g.answered ++ sends s s' }
  | .other (some batch) _ _ => { g with arrived := g.arrived ++ [batch] }
  | .other none _ _ => g

/-- The account of a whole run. -/
def accountOf (tr : List (Turn (Option SealedBatch) Store)) : Ledger := tr.foldl Ledger.note ⟨[], []⟩

variable {s s' : Store} {g : Ledger} {receive : StoreProg (Option SealedBatch)} {first : SealedBatch}
  {carried : Option SealedBatch} {fuel : ℕ}

theorem sends_eq_nil (h : s'.replies = s.replies) : sends s s' = [] := by
  refine filter_eq_nil_iff.2 ?_
  rintro ⟨t, r⟩ ht
  rw [h] at ht
  simp [OrdMap.mem_entries.1 ht]

theorem sends_reply {t : ℕ} {r : List BatchEntry × Except Err FlushOutcome} (h : s.replies.get t = none) :
    sends s { s with replies := s.replies.insert t r } = [(t, r)] := by
  have hnodup : (sends s { s with replies := s.replies.insert t r }).Nodup :=
    (OrdMap.entries_nodup _).filter _
  have hmem : ∀ x, x ∈ sends s { s with replies := s.replies.insert t r } ↔ x = (t, r) := by
    rintro ⟨u, r'⟩
    rw [sends, mem_filter, OrdMap.mem_entries, OrdMap.get_insert]
    by_cases hu : u = t
    · simp [hu, h, eq_comm]
    · simp only [hu, if_false, Prod.mk.injEq, false_and, iff_false, not_and]
      intro hget
      simp [hget]
  exact perm_singleton.1 ((perm_ext_iff_of_nodup hnodup (nodup_singleton _)).2 fun x => by
    rw [hmem, mem_singleton])

/-- **No batch is lost, doubled or overtaken**: `closed` were sent their outcomes, `taken` were
received since. -/
structure Queued (cap : ℕ) (closed : List (SealedBatch × Except Err FlushOutcome))
    (taken : List SealedBatch) (s : Store) (g : Ledger) : Prop where
  order : closed.map Prod.fst ++ taken ++ s.queue = g.arrived
  answered : g.answered = closed.map replyOf
  unanswered : ∀ t, t ∉ g.answered.map Prod.fst → s.replies.get t = none
  small : ∀ batch ∈ g.arrived, batch.entries.length ≤ cap
  tickets : (g.arrived.map SealedBatch.ticket).Nodup
  issued : ∀ batch ∈ g.arrived, batch.ticket < s.nextTicket

variable {cap : ℕ} {closed : List (SealedBatch × Except Err FlushOutcome)} {taken : List SealedBatch}

theorem Queued.tickets_answered (h : Queued cap closed taken s g) :
    g.answered.map Prod.fst = (closed.map Prod.fst).map SealedBatch.ticket := by
  rw [h.answered, map_map, map_map]
  rfl

/-- Arrivals go to the end of the queue. -/
theorem Queued.stable : Stable Ledger.note (Arrives cap) (Queued cap closed taken) := by
  intro l s s' g harrives h
  cases l with
  | none =>
    obtain ⟨hqueue, hticket, hreplies⟩ := harrives
    exact ⟨by rw [hqueue]; exact h.order, h.answered, fun t ht => hreplies t (h.unanswered t ht), h.small, h.tickets,
      fun batch hb => by rw [hticket]; exact h.issued batch hb⟩
  | some batch =>
    obtain ⟨hsmall, hticket, rfl⟩ := harrives
    refine ⟨?_, h.answered, h.unanswered, ?_, ?_, ?_⟩
    · simp only [Ledger.note, ← h.order, append_assoc]
    · exact forall_mem_append.2 ⟨h.small, forall_mem_singleton.2 hsmall⟩
    · simp only [Ledger.note, map_append, nodup_append]
      refine ⟨h.tickets, nodup_singleton _, fun x hx y hy => ?_⟩
      obtain ⟨b, hb, rfl⟩ := mem_map.1 hx
      have hissued := h.issued b hb
      rw [map_singleton, mem_singleton] at hy
      omega
    · refine forall_mem_append.2 ⟨fun b hb => Nat.lt_succ_of_lt (h.issued b hb), forall_mem_singleton.2 ?_⟩
      rw [hticket]
      exact Nat.lt_succ_self _

/-- A step of the committer that sends nothing. -/
theorem Queued.silent {taken' : List SealedBatch} (h : Queued cap closed taken s g)
    (hqueue : taken' ++ s'.queue = taken ++ s.queue) (hreplies : s'.replies = s.replies)
    (hticket : s'.nextTicket = s.nextTicket) : Queued cap closed taken' s' (g.note (.own s s')) := by
  have hnote : g.note (.own s s') = g := by rw [Ledger.note, sends_eq_nil hreplies, append_nil]
  rw [hnote]
  refine ⟨?_, h.answered, fun t ht => by rw [hreplies]; exact h.unanswered t ht, h.small, h.tickets, ?_⟩
  · rw [append_assoc, hqueue, ← append_assoc]
    exact h.order
  · intro batch hb
    rw [hticket]
    exact h.issued batch hb

/-- The block records and the files are left alone. -/
def KeepsBlocks (s s' : Store) : Prop := s'.blocks = s.blocks ∧ s'.files = s.files

/-- A program that takes at most one batch from the queue and gives it back, if need be after a wait. -/
structure Receives (receive : StoreProg (Option SealedBatch)) : Prop where
  keeps : Steps KeepsBlocks receive fun _ => True
  queued : ∀ cap closed taken, Tallies (Arrives cap) Ledger.note (Queued cap closed taken) receive
    fun r => Queued cap closed (taken ++ r.toList)
  returns : ∀ s, Proceeds receive (fun r s' => r.toList ++ s'.queue = s.queue) s

theorem receives_step {f : Choice → Store → Option (Option SealedBatch × Store)}
    (hone : ∀ e s r s', f e s = some (r, s') → ∃ queue, s' = { s with queue } ∧ r.toList ++ queue = s.queue)
    (hsome : ∀ s, ∃ e, (f e s).isSome) : Receives (Prog.step f) := by
  refine ⟨Steps.step fun e s r s' hf => ?_, fun cap closed taken => ?_,
    fun s => ⟨hsome s, fun e r s' hf => ?_⟩⟩
  · obtain ⟨queue, rfl, -⟩ := hone e s r s' hf
    exact ⟨⟨rfl, rfl⟩, trivial⟩
  · refine tallies_step Queued.stable (fun _ => Queued.stable) fun e s g r s' hf hq => ?_
    obtain ⟨queue, rfl, hqueue⟩ := hone e s r s' hf
    refine hq.silent ?_ rfl rfl
    rw [append_assoc, hqueue]
  · obtain ⟨queue, rfl, hqueue⟩ := hone e s r s' hf
    exact hqueue

theorem recvUntil_receives (deadline : ℕ) : Receives (recvUntil deadline) := by
  refine receives_step (fun e s r s' hf => ?_) fun s => ⟨{ steady with now := deadline }, ?_⟩
  · split at hf
    · rename_i hqueue
      split at hf
      · cases hf
        exact ⟨[], by rw [← hqueue], hqueue.symm⟩
      · cases hf
    · rename_i batch queue hqueue
      cases hf
      exact ⟨queue, rfl, hqueue.symm⟩
  · split
    · rw [if_pos (le_refl deadline)]
      rfl
    · rfl

theorem tryRecv_receives : Receives tryRecv := by
  refine receives_step (fun e s r s' hf => ?_) fun s => ⟨steady, ?_⟩
  · split at hf
    · rename_i hqueue
      cases hf
      exact ⟨[], by rw [← hqueue], hqueue.symm⟩
    · rename_i batch queue hqueue
      cases hf
      exact ⟨queue, rfl, hqueue.symm⟩
  · split <;> rfl

theorem recvBatch_queued : Tallies (Arrives cap) Ledger.note (Queued cap closed taken) recvBatch
    fun batch => Queued cap closed (taken ++ [batch]) := by
  refine tallies_step Queued.stable (fun _ => Queued.stable) fun e s g r s' hf hq => ?_
  split at hf
  · cases hf
  rename_i batch queue hqueue
  cases hf
  refine hq.silent ?_ rfl rfl
  rw [hqueue, append_assoc]
  rfl

/-! ## Groups -/

/-- The entries of a group. -/
def entriesOf (group : List SealedBatch) : ℕ := (group.map fun batch => batch.entries.length).sum

/-- Everything that was taken for a group. -/
def Gathered.all (g : Gathered) : List SealedBatch := g.group ++ g.carried.toList

/-- A group that is not too large. -/
structure Gathered.Fits (cap : ℕ) (g : Gathered) : Prop where
  some : g.group ≠ []
  counted : g.blocks = entriesOf g.group
  cap : g.blocks ≤ cap

theorem Gathered.all_take {g : Gathered} (hfree : g.carried = none) (cap : ℕ) (next : SealedBatch) :
    (g.take cap next).all = g.all ++ [next] := by
  unfold Gathered.take
  split
  · rw [Gathered.all, Gathered.all, hfree, Option.toList_none, append_nil]
    rfl
  · rw [Gathered.all, Gathered.all, hfree, Option.toList_none, append_nil, append_nil]

theorem Gathered.Fits.take {g : Gathered} (h : g.Fits cap) (next : SealedBatch) : (g.take cap next).Fits cap := by
  unfold Gathered.take
  split
  · exact ⟨h.some, h.counted, h.cap⟩
  · rename_i hfits
    refine ⟨append_ne_nil_of_left_ne_nil h.some _, ?_, by dsimp only; omega⟩
    dsimp only
    rw [entriesOf, map_append, sum_append, map_singleton, sum_singleton, h.counted, entriesOf]

/-- **A gathering loop**, by induction on its turns. -/
theorem gather_queued (hreceive : Receives receive) : ∀ (fuel : ℕ) {g : Gathered}, g.Fits cap →
      Tallies (Arrives cap) Ledger.note (Queued cap closed g.all) (gather cap receive fuel g)
        fun g' s l => g'.Fits cap ∧ Queued cap closed g'.all s l := by
  intro fuel
  induction fuel with
  | zero =>
    intro g _
    exact tallies_step Queued.stable (fun _ => (Stable.const _).and Queued.stable) fun e s l a s' hf => by cases hf
  | succ fuel ih =>
    intro g hfits
    unfold gather
    split
    · rename_i hmore
      refine tallies_bind (hreceive.queued cap closed g.all) fun r => ?_
      cases r with
      | none =>
        refine tallies_ret Queued.stable fun s l hq => ⟨hfits, ?_⟩
        rwa [Option.toList_none, append_nil] at hq
      | some next =>
        have hnext := ih (hfits.take next)
        rw [Gathered.all_take hmore.1] at hnext
        exact hnext
    · exact tallies_ret Queued.stable fun s l hq => ⟨hfits, hq⟩

/-- Programs that have nothing to do with the queue. -/
theorem closeStep_queued {α : Type} {p : StoreProg α} {K : α → Prop} (h : Steps CloseStep p K) :
    Tallies (Arrives cap) Ledger.note (Queued cap closed taken) p fun a s l => K a ∧ Queued cap closed taken s l :=
  tallies_quiet Queued.stable (fun s s' l hstep hq => hq.silent (by rw [hstep.queue]) hstep.refStep.replies hstep.nextTicket)
    CloseStep.refl h

/-! ## Replies -/

/-- One reply: the ticket was not answered before. -/
theorem Queued.reply {member : SealedBatch} {outcome : Except Err FlushOutcome}
    (h : Queued cap closed (member :: taken) s g) :
    Queued cap (closed ++ [(member, outcome)]) taken
      { s with replies := s.replies.insert member.ticket (member.entries, outcome) }
      (g.note (.own s { s with replies := s.replies.insert member.ticket (member.entries, outcome) })) := by
  have hfresh : member.ticket ∉ g.answered.map Prod.fst := by
    have htickets := h.tickets
    rw [← h.order, append_assoc, map_append, nodup_append] at htickets
    rw [h.tickets_answered]
    exact fun hmem => htickets.2.2 _ hmem member.ticket (by simp) rfl
  have hnote : g.note (.own s { s with replies := s.replies.insert member.ticket (member.entries, outcome) }) =
      { g with answered := g.answered ++ [replyOf (member, outcome)] } := by
    rw [Ledger.note, sends_reply (h.unanswered _ hfresh)]
    rfl
  rw [hnote]
  refine ⟨?_, ?_, ?_, h.small, h.tickets, h.issued⟩
  · rw [← h.order, map_append, append_assoc (closed.map Prod.fst)]
    rfl
  · rw [map_append, map_singleton, h.answered]
  intro t ht
  rw [map_append] at ht
  have hne : t ≠ member.ticket := fun heq => ht (by simp [heq, replyOf])
  dsimp only
  rw [OrdMap.get_insert_of_ne _ _ hne]
  exact h.unanswered t fun hmem => ht (mem_append_left _ hmem)

/-- The replies of a group, one for each member. -/
theorem sendReplies_queued :
    ∀ {group : List SealedBatch} {outcomes : List (Except Err FlushOutcome)}
      {closed : List (SealedBatch × Except Err FlushOutcome)}, outcomes.length = group.length →
      Tallies (Arrives cap) Ledger.note (Queued cap closed (group ++ taken)) (sendReplies group outcomes)
        fun _ => Queued cap (closed ++ group.zip outcomes) taken := by
  intro group
  induction group with
  | nil =>
    intro outcomes closed _
    refine tallies_ret Queued.stable fun s l hq => ?_
    rwa [zip_nil_left, append_nil]
  | cons member group ih =>
    intro outcomes closed hlen
    cases outcomes with
    | nil => cases hlen
    | cons outcome outcomes =>
      have hrest : Tallies (Arrives cap) Ledger.note
          (Queued cap (closed ++ [(member, outcome)]) (group ++ taken)) (sendReplies group outcomes)
          fun _ => Queued cap (closed ++ [(member, outcome)] ++ group.zip outcomes) taken :=
        ih (Nat.succ.inj hlen)
      rw [append_assoc, singleton_append] at hrest
      refine tallies_bind (K := fun _ => Queued cap (closed ++ [(member, outcome)]) (group ++ taken)) ?_
        fun _ => hrest
      refine tallies_step Queued.stable (fun _ => Queued.stable) fun e s l r s' hf hq => ?_
      cases hf
      exact hq.reply

/-! ## Rounds -/

variable (c : Config) (k : Committer)

/-- The leader of a group is one of the batches that arrived. -/
theorem leader_queued (carried : Option SealedBatch) :
    Tallies (Arrives cap) Ledger.note (Queued cap closed carried.toList) (Committer.leader carried)
      fun first s l => first.entries.length ≤ cap ∧ Queued cap closed [first] s l := by
  have hsmall : ∀ {first : SealedBatch} {s : Store} {l : Ledger}, Queued cap closed [first] s l → first.entries.length ≤ cap := by
    intro first s l hq
    refine hq.small first ?_
    rw [← hq.order]
    simp
  cases carried with
  | some batch => exact tallies_ret Queued.stable fun s l hq => ⟨hsmall hq, hq⟩
  | none => exact recvBatch_queued.mono fun first s l hq => ⟨hsmall hq, hq⟩

theorem gatherGroup_queued (fuel : ℕ) (hfirst : first.entries.length ≤ k.cap) :
    Tallies (Arrives k.cap) Ledger.note (Queued k.cap closed [first]) (k.gatherGroup fuel first)
      fun g s l => g.Fits k.cap ∧ Queued k.cap closed g.all s l := by
  have hstart : Gathered.Fits k.cap ⟨[first], first.entries.length, none⟩ :=
    ⟨cons_ne_nil _ _, by rw [entriesOf, map_singleton, sum_singleton], hfirst⟩
  refine tallies_bind (K := fun g s l => g.Fits k.cap ∧ Queued k.cap closed g.all s l) ?_ fun g =>
    tallies_pure fun hfits => gather_queued tryRecv_receives fuel hfits
  split
  · exact tallies_ret Queued.stable fun s l hq => ⟨hstart, hq⟩
  · exact tallies_bind (closeStep_queued (readClock_steps CloseStep.refl)) fun now => tallies_pure fun _ =>
      gather_queued (recvUntil_receives _) fuel hstart

/-- A round: the group, what the task that closed it came back with, and the turns of the round. -/
structure CommitRound where
  group : List SealedBatch
  joined : Option (List (Except Err FlushOutcome))
  turns : List (Turn (Option SealedBatch) Store)

/-- The members of the group, each with what it is told. -/
def CommitRound.outcomes (x : CommitRound) : List (SealedBatch × Except Err FlushOutcome) :=
  x.group.zip (Committer.told x.group x.joined)

/-- The turns of the committer leave the block records and the files alone. -/
def ClosesNone (tr : List (Turn (Option SealedBatch) Store)) : Prop :=
  ∀ t ∈ ownTurns tr, KeepsBlocks t.1 t.2

theorem ClosesNone.append {tr tr' : List (Turn (Option SealedBatch) Store)} (h : ClosesNone tr) (h' : ClosesNone tr') :
    ClosesNone (tr ++ tr') := by
  unfold ClosesNone ownTurns
  rw [filterMap_append]
  exact forall_mem_append.2 ⟨h, h'⟩

theorem closesNone_of_steps {α : Type} {p : StoreProg α} {K : α → Prop} {a : α} {tr : List (Turn (Option SealedBatch) Store)}
    (hrun : Among (Arrives cap) p s tr a s') (hp : Steps KeepsBlocks p K) : ClosesNone tr :=
  ownTurns_steps hrun (fun _ => ⟨rfl, rfl⟩) hp

/-- **A round of the committer**: a group that is neither empty nor beyond the cap, one outcome for
each member, and within the turns of the round the task that closes the group, from its first step
to its last, besides which the committer touches no block record and no file. -/
structure CommitRound.Sound (cap : ℕ) (panics : ℕ → Option ℕ) (x : CommitRound) : Prop where
  some : x.group ≠ []
  entries : entriesOf x.group ≤ cap
  told : (Committer.told x.group x.joined).length = x.group.length
  closed : ∃ i before s1 task s2 after, x.turns = before ++ task ++ after ∧
    Among (Arrives cap) (Committer.closeTask (panics i) (x.group.map SealedBatch.entries)) s1 task x.joined s2 ∧
    ClosesNone (before ++ after)

theorem CommitRound.Sound.members {x : CommitRound} {panics : ℕ → Option ℕ} (h : x.Sound cap panics) :
    x.outcomes.map Prod.fst = x.group := by
  rw [CommitRound.outcomes, map_fst_zip]
  exact h.told.ge

theorem sendReplies_keeps : ∀ (group : List SealedBatch) (outcomes : List (Except Err FlushOutcome)),
    Steps (fun s s' => s'.queue = s.queue ∧ KeepsBlocks s s') (sendReplies group outcomes) (fun _ => True) ∧
      Unblocked anyChoice (sendReplies group outcomes) := by
  intro group
  induction group with
  | nil => exact fun _ => ⟨trivial, .ret _⟩
  | cons member group ih =>
    intro outcomes
    cases outcomes with
    | nil => exact ⟨trivial, .ret _⟩
    | cons outcome outcomes =>
      exact ⟨Steps.seq (Steps.step fun e s r s' hf => by cases hf; exact ⟨⟨rfl, rfl, rfl⟩, trivial⟩)
          fun _ => (ih outcomes).1,
        (Unblocked.step fun e s => rfl).bind fun _ => (ih outcomes).2⟩

/-- The committing half of a round. -/
theorem commitMembers_queued {panics : Option ℕ} {group : List SealedBatch} {u : Unit}
    {tr : List (Turn (Option SealedBatch) Store)}
    (hrun : Among (Arrives cap) (Committer.commitMembers c panics group) s tr u s')
    (hq : Queued cap closed (group ++ taken) s g) :
    ∃ joined before s1 task s2 after, tr = before ++ task ++ after ∧
      Among (Arrives cap) (Committer.closeTask panics (group.map SealedBatch.entries)) s1 task joined s2 ∧
      ClosesNone before ∧ ClosesNone after ∧ (Committer.told group joined).length = group.length ∧
      Queued cap (closed ++ group.zip (Committer.told group joined)) taken s' (tr.foldl Ledger.note g) := by
  obtain ⟨tr1, _, _, s1, rfl, h1, h⟩ := among_bind hrun
  obtain ⟨tr2, _, joined, s2, rfl, h2, h⟩ := among_bind h
  obtain ⟨tr3, tr4, _, s3, rfl, h3, h4⟩ := among_bind h
  have hq1 := (closeStep_queued (steps_lockAll _) _ _ _ _ h1 _ hq).2
  obtain ⟨hlen, hq2⟩ := closeStep_queued (closeTask_told panics group) _ _ _ _ h2 _ hq1
  have hq3 := (closeStep_queued (steps_unlockAll _) _ _ _ _ h3 _ hq2).2
  have hq4 := sendReplies_queued hlen _ _ _ _ h4 _ hq3
  refine ⟨joined, tr1, s1, tr2, s2, tr3 ++ tr4, by rw [append_assoc], h2,
    closesNone_of_steps h1 (steps_lockAll _), ?_, hlen, ?_⟩
  · exact (closesNone_of_steps h3 (steps_unlockAll _)).append
      (closesNone_of_steps h4 ((sendReplies_keeps _ _).1.mono (fun _ _ h => h.2) fun _ h => h))
  · simpa only [foldl_append] using hq4

theorem gather_keeps (hreceive : Receives receive) : ∀ (fuel : ℕ) (g : Gathered),
    Steps KeepsBlocks (gather cap receive fuel g) fun _ => True := by
  intro fuel
  induction fuel with
  | zero => exact fun g => Steps.step fun e s r s' hf => by cases hf
  | succ fuel ih =>
    intro g
    unfold gather
    split
    · refine Steps.seq hreceive.keeps fun r => ?_
      cases r with
      | none => exact trivial
      | some next => exact ih _
    · exact trivial

/-- Receiving and gathering touch the queue alone. -/
theorem gatherGroup_keeps (fuel : ℕ) (first : SealedBatch) :
    Steps KeepsBlocks (k.gatherGroup fuel first) fun _ => True := by
  refine Steps.seq ?_ fun g => gather_keeps tryRecv_receives fuel g
  split
  · exact trivial
  · exact Steps.seq (readClock_steps fun _ => ⟨rfl, rfl⟩) fun now => gather_keeps (recvUntil_receives _) fuel _

theorem leader_keeps (carried : Option SealedBatch) :
    Steps KeepsBlocks (Committer.leader carried) fun _ => True := by
  cases carried with
  | some batch => exact trivial
  | none =>
    refine Steps.step fun e s r s' hf => ⟨?_, trivial⟩
    split at hf
    · cases hf
    · cases hf; exact ⟨rfl, rfl⟩

/-- **One round.** -/
theorem round_queued {panics : ℕ → Option ℕ} {i : ℕ} {tr : List (Turn (Option SealedBatch) Store)}
    {r : List SealedBatch × Option SealedBatch}
    (hrun : Among (Arrives k.cap) (k.round c (panics i) fuel carried) s tr r s')
    (hq : Queued k.cap closed carried.toList s g) :
    ∃ x : CommitRound, x.group = r.1 ∧ x.turns = tr ∧ x.Sound k.cap panics ∧
      Queued k.cap (closed ++ x.outcomes) r.2.toList s' (tr.foldl Ledger.note g) := by
  obtain ⟨tr1, _, first, s1, rfl, h1, h⟩ := among_bind hrun
  obtain ⟨tr2, _, gathered, s2, rfl, h2, h⟩ := among_bind h
  obtain ⟨tr3, tr4, _, s3, rfl, h3, rfl, ho⟩ := among_bind h
  obtain ⟨hfirst, hq1⟩ := leader_queued carried _ _ _ _ h1 _ hq
  obtain ⟨hfits, hq2⟩ := gatherGroup_queued k fuel hfirst _ _ _ _ h2 _ hq1
  obtain ⟨joined, before, t1, task, t2, after, rfl, htask, hbefore, hafter, hlen, hq3⟩ := commitMembers_queued c h3 hq2
  have hrest : Among (Arrives k.cap) (.ret () : StoreProg Unit) s3 tr4 () s' := ⟨rfl, ho⟩
  refine ⟨⟨gathered.group, joined, _⟩, rfl, rfl, ⟨hfits.some, by rw [← hfits.counted]; exact hfits.cap, hlen, i,
    tr1 ++ tr2 ++ before, t1, task, t2, after ++ tr4, by simp only [append_assoc], htask, ?_⟩, ?_⟩
  · refine ClosesNone.append (((closesNone_of_steps h1 (leader_keeps _)).append
      (closesNone_of_steps h2 (gatherGroup_keeps k fuel first))).append hbefore) (hafter.append ?_)
    exact closesNone_of_steps hrest (K := fun _ => True) trivial
  · have hq4 := Queued.stable.others ho hq3
    simpa only [foldl_append, CommitRound.outcomes] using hq4

/-- **The rounds**, by induction. -/
theorem run_queued {panics : ℕ → Option ℕ} : ∀ {n : ℕ} {closed : List (SealedBatch × Except Err FlushOutcome)}
    {carried : Option SealedBatch} {s s' : Store} {g : Ledger} {tr : List (Turn (Option SealedBatch) Store)}
    {r : List (List SealedBatch) × Option SealedBatch},
    Among (Arrives k.cap) (k.run c panics fuel n carried) s tr r s' → Queued k.cap closed carried.toList s g →
      ∃ (rounds : List CommitRound) (rest : List (Turn (Option SealedBatch) Store)),
        tr = (rounds.map CommitRound.turns).flatten ++ rest ∧ ClosesNone rest ∧ (∀ x ∈ rounds, x.Sound k.cap panics) ∧
        r.1 = rounds.map CommitRound.group ∧
        Queued k.cap (closed ++ (rounds.map CommitRound.outcomes).flatten) r.2.toList s' (tr.foldl Ledger.note g) := by
  intro n
  induction n with
  | zero =>
    rintro closed carried s s' g tr _ ⟨rfl, ho⟩ hq
    have hrest : Among (Arrives k.cap) (.ret () : StoreProg Unit) s tr () s' := ⟨rfl, ho⟩
    refine ⟨[], tr, rfl, closesNone_of_steps hrest (K := fun _ => True) trivial, nofun, rfl, ?_⟩
    rw [map_nil, flatten_nil, append_nil]
    exact Queued.stable.others ho hq
  | succ n ih =>
    intro closed carried s s' g tr r hrun hq
    obtain ⟨tr1, _, first, s1, rfl, h1, h⟩ := among_bind hrun
    obtain ⟨tr2, tr3, later, s2, rfl, h2, rfl, ho⟩ := among_bind h
    obtain ⟨x, hgroup, rfl, hx, hq1⟩ := round_queued c k h1 hq
    obtain ⟨rounds, rest, rfl, hquiet, hrounds, hgroups, hq2⟩ := ih h2 hq1
    have hidle : Among (Arrives k.cap) (.ret () : StoreProg Unit) s2 tr3 () s' := ⟨rfl, ho⟩
    refine ⟨x :: rounds, rest ++ tr3, ?_, hquiet.append (closesNone_of_steps hidle (K := fun _ => True) trivial),
      forall_mem_cons.2 ⟨hx, hrounds⟩, by rw [map_cons, hgroup, hgroups], ?_⟩
    · rw [map_cons, flatten_cons]
      simp only [append_assoc]
    · have hq3 := Queued.stable.others ho hq2
      rw [map_cons, flatten_cons, ← append_assoc]
      simpa only [foldl_append] using hq3

/-! ## Going on -/

/-- The committing half of a round never waits, and leaves the queue alone. -/
theorem commitMembers_ends (panics : Option ℕ) (group : List SealedBatch) (s : Store) :
    Ends anyChoice (Committer.commitMembers c panics group) (fun _ s' => s'.queue = s.queue) s := by
  have hsteps : Steps (fun s s' => s'.queue = s.queue) (Committer.commitMembers c panics group) fun _ => True :=
    Steps.seq (steps_lockAll _) fun _ =>
      Steps.seq ((closeTask_told panics group).mono (fun _ _ h => h.queue) fun _ _ => trivial) fun joined =>
        Steps.seq (steps_unlockAll _) fun _ => (sendReplies_keeps _ _).1.mono (fun _ _ h => h.1) fun _ h => h
  have hends : Unblocked anyChoice (Committer.commitMembers c panics group) :=
    (Unblocked.lockAll _).bind fun _ => (closeTask_unblocked panics _).bind fun joined =>
      (Unblocked.unlockAll _).bind fun _ => (sendReplies_keeps _ _).2
  refine ((hends s).and_steps (G := fun s s' => s'.queue = s.queue) (fun _ => rfl) (fun _ _ _ h h' => ?_) hsteps).mono fun _ _ h => h.2.2
  exact Eq.trans h' h

/-- **A gathering loop comes to its end** within one turn for each batch in the queue, and one more. -/
theorem gather_proceeds (hreceive : Receives receive) : ∀ {fuel : ℕ} {g : Gathered} {s : Store}, s.queue.length < fuel →
      Proceeds (gather cap receive fuel g)
        (fun g' s' => (∃ more, g'.group = g.group ++ more) ∧ g'.all ++ s'.queue = g.all ++ s.queue ∧
          s'.queue.length ≤ s.queue.length) s := by
  intro fuel
  induction fuel with
  | zero => exact fun h => absurd h (Nat.not_lt_zero _)
  | succ fuel ih =>
    intro g s hfuel
    unfold gather
    split
    · rename_i hmore
      refine proceeds_bind ((hreceive.returns s).mono fun r s1 hr => ?_)
      cases r with
      | none =>
        have hsame : s1.queue = s.queue := hr
        exact ⟨⟨[], (append_nil _).symm⟩, by rw [hsame], by rw [hsame]⟩
      | some next =>
        have hqueue : s.queue = next :: s1.queue := hr.symm
        rw [hqueue, length_cons] at hfuel
        refine (ih (Nat.lt_of_succ_lt_succ hfuel)).mono fun g' s' ⟨hgroup, hall, hlen⟩ => ⟨?_, ?_, ?_⟩
        · obtain ⟨more, hgroup⟩ := hgroup
          rw [hgroup]
          unfold Gathered.take
          split
          · exact ⟨more, rfl⟩
          · exact ⟨next :: more, append_assoc _ _ _⟩
        · rw [hall, Gathered.all_take hmore.1, hqueue, append_assoc]
          rfl
        · rw [hqueue, length_cons]
          omega
    · exact ⟨⟨[], (append_nil _).symm⟩, rfl, le_refl _⟩

theorem leader_proceeds (h : carried.toList ++ s.queue ≠ []) :
    Proceeds (Committer.leader carried) (fun first s' => [first] ++ s'.queue = carried.toList ++ s.queue ∧
      s'.queue.length ≤ s.queue.length) s := by
  cases carried with
  | some batch => exact ⟨rfl, le_refl _⟩
  | none =>
    refine ⟨⟨steady, ?_⟩, fun e r s' hf => ?_⟩
    · dsimp only
      split
      · rename_i hqueue; exact absurd hqueue h
      · rfl
    dsimp only at hf
    split at hf
    · cases hf
    · rename_i batch queue hqueue
      cases hf
      exact ⟨hqueue.symm, by rw [hqueue]; exact Nat.le_succ _⟩

theorem gatherGroup_proceeds (hfuel : s.queue.length < fuel) : Proceeds (k.gatherGroup fuel first)
      (fun g s' => g.group ≠ [] ∧ g.all ++ s'.queue = [first] ++ s.queue) s := by
  refine proceeds_bind (Proceeds.mono (Q := fun g s' => (∃ more, g.group = [first] ++ more) ∧
      g.all ++ s'.queue = [first] ++ s.queue ∧ s'.queue.length ≤ s.queue.length) (fun g s1 h => ?_) ?_)
  · obtain ⟨⟨more, hgroup⟩, hall, hlen⟩ := h
    refine (gather_proceeds tryRecv_receives (by omega)).mono fun g' s' h' => ?_
    obtain ⟨⟨more', hgroup'⟩, hall', -⟩ := h'
    exact ⟨by rw [hgroup', hgroup]; simp, by rw [hall', hall]⟩
  · split
    · exact ⟨⟨[], rfl⟩, rfl, le_refl _⟩
    · refine proceeds_bind ⟨⟨steady, rfl⟩, fun e now s1 hf => ?_⟩
      cases hf
      exact gather_proceeds (recvUntil_receives _) hfuel

/-- **A round with something to commit comes to its end**, and commits the next batches in order. -/
theorem round_proceeds (panics : Option ℕ) (h : carried.toList ++ s.queue ≠ []) (hfuel : s.queue.length < fuel) :
    Proceeds (k.round c panics fuel carried)
      (fun r s' => r.1 ≠ [] ∧ r.1 ++ r.2.toList ++ s'.queue = carried.toList ++ s.queue) s := by
  refine proceeds_bind ((leader_proceeds h).mono fun first s1 ⟨hfirst, hlen⟩ => ?_)
  refine proceeds_bind ((gatherGroup_proceeds k (Nat.lt_of_le_of_lt hlen hfuel)).mono fun g s2 ⟨hsome, hall⟩ => ?_)
  have hcommit := (commitMembers_ends c panics g.group s2).proceeds steady fun _ => trivial
  refine proceeds_bind (hcommit.mono fun _ s3 hqueue => ⟨hsome, ?_⟩)
  rw [hqueue, ← hfirst, ← hall]
  rfl

/-! ## The whole loop -/

/-- **The commit station**, from its start: whatever arrives while `n` rounds run, the run falls into
rounds, each of which gathers a group of at most `cap` entries and runs the task that closes it, once
and whole. The groups are the batches in the order they came; each member of a group is sent, once
and in that order, what its task said of it, and no other batch is sent anything; what is left is
carried or in the queue, and goes into the next groups. -/
theorem committer_exact (panics : ℕ → Option ℕ) (fuel n : ℕ) (s s' : Store)
    (tr : List (Turn (Option SealedBatch) Store)) (r : List (List SealedBatch) × Option SealedBatch)
    (hqueue : s.queue = []) (hreplies : s.replies = ∅)
    (hrun : Among (Arrives k.cap) (k.run c panics fuel n none) s tr r s') :
    ∃ (rounds : List CommitRound) (rest : List (Turn (Option SealedBatch) Store)),
      tr = (rounds.map CommitRound.turns).flatten ++ rest ∧ ClosesNone rest ∧
      (∀ x ∈ rounds, x.Sound k.cap panics) ∧ r.1 = rounds.map CommitRound.group ∧
      r.1.flatten ++ r.2.toList ++ s'.queue = (accountOf tr).arrived ∧
      ((accountOf tr).arrived.map SealedBatch.ticket).Nodup ∧
      (accountOf tr).answered = (rounds.map CommitRound.outcomes).flatten.map replyOf ∧
      (accountOf tr).answered.map Prod.fst = r.1.flatten.map SealedBatch.ticket ∧
      (r.2.toList ++ s'.queue ≠ [] → ∀ fuel', s'.queue.length < fuel' → ∀ panic,
        Proceeds (k.round c panic fuel' r.2)
          (fun r' s'' => r'.1 ≠ [] ∧ r'.1 ++ r'.2.toList ++ s''.queue = r.2.toList ++ s'.queue) s') := by
  have hstart : Queued k.cap [] (Option.toList none) s ⟨[], []⟩ :=
    ⟨hqueue, rfl, fun t _ => by rw [hreplies]; rfl, nofun, nodup_nil, nofun⟩
  obtain ⟨rounds, rest, htr, hquiet, hrounds, hgroups, hq⟩ := run_queued c k hrun hstart
  rw [nil_append] at hq
  have hmembers : (rounds.map CommitRound.outcomes).flatten.map Prod.fst = r.1.flatten := by
    rw [map_flatten, map_map, hgroups]
    exact congrArg List.flatten (map_congr_left fun x hx => (hrounds x hx).members)
  have horder := hq.order
  have htickets := hq.tickets_answered
  rw [hmembers] at horder htickets
  exact ⟨rounds, rest, htr, hquiet, hrounds, hgroups, horder, hq.tickets, hq.answered, htickets,
    fun hleft fuel' hfuel' panic => round_proceeds c k panic hleft hfuel'⟩

/-- The batches arrive one after the other, before the first turn. -/
theorem among_submitted {α : Type} {p : StoreProg α} {a : α} : ∀ (batches : List SealedBatch) {s : Store}
    {tr : List (Turn (Option SealedBatch) Store)}, (∀ batch ∈ batches, batch.entries.length ≤ cap) →
    batches.map SealedBatch.ticket = List.range' s.nextTicket batches.length →
    Among (Arrives cap) p
      { s with queue := s.queue ++ batches, nextTicket := s.nextTicket + batches.length } tr a s' →
    ∃ tr', Among (Arrives cap) p s tr' a s' := by
  intro batches
  induction batches with
  | nil => intro s tr _ _ h; rw [append_nil] at h; exact ⟨tr, h⟩
  | cons batch batches ih =>
    intro s tr hsmall htickets h
    obtain ⟨hticket, hrest⟩ := List.cons.inj htickets
    rw [append_cons, length_cons, ← Nat.add_assoc, Nat.add_right_comm] at h
    obtain ⟨tr', h'⟩ := ih (s := { s with queue := s.queue ++ [batch], nextTicket := s.nextTicket + 1 })
      (fun b hb => hsmall b (mem_cons_of_mem _ hb)) hrest h
    exact ⟨_, h'.after (l := some batch) ⟨hsmall batch mem_cons_self, hticket, rfl⟩⟩

/-- Four batches: the first two fill a group of two entries, the last one fills the next alone. -/
def fourBatches : List SealedBatch :=
  [⟨0, [⟨abcId, 3, 1, .deduped abc, none⟩]⟩, ⟨1, [⟨xId, 1, 1, .deduped [120], none⟩]⟩,
    ⟨2, [⟨abcId, 3, 1, .deduped abc, none⟩]⟩,
    ⟨3, [⟨abcId, 3, 2, .deduped abc, none⟩, ⟨xId, 1, 1, .deduped [120], none⟩]⟩]

/-- The four batches arrive, and are closed in three groups: the fourth is carried over, for it does
not fit beside the third, whose task stops before its first step. -/
theorem committer_exact_four : ∃ tr r s', ∃ rounds : List CommitRound, Among (Arrives 2)
      ((Committer.start 0 2).run abcConfig (fun i => if i = 1 then some 0 else none) 5 3 none) Store.empty tr r s' ∧
    (r.1.map (List.map SealedBatch.ticket), rcOf s' abcId, rcOf s' xId) = ([[0, 1], [2], [3]], 3, 2) ∧
    (∀ x ∈ rounds, x.Sound 2 fun i => if i = 1 then some 0 else none) ∧ r.1 = rounds.map CommitRound.group ∧
    r.1.flatten ++ r.2.toList ++ s'.queue = (accountOf tr).arrived ∧
    (accountOf tr).answered = (rounds.map CommitRound.outcomes).flatten.map replyOf := by
  have heval : (((Committer.start 0 2).run abcConfig (fun i => if i = 1 then some 0 else none) 5 3 none).eval steady
      { Store.empty with queue := fourBatches, nextTicket := 4 }).map
      (fun x => (x.1.1.map (List.map SealedBatch.ticket), rcOf x.2 abcId, rcOf x.2 xId)) =
        some ([[0, 1], [2], [3]], 3, 2) := by decide +kernel
  obtain ⟨⟨r, s'⟩, heval, hres⟩ := Option.map_eq_some_iff.1 heval
  obtain ⟨tr, hrun, -⟩ := among_of_eval (R := Arrives 2) heval
  obtain ⟨tr, hamong⟩ := among_submitted fourBatches (s := Store.empty) (by decide) rfl hrun
  obtain ⟨rounds, rest, -, -, hrounds, hgroups, horder, -, hanswered, -⟩ := committer_exact abcConfig
    (Committer.start 0 2) (fun i => if i = 1 then some 0 else none) 5 3 _ _ _ _ rfl rfl hamong
  exact ⟨_, _, _, rounds, hamong, hres, hrounds, hgroups, horder, hanswered⟩

end Queues

end QssStorage
