import QssStorage.Proof.Group

/-!
# The commit station

A request that submits a batch holds a ticket; the committer that takes the batch holds the
duty to answer it; an outcome on its way carries the references it stands for. A request
that is gone when its outcome arrives leaves those references behind.

* `commitGroup_ok`: a round of the committer owes nothing afterwards.
-/

namespace QssStorage

open Conc Hand List OrdMap
open SealedBatch (pair entries)

variable {n : ℕ} {m : Mode}
variable {s : Store} {es : List BatchEntry} {r : Hand} {t : ℕ}

/-- A change of the station's queue and outcomes: what waits now and what is in hand now add
up as before. -/
theorem Core.station {g g' : Hand} (h : Core m s g) (queue : List SealedBatch)
    (replies : OrdMap ℕ (List BatchEntry × Except Err FlushOutcome)) (next : ℕ)
    (hrefs : (replies.sum fun _ => replyRefs) + g'.refs = waitingRefs s + g.refs) (hstrays : g'.strays = g.strays)
    (hbatches : ∀ q ∈ queue, BatchOk q.entries)
    (hreplied : m.Clean → ∀ t r, replies.get t = some r → ∃ o, r.2 = .ok o)
    (hpending : (queue.map pair : Multiset _) + g'.duties + (replies.sum fun t r => {(t, r.1)}) ≤ g'.tickets)
    (htickets : (g'.tickets.map Prod.fst).Nodup ∧ ∀ t ∈ g'.tickets, t.1 < next) :
    Core m { s with queue := queue, replies := replies, nextTicket := next } g' := by
  refine ⟨?_, h.placed, by rw [hstrays]; exact h.strays, hbatches, hreplied, hpending, htickets,
    fun hm => (h.strict hm).congr rfl rfl rfl⟩
  intro b
  have h1 : named m.parts { s with queue := queue, replies := replies, nextTicket := next } + g'.refs =
      named m.parts s + g.refs := by
    unfold named
    rw [add_assoc, add_assoc (_ + _) (waitingRefs s)]
    exact congrArg _ hrefs
  rw [h1]
  exact h.counts b

/-! ## The request's side -/

theorem Core.submit (hb : BatchOk es) (hc : Core m s (0 + r)) :
    Core m { s with queue := s.queue ++ [⟨s.nextTicket, es⟩], nextTicket := s.nextTicket + 1 }
      (ofTicket (s.nextTicket, es) + r) := by
  rw [zero_add] at hc
  refine hc.station _ _ _ (by simp [ofTicket, waitingRefs]) (by simp [ofTicket]) ?_ hc.replied ?_ ⟨?_, ?_⟩
  · intro q hq
    rcases mem_append.1 hq with hq | hq
    · exact hc.batches q hq
    · rw [mem_singleton.1 hq]; exact hb
  · rw [add_tickets, add_duties, ofTicket, map_append, ← Multiset.coe_add]
    refine le_trans (le_of_eq ?_) (add_le_add_right hc.pending _)
    simp only [pendingTickets, map_cons, map_nil, Multiset.coe_singleton, pair, zero_add]
    abel
  · rw [add_tickets, ofTicket, Multiset.map_add, Multiset.map_singleton, Multiset.singleton_add, Multiset.nodup_cons]
    refine ⟨fun hmem => ?_, hc.tickets.1⟩
    obtain ⟨t, ht, heq⟩ := Multiset.mem_map.1 hmem
    have := hc.tickets.2 t ht
    omega
  · intro t ht
    rw [add_tickets, ofTicket] at ht
    rcases Multiset.mem_add.1 ht with ht | ht
    · rw [Multiset.mem_singleton.1 ht]; exact Nat.lt_succ_self _
    · exact Nat.lt_succ_of_lt (hc.tickets.2 t ht)

theorem submit_ok (hb : BatchOk es) : wp (ledger n m) (submit es) (fun t g => g = ofTicket (t, es)) 0 := by
  refine wp_step_free rfl ?_
  intro s r hc e _ v s' hf
  cases hf
  exact ⟨SameBlock.refl _, _, rfl, hc.submit hb, rfl⟩

/-- The outcome under a ticket is that of the batch the ticket was given for. -/
theorem Core.ticket_entries {reply : List BatchEntry × Except Err FlushOutcome}
    (hc : Core m s (ofTicket (t, es) + r)) (hget : s.replies.get t = some reply) : reply.1 = es := by
  have hmem : (t, reply.1) ∈ (ofTicket (t, es) + r).tickets := by
    refine Multiset.mem_of_le hc.pending ?_
    unfold pendingTickets
    rw [sum_of_get _ hget]
    simp
  have hself : (t, es) ∈ (ofTicket (t, es) + r).tickets := by simp [ofTicket]
  have h := Multiset.inj_on_of_nodup_map hc.tickets.1 _ hmem _ hself rfl
  exact congrArg Prod.snd h

theorem Core.receive {outcome : Except Err FlushOutcome} (hc : Core m s (ofTicket (t, es) + r))
    (hget : s.replies.get t = some (es, outcome)) :
    Core m { s with replies := s.replies.erase t } (ofRefs (replyRefs (es, outcome)) + r) := by
  have hnodup := hc.tickets.1
  simp only [add_tickets, ofTicket, Multiset.singleton_add, Multiset.map_cons, Multiset.nodup_cons] at hnodup
  refine hc.station s.queue _ s.nextTicket ?_ rfl hc.batches ?_ ?_ ⟨?_, ?_⟩
  · rw [waitingRefs, sum_of_get (fun _ => replyRefs) hget]
    simp only [add_refs, ofRefs, ofTicket, zero_add]
    abel
  · intro hm t' r' hr'
    rw [get_erase] at hr'
    split at hr'
    · cases hr'
    · exact hc.replied hm t' r' hr'
  · have hp := hc.pending
    unfold pendingTickets at hp
    rw [sum_of_get _ hget] at hp
    simp only [add_duties, add_tickets, ofTicket, ofRefs, zero_add] at hp ⊢
    refine le_of_add_le_add_left (a := {(t, es)}) ?_
    refine le_trans (le_of_eq ?_) hp
    abel
  · simpa [ofRefs] using hnodup.2
  · intro t' ht'
    refine hc.tickets.2 t' ?_
    simp only [add_tickets, ofRefs, zero_add] at ht'
    simp [ht']

/-- **A request at the station** ends as if it had closed its batch alone. -/
theorem stationClose_ok (hb : BatchOk es) : wp (ledger n m) (stationClose es)
      (fun r g => g = ofRefs (replyRefs (es, r)) ∧ ∀ e, r = .error e → ¬ m.Clean) 0 := by
  refine wp_bind (wp_mono ?_ (submit_ok hb))
  rintro t g rfl
  refine wp_step_free rfl ?_
  intro s r hc e _ v s' hf
  obtain ⟨reply, hget, heq⟩ := Option.map_eq_some_iff.1 hf
  cases heq
  obtain ⟨es', outcome⟩ := reply
  have hes : es' = es := hc.ticket_entries hget
  subst hes
  refine ⟨SameBlock.refl _, _, rfl, hc.receive hget, rfl, ?_⟩
  rintro err rfl hm
  obtain ⟨o, ho⟩ := hc.replied hm t _ hget
  cases ho

/-! ## The committer's side -/

theorem Core.takeGroup {group rest : List SealedBatch} (hq : s.queue = group ++ rest) (hc : Core m s (0 + r)) :
    Core m { s with queue := rest } (ofDuties (group.map pair) + r) := by
  rw [zero_add] at hc
  refine hc.station _ s.replies s.nextTicket (by simp [ofDuties, waitingRefs])
    (by simp [ofDuties]) (fun q hmem => hc.batches q (by rw [hq]; exact mem_append_right _ hmem)) hc.replied
    ?_ (by simpa [ofDuties] using hc.tickets)
  have hp := hc.pending
  unfold pendingTickets at hp
  rw [hq, map_append, ← Multiset.coe_add] at hp
  simp only [add_duties, add_tickets, ofDuties, zero_add]
  refine le_trans (le_of_eq ?_) hp
  abel

theorem takeGroup_ok (more : ℕ) : wp (ledger n m) (takeGroup more)
      (fun group g => g = ofDuties (group.map pair) ∧ ∀ q ∈ group, BatchOk q.entries) 0 := by
  refine wp_step_free rfl ?_
  intro s r hc e _ v s' hf
  have hq : s.queue = s.queue.take (more + 1) ++ s.queue.drop (more + 1) := (take_append_drop _ _).symm
  split at hf
  · cases hf
  · cases hf
    refine ⟨SameBlock.refl _, _, rfl, hc.takeGroup hq, rfl, ?_⟩
    intro q hmem
    exact hc.batches q (mem_of_mem_take hmem)

theorem Core.send {outcome : Except Err FlushOutcome} (hok : m.Clean → ∃ o, outcome = .ok o)
    (hc : Core m s (ofDuties {(t, es)} + ofRefs (replyRefs (es, outcome)) + r)) :
    Core m { s with replies := s.replies.insert t (es, outcome) } (0 + r) := by
  have hp := hc.pending
  unfold pendingTickets at hp
  simp only [add_duties, add_tickets, ofDuties, ofRefs, zero_add, add_zero] at hp
  -- no outcome was sent yet: the ticket is pending once
  have hfresh : s.replies.get t = none := by
    cases hget : s.replies.get t with
    | none => rfl
    | some reply =>
      rw [sum_of_get _ hget] at hp
      have htwo : ({(t, es)} : Multiset (ℕ × List BatchEntry)) + {(t, reply.1)} ≤ r.tickets := by
        refine le_trans ?_ hp
        have hrest : ({(t, es)} : Multiset (ℕ × List BatchEntry)) + {(t, reply.1)} ≤
            {(t, es)} + {(t, reply.1)} + ((s.queue.map pair : Multiset (ℕ × List BatchEntry)) + r.duties +
              OrdMap.sum (fun t r => {(t, r.1)}) (s.replies.erase t)) := Multiset.le_add_right _ _
        refine le_trans hrest (le_of_eq ?_)
        abel
      have hnd : (r.tickets.map Prod.fst).Nodup := by
        simpa [ofDuties, ofRefs] using hc.tickets.1
      have hle := Multiset.nodup_of_le (Multiset.map_le_map htwo) hnd
      simp at hle
  refine hc.station s.queue _ s.nextTicket ?_ (by simp [ofDuties, ofRefs]) hc.batches ?_ ?_
    (by simpa [ofDuties, ofRefs] using hc.tickets)
  · rw [waitingRefs, sum_insert_of_get_eq_none _ hfresh]
    simp only [add_refs, ofRefs, ofDuties, zero_add]
    abel
  · intro hm t' r' hr'
    rw [get_insert] at hr'
    split at hr'
    · cases hr'; exact hok hm
    · exact hc.replied hm t' r' hr'
  · rw [sum_insert_of_get_eq_none _ hfresh, zero_add]
    refine le_trans (le_of_eq ?_) hp
    abel

/-- Sending the outcomes of a group discharges its duties, and the references go with them. -/
theorem sendReplies_ok : ∀ {group : List SealedBatch} {outcomes : List (Except Err FlushOutcome)},
    outcomes.length = group.length → (m.Clean → ∀ r ∈ outcomes, ∃ o, r = .ok o) →
    wp (ledger n m) (sendReplies group outcomes) (fun _ g => g = 0)
      (ofDuties (group.map pair) + ofRefs (repliedRefs (group.map entries) outcomes)) := by
  intro group
  induction group with
  | nil => intro outcomes _ _; cases outcomes <;> rfl
  | cons q group ih =>
    intro outcomes hlen hok
    cases outcomes with
    | nil => cases hlen
    | cons outcome outcomes =>
      rw [length_cons, length_cons, Nat.add_right_cancel_iff] at hlen
      have hih := ih hlen fun hm r hr => hok hm r (mem_cons_of_mem _ hr)
      -- this member's duty and references, and those of the others
      have hsplit : ofDuties ((q :: group).map pair : List (ℕ × List BatchEntry)) +
          ofRefs (repliedRefs ((q :: group).map entries) (outcome :: outcomes)) =
          (ofDuties {(q.ticket, q.entries)} + ofRefs (replyRefs (q.entries, outcome))) +
            (ofDuties (group.map pair : List (ℕ × List BatchEntry)) +
              ofRefs (repliedRefs (group.map entries) outcomes)) := by
        rw [map_cons, map_cons, repliedRefs_cons]
        ext1 <;> simp [ofDuties, ofRefs, pair, ← Multiset.singleton_add, ← Multiset.cons_coe]
      rw [hsplit]
      have hsend : wp (ledger n m) (sendReply q outcome) (fun _ g => g = 0)
          (ofDuties {(q.ticket, q.entries)} + ofRefs (replyRefs (q.entries, outcome))) := by
        refine wp_step_free rfl ?_
        intro s r hc e _ v s' hf
        cases hf
        exact ⟨SameBlock.refl _, 0, rfl, hc.send fun hm => hok hm _ mem_cons_self, rfl⟩
      refine wp_bind (wp_framed hsend ?_)
      rintro _ g rfl
      rw [zero_add]
      exact hih

/-- **A round of the committer** leaves nothing in hand. -/
theorem commitGroup_ok (c : Config) (more : ℕ) : wp (ledger c.stripes m) (commitGroup c more) (fun _ g => Leak m g) 0 := by
  refine wp_bind (wp_mono ?_ (takeGroup_ok more))
  rintro group g ⟨rfl, hbatch⟩
  have hL : ∀ e ∈ (group.map entries).flatten, stripeOf c.stripes e.id ∈
      (batchStripes c.stripes ((group.map entries).flatten.map BatchEntry.id) : Multiset ℕ) :=
    fun e he => mem_batchStripes (mem_map.2 ⟨e, he, rfl⟩)
  have hpos : ∀ e ∈ (group.map entries).flatten, 1 ≤ e.occurrences := by
    intro e he
    obtain ⟨es, hes, he⟩ := mem_flatten.1 he
    obtain ⟨q, hq, rfl⟩ := mem_map.1 hes
    exact (hbatch q hq).pos e he
  refine wp_bind (wp_lockBatch rfl fun s => ?_)
  have hclose : wp (ledger c.stripes m) (closeGroup (group.map entries)) _ (hold _ s + 0) :=
    closeGroup_ok hL hpos
  rw [add_zero] at hclose
  refine wp_bind (wp_framed hclose ?_)
  rintro outcomes g ⟨s1, l, hlen, rfl, hl, hall⟩
  rw [length_map] at hlen
  rw [add_assoc]
  refine wp_bind (wp_unlockBatch (by simp only [add_views, hl.1]; rfl) ?_)
  have hsplit : ofRefs (repliedRefs (group.map entries) outcomes) + l +
      ofDuties (group.map pair : List (ℕ × List BatchEntry)) =
      (ofDuties (group.map pair : List (ℕ × List BatchEntry)) +
        ofRefs (repliedRefs (group.map entries) outcomes)) + l := by abel
  rw [hsplit]
  refine wp_framed (sendReplies_ok hlen hall) ?_
  rintro _ g rfl
  rw [zero_add]
  exact hl

end QssStorage
