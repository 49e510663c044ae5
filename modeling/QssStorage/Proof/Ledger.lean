import QssStorage.Conc.Logic
import QssStorage.Spec.Multipart

/-!
# The ledger of block references

Every reference a block record counts is either *named*, by an object record, a part
record or an outcome waiting for its request, or it is *in hand*: taken by an operation
that has not written its record yet, or left behind by one that failed or was stopped.
`Core` says that the count is exactly the sum, that a live record has its file, and that
a file no live record names is a stray in somebody's hand. A thread that holds stripes
knows the records and files of their blocks (`Hand.views`), since only holders of the
stripe change them.

* `wp_lockAll`, `wp_unlockAll`: the rules of the stripes.
-/

namespace QssStorage

open Conc Multiset

variable {s s0 : Store} {L : Multiset ℕ}
variable {β : Type} {ids : List BlockId} {i : ℕ} {f : Choice → Store → Option (β × Store)}

/-! ## What names a block -/

/-- The references of an object record. -/
def objectCellRefs : Cell Object → Multiset BlockId
  | .record o => o.blocks
  | .garbage => 0

/-- The references of a part record. -/
def partCellRefs : Cell MultiPart → Multiset BlockId
  | .record p => p.blocks
  | .garbage => 0

/-- The references a batch adds. -/
def entryRefs (entries : List BatchEntry) : Multiset BlockId :=
  (entries.map fun e => Multiset.replicate e.occurrences e.id).sum

/-- The references behind an outcome that waits for its request. -/
def replyRefs : List BatchEntry × Except Err FlushOutcome → Multiset BlockId
  | (entries, .ok _) => entryRefs entries
  | (_, .error _) => 0

def objectRefs (s : Store) : Multiset BlockId := s.trees.sum fun _ t => t.sum fun _ => objectCellRefs

def partRefs (s : Store) : Multiset BlockId := s.parts.sum fun _ => partCellRefs

def waitingRefs (s : Store) : Multiset BlockId := s.replies.sum fun _ => replyRefs

/-- Every occurrence of a block in a record, and in the outcomes on their way. -/
def named (parts : Bool) (s : Store) : Multiset BlockId :=
  objectRefs s + (if parts then partRefs s else 0) + waitingRefs s

/-- The count in a block's record; 0 without a decodable one. -/
def rcOf (s : Store) (b : BlockId) : ℕ :=
  match s.blocks.get b with
  | some (.record blk) => blk.rc
  | _ => 0

/-- The block has a record that is not degraded and puts its file at depth `d`. -/
def LiveAt (s : Store) (b : BlockId) (d : ℕ) : Prop :=
  ∃ blk, s.blocks.get b = some (.record blk) ∧ blk.degraded = false ∧ diskDepth b blk.depth = d

/-- A file at depth `d`. -/
def FileAt (s : Store) (b : BlockId) (d : ℕ) : Prop := (s.files.get (toLex (b, d))).isSome

/-- A batch as the accumulator builds it: distinct blocks, each with a reference to add. -/
structure BatchOk (entries : List BatchEntry) : Prop where
  nodup : (entries.map BatchEntry.id).Nodup
  pos : ∀ e ∈ entries, 1 ≤ e.occurrences
  depth : ∀ e ∈ entries, e.depth = e.payload.depth

/-- Every record decodes, and every block record is live and counted. -/
structure Strict (s : Store) : Prop where
  blocks : ∀ b cell, s.blocks.get b = some cell → ∃ blk, cell = .record blk ∧ blk.degraded = false ∧ 1 ≤ blk.rc
  objects : ∀ bucket key cell, (s.tree bucket).get key = some cell → ∃ o, cell = .record o
  usage : ∀ bucket cell, s.usage.get bucket = some cell → ∃ n, cell = .record n

/-! ## What a thread has in hand -/

/-- References, stray files, awaited outcomes, outcomes to be sent, and the stripes held,
each with a state its blocks agree with. -/
@[ext]
structure Hand where
  refs : Multiset BlockId
  strays : Multiset (BlockId × ℕ)
  tickets : Multiset (ℕ × List BatchEntry)
  duties : Multiset (ℕ × List BatchEntry)
  views : Multiset (ℕ × Store)

variable {x : Hand} {Q : Unit → Hand → Prop}

namespace Hand

instance : Zero Hand := ⟨⟨0, 0, 0, 0, 0⟩⟩

instance : Add Hand :=
  ⟨fun a b => ⟨a.refs + b.refs, a.strays + b.strays, a.tickets + b.tickets, a.duties + b.duties, a.views + b.views⟩⟩

@[simp] theorem zero_refs : (0 : Hand).refs = 0 := rfl
@[simp] theorem zero_strays : (0 : Hand).strays = 0 := rfl
@[simp] theorem zero_tickets : (0 : Hand).tickets = 0 := rfl
@[simp] theorem zero_duties : (0 : Hand).duties = 0 := rfl
@[simp] theorem zero_views : (0 : Hand).views = 0 := rfl
@[simp] theorem add_refs (a b : Hand) : (a + b).refs = a.refs + b.refs := rfl
@[simp] theorem add_strays (a b : Hand) : (a + b).strays = a.strays + b.strays := rfl
@[simp] theorem add_tickets (a b : Hand) : (a + b).tickets = a.tickets + b.tickets := rfl
@[simp] theorem add_duties (a b : Hand) : (a + b).duties = a.duties + b.duties := rfl
@[simp] theorem add_views (a b : Hand) : (a + b).views = a.views + b.views := rfl

instance : AddCommMonoid Hand where
  add_assoc a b c := by ext1 <;> simp [add_assoc]
  zero_add a := by ext1 <;> simp
  add_zero a := by ext1 <;> simp
  add_comm a b := by ext1 <;> simp [add_comm]
  nsmul := nsmulRec

/-- References in hand. -/
def ofRefs (m : Multiset BlockId) : Hand := ⟨m, 0, 0, 0, 0⟩

/-- Stray files in hand. -/
def ofStrays (m : Multiset (BlockId × ℕ)) : Hand := ⟨0, m, 0, 0, 0⟩

/-- An outcome that is awaited. -/
def ofTicket (t : ℕ × List BatchEntry) : Hand := ⟨0, 0, {t}, 0, 0⟩

/-- Outcomes to be sent. -/
def ofDuties (m : Multiset (ℕ × List BatchEntry)) : Hand := ⟨0, 0, 0, m, 0⟩

/-- The stripes `L`, whose blocks are as in `s`. -/
def hold (L : Multiset ℕ) (s : Store) : Hand := ⟨0, 0, 0, 0, L.map fun i => (i, s)⟩

@[simp] theorem hold_zero (s : Store) : hold 0 s = 0 := rfl

@[simp] theorem ofRefs_zero : ofRefs 0 = 0 := rfl

@[simp] theorem ofStrays_zero : ofStrays 0 = 0 := rfl

theorem ofRefs_add (a b : Multiset BlockId) : ofRefs (a + b) = ofRefs a + ofRefs b := by
  ext1 <;> simp [ofRefs]

theorem ofStrays_add (a b : Multiset (BlockId × ℕ)) : ofStrays (a + b) = ofStrays a + ofStrays b := by
  ext1 <;> simp [ofStrays]

end Hand

open Hand

/-- What is being kept: are parts counted, did the store start exact, and what may
the environment answer. -/
structure Mode where
  parts : Bool
  strict : Bool
  allow : Choice → Prop

/-- An exact start and no failures. -/
def Mode.Clean (m : Mode) : Prop := m.strict = true ∧ ∀ e, m.allow e → e.Fine

/-- The ticket and the entries of a batch. -/
def SealedBatch.pair (q : SealedBatch) : ℕ × List BatchEntry := (q.ticket, q.entries)

/-- The batches that are queued, being closed, or closed with an outcome that waits. -/
def pendingTickets (s : Store) (g : Hand) : Multiset (ℕ × List BatchEntry) :=
  (s.queue.map SealedBatch.pair : Multiset (ℕ × List BatchEntry)) + g.duties + s.replies.sum fun t r => {(t, r.1)}

/-- **The ledger balances.** -/
structure Core (m : Mode) (s : Store) (g : Hand) : Prop where
  counts : ∀ b, rcOf s b = (named m.parts s + g.refs).count b
  placed : ∀ b d, LiveAt s b d → FileAt s b d
  strays : ∀ b d, FileAt s b d → LiveAt s b d ∨ (b, d) ∈ g.strays
  batches : ∀ q ∈ s.queue, BatchOk q.entries
  replied : m.Clean → ∀ t r, s.replies.get t = some r → ∃ o, r.2 = .ok o
  pending : pendingTickets s g ≤ g.tickets
  tickets : (g.tickets.map Prod.fst).Nodup ∧ ∀ t ∈ g.tickets, t.1 < s.nextTicket
  strict : m.strict = true → Strict s

/-- The record and the files of a block are the same in both states. -/
def SameBlock (s s' : Store) (b : BlockId) : Prop :=
  s'.blocks.get b = s.blocks.get b ∧ ∀ d, s'.files.get (toLex (b, d)) = s.files.get (toLex (b, d))

theorem SameBlock.refl (s : Store) (b : BlockId) : SameBlock s s b := ⟨rfl, fun _ => rfl⟩

theorem SameBlock.trans {s s' s'' : Store} {b : BlockId} (h : SameBlock s s' b) (h' : SameBlock s' s'' b) :
    SameBlock s s'' b :=
  ⟨h'.1.trans h.1, fun d => (h'.2 d).trans (h.2 d)⟩

/-- The blocks of the stripes `L` are the same in both states. -/
def Agree (n : ℕ) (L : Multiset ℕ) (s s' : Store) : Prop := ∀ b, stripeOf n b ∈ L → SameBlock s s' b

/-- Each stripe is held once, and its blocks are as its holder knows them. -/
structure Views (n : ℕ) (s : Store) (g : Hand) : Prop where
  nodup : (g.views.map Prod.fst).Nodup
  same : ∀ v ∈ g.views, ∀ b, stripeOf n b = v.1 → SameBlock v.2 s b

/-- The protocol of the ledger. -/
def ledger (n : ℕ) (m : Mode) : Protocol Store Choice ℕ Hand where
  allow _ e := m.allow e
  within := Store.Fits
  tok := { toFun := fun g => g.views.map Prod.fst, map_zero' := rfl, map_add' := fun a b => by simp }
  inv s g := Core m s g ∧ Views n s g

/-- The same for a thread whose steps get only answers of `A`. -/
abbrev ledgerOn (n : ℕ) (m : Mode) (A : Store → Choice → Prop) : Protocol Store Choice ℕ Hand :=
  { ledger n m with allow := A }

@[simp] theorem ledger_tok (n : ℕ) (m : Mode) (g : Hand) : (ledger n m).tok g = g.views.map Prod.fst := rfl

/-! ## The rule of one step -/

variable {n : ℕ} {m : Mode} {A : Store → Choice → Prop}

/-- `Core` does not look at the stripes. -/
theorem Core.congr {g g' : Hand} (h : Core m s g) (hr : g'.refs = g.refs)
    (hs : g'.strays = g.strays) (ht : g'.tickets = g.tickets) (hd : g'.duties = g.duties) : Core m s g' := by
  have hp : pendingTickets s g' = pendingTickets s g := by unfold pendingTickets; rw [hd]
  refine ⟨?_, h.placed, ?_, h.batches, h.replied, ?_, ?_, h.strict⟩
  · rw [hr]; exact h.counts
  · rw [hs]; exact h.strays
  · rw [hp, ht]; exact h.pending
  · rw [ht]; exact h.tickets

theorem core_hold {x r : Hand} : Core m s (hold L s0 + x + r) ↔ Core m s (x + r) := by
  constructor <;> intro h <;> refine h.congr ?_ ?_ ?_ ?_ <;> simp [hold]

/-- The blocks of the stripes a thread holds are as it knows them. -/
theorem Views.agree {g : Hand} (h : Views n s (hold L s0 + g)) : Agree n L s0 s := by
  intro b hb
  refine h.same (stripeOf n b, s0) ?_ b rfl
  rw [add_views]
  exact mem_add.2 (.inl (mem_map.2 ⟨_, hb, rfl⟩))

/-- A step that changes only blocks of the stripes `L` is invisible to every other holder. -/
theorem Views.step {s s' s0 s1 : Store} {x x' r : Hand}
    (h : Views n s (hold L s0 + x + r)) (hx : x.views = 0) (hx' : x'.views = 0)
    (hout : ∀ b, stripeOf n b ∉ L → SameBlock s s' b) (hin : Agree n L s1 s') :
    Views n s' (hold L s1 + x' + r) := by
  have hv : (hold L s0 + x + r).views.map Prod.fst = L + r.views.map Prod.fst := by
    simp [hold, hx]
  have hv' : (hold L s1 + x' + r).views.map Prod.fst = L + r.views.map Prod.fst := by
    simp [hold, hx']
  have hnd := h.nodup
  rw [hv] at hnd
  refine ⟨by rw [hv']; exact hnd, ?_⟩
  intro v hmem b hb
  simp only [add_views, hx', hold, add_zero, mem_add, mem_map] at hmem
  rcases hmem with ⟨i, hi, rfl⟩ | hr
  · exact hin b (by rw [hb]; exact hi)
  -- the frame's stripes are not ours
  have hd := (nodup_add.1 hnd).2.2
  have hb' : stripeOf n b ∉ L := by
    rw [hb]
    intro hL
    exact disjoint_left.1 hd hL (mem_map.2 ⟨v, hr, rfl⟩)
  refine (h.same v ?_ b hb).trans (hout b hb')
  simp only [add_views, mem_add]
  exact .inr hr

/-- **The rule of one atomic step** by a thread that holds the stripes `L`, whose blocks it
knows to be as in `s0`: it may change blocks of these stripes only, has to keep the
ledger balanced, and says what it knows afterwards. -/
theorem wp_step {Q : β → Hand → Prop} (hx : x.views = 0)
    (h : ∀ s r, Core m s (x + r) → Agree n L s0 s → ∀ e, A s e → ∀ v s', f e s = some (v, s') → s'.Fits →
      (∀ b, stripeOf n b ∉ L → SameBlock s s' b) ∧
        ∃ x' s1, x'.views = 0 ∧ Agree n L s1 s' ∧ Core m s' (x' + r) ∧ Q v (hold L s1 + x')) :
    wp (ledgerOn n m A) (Prog.step f) Q (hold L s0 + x) := by
  intro s r hinv e he v s' hf hfits
  have hag : Agree n L s0 s := by
    refine Views.agree (g := x + r) ?_
    rw [← add_assoc]; exact hinv.2
  obtain ⟨hout, x', s1, hx', hin, hcore, hQ⟩ := h s r (core_hold.1 hinv.1) hag e he v s' hf hfits
  refine ⟨hold L s1 + x', ?_, ⟨core_hold.2 hcore, hinv.2.step hx hx' hout hin⟩, hQ⟩
  simp [hold, hx, hx']

/-- The rule of one atomic step by a thread that holds no stripe. -/
theorem wp_step_free {Q : β → Hand → Prop} (hx : x.views = 0)
    (h : ∀ s r, Core m s (x + r) → ∀ e, A s e → ∀ v s', f e s = some (v, s') →
      (∀ b, SameBlock s s' b) ∧ ∃ x', x'.views = 0 ∧ Core m s' (x' + r) ∧ Q v x') :
    wp (ledgerOn n m A) (Prog.step f) Q x := by
  have key : wp (ledgerOn n m A) (Prog.step f) Q (hold 0 Store.empty + x) := by
    refine wp_step hx ?_
    intro s r hc _ e he v s' hf _
    obtain ⟨hsame, x', hx', hcore, hQ⟩ := h s r hc e he v s' hf
    refine ⟨fun b _ => hsame b, x', s', hx', fun b hb => by simp at hb, hcore, ?_⟩
    rwa [hold_zero, zero_add]
  rwa [hold_zero, zero_add] at key

/-! ## The rules of the stripes -/

theorem wp_lockAll (hx : x.views = 0) : ∀ {is : List ℕ} {L : Multiset ℕ} {s0 : Store}, (∀ s, Q () (hold (is + L) s + x)) →
      wp (ledgerOn n m A) (Prog.lockAll is) Q (hold L s0 + x) := by
  intro is
  induction is with
  | nil => intro L s0 h; simpa [Prog.lockAll, wp] using h s0
  | cons i is ih =>
    intro L s0 h s r hinv hfree
    have hmap : ∀ s, (hold L s + x + r).views.map Prod.fst = L + r.views.map Prod.fst := by
      intro s; simp [hold, hx]
    refine ⟨hold (i ::ₘ L) s + x, ?_, ⟨core_hold.2 (core_hold.1 hinv.1), ?_⟩, ?_⟩
    · simp [hold, hx]
    · -- the stripe was free, so nobody else knows anything about its blocks
      rw [ledger_tok, hmap] at hfree
      have hnd := hinv.2.nodup
      rw [hmap] at hnd
      have hmap' : (hold (i ::ₘ L) s + x + r).views.map Prod.fst = i ::ₘ (L + r.views.map Prod.fst) := by
        simp [hold, hx]
      refine ⟨by rw [hmap']; exact nodup_cons.2 ⟨hfree, hnd⟩, ?_⟩
      intro v hv b hb
      simp only [add_views, hx, hold, add_zero, mem_add, mem_map] at hv
      rcases hv with ⟨j, -, rfl⟩ | hr
      · exact SameBlock.refl _ _
      · refine hinv.2.same v ?_ b hb
        simp only [add_views, mem_add]
        exact .inr hr
    · refine ih fun s' => ?_
      have := h s'
      simpa [cons_add, ← cons_coe, add_cons] using this

theorem wp_unlockAll (hx : x.views = 0) : ∀ {is : List ℕ} {L : Multiset ℕ} {s0 : Store}, Q () (hold L s0 + x) →
      wp (ledgerOn n m A) (Prog.unlockAll is) Q (hold (is + L) s0 + x) := by
  intro is
  induction is with
  | nil => intro L s0 h; simpa [Prog.unlockAll, wp] using h
  | cons i is ih =>
    intro L s0 h
    have hsum : ((i :: is : List ℕ) : Multiset ℕ) + L = i ::ₘ ((is : Multiset ℕ) + L) := by
      rw [← cons_coe, cons_add]
    rw [hsum]
    refine ⟨by simp [hold], ?_⟩
    intro s r hinv
    refine ⟨hold (is + L) s0 + x, by simp [hold, hx], ⟨core_hold.2 (core_hold.1 hinv.1), ?_⟩, ih h⟩
    have hnd := hinv.2.nodup
    simp only [add_views, hold, hx, add_zero, map_cons, cons_add] at hnd
    refine ⟨?_, ?_⟩
    · simpa [hold, hx] using (nodup_cons.1 hnd).2
    intro v hv
    refine hinv.2.same v ?_
    simp only [add_views, hold, hx, add_zero, map_cons, mem_add, mem_cons] at hv ⊢
    rcases hv with hv | hv
    · exact .inl (.inr hv)
    · exact .inr hv

/-- Taking the stripes of a batch. -/
theorem wp_lockBatch (hx : x.views = 0) (h : ∀ s, Q () (hold (batchStripes n ids) s + x)) : wp (ledgerOn n m A) (lockBatch n ids) Q x := by
  have key : wp (ledgerOn n m A) (lockBatch n ids) Q (hold 0 Store.empty + x) :=
    wp_lockAll hx fun s => by rw [add_zero]; exact h s
  rwa [hold_zero, zero_add] at key

/-- Giving the stripes of a batch back. -/
theorem wp_unlockBatch (hx : x.views = 0) (h : Q () x) : wp (ledgerOn n m A) (unlockBatch n ids) Q (hold (batchStripes n ids) s + x) := by
  have key : wp (ledgerOn n m A) (unlockBatch n ids) Q (hold (batchStripes n ids + 0) s + x) :=
    wp_unlockAll hx (by rw [hold_zero, zero_add]; exact h)
  rwa [add_zero] at key

/-- Taking one stripe. -/
theorem wp_lock (hx : x.views = 0) (h : ∀ s, Q () (hold {i} s + x)) : wp (ledgerOn n m A) (Prog.lock i) Q x := by
  have key : wp (ledgerOn n m A) (Prog.lockAll [i]) Q (hold 0 Store.empty + x) := wp_lockAll hx h
  rwa [hold_zero, zero_add] at key

/-- Giving one stripe back. -/
theorem wp_unlock (hx : x.views = 0) (h : Q () x) : wp (ledgerOn n m A) (Prog.unlock i) Q (hold {i} s + x) := by
  have key : wp (ledgerOn n m A) (Prog.unlockAll [i]) Q (hold ({i} + 0) s + x) :=
    wp_unlockAll hx (by rw [hold_zero, zero_add]; exact h)
  rwa [add_zero] at key

theorem mem_batchStripes {n : ℕ} {id : BlockId} (h : id ∈ ids) : stripeOf n id ∈ (batchStripes n ids : Multiset ℕ) := by
  simp only [batchStripes, mem_coe, List.mem_dedup]
  exact (List.perm_insertionSort _ _).mem_iff.2 (List.mem_map.2 ⟨id, h, rfl⟩)

end QssStorage
