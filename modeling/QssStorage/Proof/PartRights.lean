import QssStorage.Proof.Frame

/-!
# Whose a part's references are

UploadPart, CompleteMultipartUpload, AbortMultipartUpload and the sweep share no lock: they
meet in the transactions that take a record away. Whoever took it owns what it named: a
complete owns the part until its object record commits, a reaper owns the part's
references until it has released them. `Rights` is what the tasks own between steps, and
`PartInv` counts every part once: stored, owned, inherited or reaped.

* `PartInv.created`, `.won`, `.storedPart`, `.take`, `.reap`, `.inherit`, `.release`: what each
  transaction does to it, and what it hands over.
-/

namespace QssStorage

open Conc Prog List

/-! ## What the history says -/

/-- The parts an event ends: reaped, or inherited by an object. -/
def Event.consumed : Event → List PartInstance
  | .partReaped p _ => [p]
  | .partsInherited ps => ps
  | _ => []

/-- The references a reaper took over. -/
def Event.reapedRefs : Event → List (PartInstance × BlockId)
  | .partReaped p blocks => blocks.map (Prod.mk p)
  | _ => []

/-- The references of parts an event releases. -/
def Event.releases : Event → List (PartInstance × BlockId)
  | .released (.part p) id => [(p, id)]
  | _ => []

/-- How an event changes how often an upload was won since it was created. -/
def Event.countWin (key : Bytes) (n : ℕ) : Event → ℕ
  | .uploadCreated k => if k = key then 0 else n
  | .uploadWon k => if k = key then n + 1 else n
  | _ => n

/-- How often an upload was won since it was last created. -/
def wins (key : Bytes) (log : List Event) : ℕ := log.foldl (Event.countWin key) 0

theorem wins_append (key : Bytes) (log : List Event) (ev : Event) :
    wins key (log ++ [ev]) = ev.countWin key (wins key log) := by
  unfold wins
  rw [foldl_append]
  rfl

/-- The part record is the one now stored under its key. -/
def Store.Stored (s : Store) (p : PartInstance) : Prop :=
  (s.parts.get p.key).isSome = true ∧ p.nth = s.log.count (.partStored p.key)

/-- The same as a number, of the parts and the history. -/
def stores (parts : OrdMap Bytes (Cell MultiPart)) (log : List Event) (p : PartInstance) : ℕ :=
  if (parts.get p.key).isSome = true ∧ p.nth = log.count (.partStored p.key) then 1 else 0

theorem stores_congr {parts parts' : OrdMap Bytes (Cell MultiPart)} {log log' : List Event} {p : PartInstance}
    (hget : parts'.get p.key = parts.get p.key)
    (hcount : log'.count (.partStored p.key) = log.count (.partStored p.key)) :
    stores parts' log' p = stores parts log p := by
  unfold stores
  rw [hget, hcount]

theorem stores_snoc (parts : OrdMap Bytes (Cell MultiPart)) (log : List Event) (p : PartInstance) {ev : Event}
    (h : ev ≠ .partStored p.key) : stores parts (log ++ [ev]) p = stores parts log p := by
  refine stores_congr rfl ?_
  rw [count_append, count_singleton, if_neg (by simpa using h), add_zero]

/-- What tasks own between steps: parts whose records they took to build an object, and
references of parts they reaped. -/
abbrev Rights := Multiset PartInstance × Multiset (PartInstance × BlockId)

/-- Every part is stored, owned, reaped or inherited, once; what was released or is still to
be released was reaped; and an upload is there to be won or was won, once. -/
structure PartInv (s : Store) (g : Rights) : Prop where
  once : ∀ p, (s.log.flatMap Event.consumed).count p + g.1.count p + stores s.parts s.log p ≤ 1
  past : ∀ p, p ∈ s.log.flatMap Event.consumed ∨ p ∈ g.1 → p.nth ≤ s.log.count (.partStored p.key)
  refs : (s.log.flatMap Event.releases : Multiset _) + g.2 ≤ (s.log.flatMap Event.reapedRefs : Multiset _)
  wins : ∀ k, wins k s.log + (if (s.uploads.get k).isSome then 1 else 0) ≤ 1

section Transactions

variable {s s' : Store} {g : Rights}

/-- A resource may be given up. -/
theorem PartInv.drop {r : Rights} (h : PartInv s (g + r)) : PartInv s r := by
  refine ⟨fun p => ?_, fun p hp => h.past p (hp.imp_right fun hm => Multiset.mem_add.2 (.inr hm)), ?_, h.wins⟩
  · have := h.once p
    rw [Prod.fst_add, Multiset.count_add] at this
    omega
  · have hle : r.2 ≤ (g + r).2 := Multiset.le_add_left _ _
    exact (add_le_add_right hle _).trans h.refs

/-- An event that says nothing about uploads and parts. -/
def Event.Still (ev : Event) : Prop :=
  ev.consumed = [] ∧ ev.reapedRefs = [] ∧ ev.releases = [] ∧ (∀ k n, ev.countWin k n = n) ∧ ∀ k, ev ≠ .partStored k

theorem Event.still_of_ofBlocks {ev : Event} (h : ev.ofBlocks = true) : ev.Still := by
  cases ev with
  | released owner id =>
    cases owner with
    | part p => cases h
    | object | undo => exact ⟨rfl, rfl, rfl, fun _ _ => rfl, nofun⟩
  | landed id d | wrote id d ok | surveyed id live => exact ⟨rfl, rfl, rfl, fun _ _ => rfl, nofun⟩
  | uploadCreated k => cases h
  | uploadWon k | partStored k | partReaped p bs | partsClaimed ps | partsInherited ps => cases h

/-- Only events of that kind were added. -/
structure StillLog (log log' : List Event) : Prop where
  consumed : log'.flatMap Event.consumed = log.flatMap Event.consumed
  reapedRefs : log'.flatMap Event.reapedRefs = log.flatMap Event.reapedRefs
  releases : log'.flatMap Event.releases = log.flatMap Event.releases
  wins : ∀ k, QssStorage.wins k log' = QssStorage.wins k log
  stored : ∀ k, log'.count (.partStored k) = log.count (.partStored k)

theorem StillLog.refl (log : List Event) : StillLog log log := ⟨rfl, rfl, rfl, fun _ => rfl, fun _ => rfl⟩

theorem stillLog_append (log : List Event) : ∀ {evs : List Event}, (∀ ev ∈ evs, ev.Still) → StillLog log (log ++ evs) := by
  intro evs
  induction evs using List.reverseRecOn with
  | nil => intro _; rw [append_nil]; exact .refl _
  | append_singleton evs ev ih =>
    intro h
    have ih := ih fun ev hev => h ev (mem_append_left _ hev)
    obtain ⟨h1, h2, h3, h4, h5⟩ := h ev (mem_append_right _ (mem_singleton_self _))
    rw [← append_assoc]
    refine ⟨?_, ?_, ?_, fun k => ?_, fun k => ?_⟩
    · rw [flatMap_append, flatMap_singleton, h1, append_nil, ih.consumed]
    · rw [flatMap_append, flatMap_singleton, h2, append_nil, ih.reapedRefs]
    · rw [flatMap_append, flatMap_singleton, h3, append_nil, ih.releases]
    · rw [wins_append, h4, ih.wins]
    · rw [count_append, count_singleton, ih.stored, if_neg (by simpa using h5 k), add_zero]

/-- Uploads, parts and what the history says of them are as they were. -/
theorem PartInv.still (h : PartInv s g) (hup : s'.uploads = s.uploads) (hparts : s'.parts = s.parts)
    (hlog : StillLog s.log s'.log) : PartInv s' g := by
  refine ⟨fun p => ?_, fun p hp => ?_, ?_, fun k => ?_⟩
  · rw [hlog.consumed, stores_congr (by rw [hparts]) (hlog.stored _)]; exact h.once p
  · rw [hlog.consumed] at hp; rw [hlog.stored]; exact h.past p hp
  · rw [hlog.releases, hlog.reapedRefs]; exact h.refs
  · rw [hlog.wins, hup]; exact h.wins k

/-- An event appended to a history. -/
theorem flatMap_snoc {β : Type} (f : Event → List β) (log : List Event) (ev : Event) :
    (log ++ [ev]).flatMap f = log.flatMap f ++ f ev := by
  rw [flatMap_append, flatMap_singleton]

/-- The transaction of `create_upload`. -/
theorem PartInv.created (h : PartInv s g) (k : Bytes) (u : UploadRecord) :
    PartInv { s with uploads := s.uploads.insert k (.record u), log := s.log ++ [.uploadCreated k] } g := by
  refine ⟨fun p => ?_, fun p hp => ?_, ?_, fun k' => ?_⟩
  · have hst := stores_snoc s.parts s.log p (show Event.uploadCreated k ≠ .partStored p.key from nofun)
    simp only [flatMap_snoc, Event.consumed, append_nil, hst]
    exact h.once p
  · have := h.past p (by simpa [flatMap_snoc, Event.consumed] using hp)
    simpa [count_append] using this
  · have := h.refs
    simpa [flatMap_snoc, Event.releases, Event.reapedRefs] using this
  · have := h.wins k'
    rw [wins_append]
    by_cases hk : k = k'
    · simp [Event.countWin, hk]
    · simpa [Event.countWin, hk, OrdMap.get_insert_of_ne _ _ (Ne.symm hk)] using this

/-- The transaction of `claim_upload`, and the first half of a complete's claim. -/
theorem PartInv.won (h : PartInv s g) {k : Bytes} (hk : (s.uploads.get k).isSome) :
    PartInv { s with uploads := s.uploads.erase k, log := s.log ++ [.uploadWon k] } g := by
  refine ⟨fun p => ?_, fun p hp => ?_, ?_, fun k' => ?_⟩
  · have hst := stores_snoc s.parts s.log p (show Event.uploadWon k ≠ .partStored p.key from nofun)
    simp only [flatMap_snoc, Event.consumed, append_nil, hst]
    exact h.once p
  · have := h.past p (by simpa [flatMap_snoc, Event.consumed] using hp)
    simpa [count_append] using this
  · have := h.refs
    simpa [flatMap_snoc, Event.releases, Event.reapedRefs] using this
  · have := h.wins k'
    rw [wins_append]
    by_cases hkk : k = k'
    · subst hkk
      rw [if_pos hk] at this
      simpa [Event.countWin, OrdMap.get_erase_self] using this
    · simpa [Event.countWin, hkk, OrdMap.get_erase_of_ne _ (Ne.symm hkk)] using this

/-- The transaction of `insert_multipart_part`: a new part, and whatever was there before is
stored no more. -/
theorem PartInv.storedPart (h : PartInv s g) (k : Bytes) (part : Cell MultiPart) :
    PartInv { s with parts := s.parts.insert k part, log := s.log ++ [.partStored k] } g := by
  refine ⟨fun p => ?_, fun p hp => ?_, ?_, fun k' => ?_⟩
  · have honce := h.once p
    have hpast := h.past p
    by_cases hk : p.key = k
    · -- the new instance has a number no event and no task has seen
      by_cases hnew : p.nth = s.log.count (.partStored k) + 1
      · have hfresh : (s.log.flatMap Event.consumed).count p = 0 ∧ g.1.count p = 0 := by
          rw [count_eq_zero, Multiset.count_eq_zero, ← not_or]
          intro hp
          have := hpast hp
          rw [hk] at this
          omega
        simp only [flatMap_snoc, Event.consumed, append_nil, hfresh.1, hfresh.2, stores]
        split <;> omega
      · have hnot : stores (s.parts.insert k part) (s.log ++ [.partStored k]) p = 0 := by
          refine if_neg ?_
          rintro ⟨-, hn⟩
          rw [hk] at hn
          simp [count_append] at hn
          exact hnew hn
        simp only [flatMap_snoc, Event.consumed, append_nil, hnot]
        omega
    · have hne : Event.partStored k ≠ Event.partStored p.key := fun h => hk (by cases h; rfl)
      have hst := stores_snoc (s.parts.insert k part) s.log p hne
      have hcongr : stores (s.parts.insert k part) s.log p = stores s.parts s.log p :=
        stores_congr (OrdMap.get_insert_of_ne _ _ hk) rfl
      simp only [flatMap_snoc, Event.consumed, append_nil, hst, hcongr]
      exact honce
  · have := h.past p (by simpa [flatMap_snoc, Event.consumed] using hp)
    rw [count_append]
    omega
  · have := h.refs
    simpa [flatMap_snoc, Event.releases, Event.reapedRefs] using this
  · have := h.wins k'
    rw [wins_append]
    exact this

/-- A stored part is taken away: the transaction owns it. -/
theorem PartInv.take (h : PartInv s g) {k : Bytes} (hk : (s.parts.get k).isSome) :
    PartInv { s with parts := s.parts.erase k } (({s.partInstance k}, 0) + g) := by
  refine ⟨fun p => ?_, fun p hp => ?_, ?_, h.wins⟩
  · have honce := h.once p
    have hgone : ∀ p : PartInstance, p.key = k → stores (s.parts.erase k) s.log p = 0 := by
      intro p hkey
      refine if_neg ?_
      rintro ⟨hsome, -⟩
      simp [hkey, OrdMap.get_erase_self] at hsome
    simp only [Prod.fst_add, Multiset.count_add]
    by_cases hp : p = s.partInstance k
    · subst hp
      have hstored : stores s.parts s.log (s.partInstance k) = 1 := if_pos ⟨hk, rfl⟩
      rw [hgone _ rfl, Multiset.count_singleton_self]
      omega
    have hle : stores (s.parts.erase k) s.log p ≤ stores s.parts s.log p := by
      by_cases hkey : p.key = k
      · rw [hgone p hkey]; exact Nat.zero_le _
      · exact le_of_eq (stores_congr (OrdMap.get_erase_of_ne _ hkey) rfl)
    rw [Multiset.count_singleton, if_neg hp]
    omega
  · rcases hp with hp | hp
    · exact h.past p (.inl hp)
    · rcases Multiset.mem_add.1 hp with hp | hp
      · obtain rfl := Multiset.mem_singleton.1 hp
        exact le_rfl
      · exact h.past p (.inr hp)
  · have := h.refs
    simpa using this

/-- What is noted of a part that was taken: it was reaped, its references are the reaper's. -/
theorem PartInv.reap {p : PartInstance} (h : PartInv s (({p}, 0) + g)) (blocks : List BlockId) :
    PartInv { s with log := s.log ++ [.partReaped p blocks] } ((0, (blocks.map (Prod.mk p) : Multiset _)) + g) := by
  refine ⟨fun q => ?_, fun q hq => ?_, ?_, fun k => ?_⟩
  · have honce := h.once q
    simp only [Prod.fst_add, Multiset.count_add, Multiset.count_singleton] at honce
    have hst := stores_snoc s.parts s.log q (show Event.partReaped p blocks ≠ .partStored q.key from nofun)
    simp only [flatMap_snoc, Event.consumed, count_append, count_singleton, hst, Prod.fst_add,
      Multiset.count_add, Multiset.count_zero, beq_iff_eq, eq_comm (a := p)]
    omega
  · have hp : q ∈ s.log.flatMap Event.consumed ∨ q ∈ (({p}, 0) + g : Rights).1 := by
      simp only [flatMap_snoc, Event.consumed, mem_append, mem_singleton, Prod.fst_add, Multiset.mem_add,
        Multiset.notMem_zero, false_or, Multiset.mem_singleton] at hq ⊢
      tauto
    have := h.past q hp
    rw [count_append]
    omega
  · have hrefs := h.refs
    simp only [Prod.snd_add, zero_add] at hrefs
    simp only [flatMap_snoc, Event.releases, Event.reapedRefs, append_nil, ← Multiset.coe_add, Prod.snd_add]
    rw [add_left_comm, add_comm]
    exact add_le_add_left hrefs _
  · rw [wins_append]; exact h.wins k

/-- What is noted when an object record names the blocks of parts that were taken. -/
theorem PartInv.inherit {ps : List PartInstance} (h : PartInv s (((ps : Multiset _), 0) + g)) :
    PartInv { s with log := s.log ++ [.partsInherited ps] } g := by
  refine ⟨fun q => ?_, fun q hq => ?_, ?_, fun k => ?_⟩
  · have honce := h.once q
    simp only [Prod.fst_add, Multiset.count_add, Multiset.coe_count] at honce
    have hst := stores_snoc s.parts s.log q (show Event.partsInherited ps ≠ .partStored q.key from nofun)
    simp only [flatMap_snoc, Event.consumed, count_append, hst]
    omega
  · have hp : q ∈ s.log.flatMap Event.consumed ∨ q ∈ (((ps : Multiset _), 0) + g : Rights).1 := by
      simp only [flatMap_snoc, Event.consumed, mem_append, Prod.fst_add, Multiset.mem_add, Multiset.mem_coe] at hq ⊢
      tauto
    have := h.past q hp
    rw [count_append]
    omega
  · have hrefs := h.refs
    simpa [flatMap_snoc, Event.releases, Event.reapedRefs] using hrefs
  · rw [wins_append]; exact h.wins k

/-- What is noted when a reaper releases a reference. -/
theorem PartInv.release {p : PartInstance} {id : BlockId} (h : PartInv s ((0, {(p, id)}) + g)) :
    PartInv { s with log := s.log ++ [.released (.part p) id] } g := by
  refine ⟨fun q => ?_, fun q hq => ?_, ?_, fun k => ?_⟩
  · have honce := h.once q
    have hst := stores_snoc s.parts s.log q (show Event.released (.part p) id ≠ .partStored q.key from nofun)
    simp only [flatMap_snoc, Event.consumed, append_nil, hst]
    simpa using honce
  · have := h.past q (by simpa [flatMap_snoc, Event.consumed] using hq)
    rw [count_append]
    omega
  · have hrefs := h.refs
    simp only [Prod.snd_add] at hrefs
    simp only [flatMap_snoc, Event.releases, Event.reapedRefs, append_nil, ← Multiset.coe_add, Multiset.coe_singleton]
    rw [add_assoc]
    exact hrefs
  · rw [wins_append]; exact h.wins k

end Transactions

end QssStorage
