import QssStorage.Data.OrdMap

/-!
# Walks over a map that changes

An iterator keeps the last key it gave and looks, at every call, for the next one in the map of
that moment. Between two calls entries come and go.

`Seeks r next` is what a call has to do: give the nearest entry beyond the cursor in the order
`r`, and none only if there is none. From it, by induction on what happens:

* `calls_complete`: **a key that is there all the time is given before the walk ends.**
-/

namespace Walks

variable {K V : Type} [LinearOrder K]

/-- What happens while a walk is under way. -/
inductive Event (K V : Type) where
  | call
  | insert (k : K) (v : V)
  | remove (k : K)

/-- What an event leaves of the map. -/
def Event.on : Event K V → OrdMap K V → OrdMap K V
  | call, m => m
  | insert k v, m => m.insert k v
  | remove k, m => m.erase k

/-- The map at every moment of a walk. -/
def maps (m : OrdMap K V) : List (Event K V) → List (OrdMap K V)
  | [] => [m]
  | ev :: evs => m :: maps (ev.on m) evs

/-- A call: the map it found and what it answered. -/
structure Call (K V : Type) [LinearOrder K] where
  found : OrdMap K V
  answer : Option (K × V)

/-- The keys that were given. -/
def given (cs : List (Call K V)) : List K := cs.filterMap fun c => c.answer.map Prod.fst

/-- The calls of an iterator, each from the map of its moment. -/
def calls (next : OrdMap K V → Option K → Option (K × V)) : OrdMap K V → Option K → List (Event K V) → List (Call K V)
  | _, _, [] => []
  | m, cursor, .call :: evs =>
    match next m cursor with
    | some e => ⟨m, some e⟩ :: calls next m (some e.1) evs
    | none => ⟨m, none⟩ :: calls next m cursor evs
  | m, cursor, .insert k v :: evs => calls next (m.insert k v) cursor evs
  | m, cursor, .remove k :: evs => calls next (m.erase k) cursor evs

/-- The key lies beyond the cursor. -/
def Beyond (r : K → K → Prop) (cursor : Option K) (k : K) : Prop := ∀ a ∈ cursor, r a k

/-- A call gives the nearest entry beyond the cursor. -/
structure Seeks (r : K → K → Prop) (next : OrdMap K V → Option K → Option (K × V)) : Prop where
  trans : ∀ a b c, r a b → r b c → r a c
  found : ∀ {m cursor e}, next m cursor = some e → m.get e.1 = some e.2 ∧ Beyond r cursor e.1
  nearest : ∀ {m cursor e}, next m cursor = some e → ∀ k, Beyond r cursor k → (m.get k).isSome → k = e.1 ∨ r e.1 k
  ended : ∀ {m cursor}, next m cursor = none → ∀ k, Beyond r cursor k → m.get k = none

variable {r : K → K → Prop} {next : OrdMap K V → Option K → Option (K × V)}

theorem Beyond.trans (hs : Seeks r next) {cursor : Option K} {k k' : K} (h : Beyond r cursor k) (hk : r k k') :
    Beyond r cursor k' := fun a ha => hs.trans a k k' (h a ha) hk

/-- **The keys of a walk are in order and beyond its start.** -/
theorem calls_beyond (hs : Seeks r next) : ∀ (evs : List (Event K V)) (m : OrdMap K V) (cursor : Option K),
    (given (calls next m cursor evs)).Pairwise r ∧ ∀ k ∈ given (calls next m cursor evs), Beyond r cursor k := by
  intro evs
  induction evs with
  | nil => exact fun m cursor => ⟨List.Pairwise.nil, nofun⟩
  | cons ev evs ih =>
    intro m cursor
    cases ev with
    | insert k v => exact ih (m.insert k v) cursor
    | remove k => exact ih (m.erase k) cursor
    | call =>
      unfold calls
      split
      · rename_i e he
        obtain ⟨hsorted, hbeyond⟩ := ih m (some e.1)
        have hafter : ∀ k ∈ given (calls next m (some e.1) evs), r e.1 k := fun k hk => hbeyond k hk e.1 rfl
        have hfirst := (hs.found he).2
        refine ⟨List.pairwise_cons.2 ⟨hafter, hsorted⟩, fun k hk => ?_⟩
        rcases List.mem_cons.1 hk with rfl | hk
        · exact hfirst
        · exact hfirst.trans hs (hafter k hk)
      · exact ih m cursor

/-- What is given was there. -/
theorem calls_present (hs : Seeks r next) : ∀ (evs : List (Event K V)) (m : OrdMap K V) (cursor : Option K),
    ∀ c ∈ calls next m cursor evs, ∀ e, c.answer = some e → c.found.get e.1 = some e.2 := by
  intro evs
  induction evs with
  | nil => exact fun _ _ => nofun
  | cons ev evs ih =>
    intro m cursor
    cases ev with
    | insert k v => exact ih (m.insert k v) cursor
    | remove k => exact ih (m.erase k) cursor
    | call =>
      unfold calls
      split
      · rename_i e he
        refine List.forall_mem_cons.2 ⟨fun e' he' => ?_, ih m (some e.1)⟩
        cases he'
        exact (hs.found he).1
      · exact List.forall_mem_cons.2 ⟨nofun, ih m cursor⟩

/-- **A key that is there all the time is given before the walk ends.** -/
theorem calls_complete (hs : Seeks r next) {k : K} : ∀ (evs : List (Event K V)) (m : OrdMap K V) (cursor : Option K),
    Beyond r cursor k → (∀ m' ∈ maps m evs, (m'.get k).isSome) → (∃ c ∈ calls next m cursor evs, c.answer = none) →
      k ∈ given (calls next m cursor evs) := by
  intro evs
  induction evs with
  | nil => rintro m cursor - - ⟨c, hc, -⟩; cases hc
  | cons ev evs ih =>
    intro m cursor hk hstays hends
    obtain ⟨hnow, hlater⟩ := List.forall_mem_cons.1 hstays
    cases ev with
    | insert k' v => exact ih (m.insert k' v) cursor hk hlater hends
    | remove k' => exact ih (m.erase k') cursor hk hlater hends
    | call =>
      unfold calls at hends ⊢
      split
      · -- the key is the one that is given, or it lies beyond it
        rename_i e he
        rw [he] at hends
        obtain ⟨c, hc, hnone⟩ := hends
        rcases hs.nearest he k hk hnow with rfl | hbeyond
        · exact List.mem_cons_self
        refine List.mem_cons_of_mem _ (ih m (some e.1) ?_ hlater ?_)
        · rintro a ha
          cases ha
          exact hbeyond
        · rcases List.mem_cons.1 hc with rfl | hc
          · cases hnone
          · exact ⟨c, hc, hnone⟩
      · -- the walk does not end while the key is ahead
        rename_i he
        rw [hs.ended he k hk] at hnow
        cases hnow

end Walks
