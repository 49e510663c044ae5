import QssStorage.Proof.NodeSteps

/-!
# Walks by SCAN and RSCAN

A page of SCAN is the next ten keys behind a cursor, and its last key is the cursor of the page
after it; `0` starts a walk and ends it. RSCAN does the same backward. Other sessions may do what
they like as long as the keys of the namespace stay.

* `page_tallies`: **a page is the next keys of the namespace.**
* `scan_sees_every_key_iff`: **it sees every key once, in order, exactly if `0` is no key at the
  end of a full page with keys after it.** There the client takes the key for the end.
-/

namespace QssStorage.Respcas

open Conc Prog List
open Resp2 (Frame ascii)

/-- The way a walk goes. -/
inductive Direction where
  | ascending
  | descending

/-- The cursor that starts a walk, and the one that ends it. -/
def endMark : Bytes := [ascii '0']

namespace Direction

/-- The command. -/
def verb : Direction → Bytes
  | ascending => utf8 "SCAN"
  | descending => utf8 "RSCAN"

/-- The order of the walk. -/
def Before : Direction → Bytes → Bytes → Prop
  | ascending, k, k' => k < k'
  | descending, k, k' => k' < k

/-- The key after a cursor. -/
def next : Direction → OrdMap Bytes (Cell Object) → Option Bytes → Option (Bytes × Cell Object)
  | ascending => OrdMap.nextAfter
  | descending => OrdMap.prevBefore

/-- The keys after a cursor. -/
def ahead : Direction → OrdMap Bytes (Cell Object) → Option Bytes → List Bytes
  | ascending, m, cursor => (m.behind cursor).map Prod.fst
  | descending, m, cursor => (m.before cursor).map Prod.fst

variable (d : Direction) (m : OrdMap Bytes (Cell Object))

theorem map_next (cursor : Option Bytes) : (d.next m cursor).map Prod.fst = (d.ahead m cursor).head? := by
  cases d with
  | ascending => exact (congrArg _ (m.nextAfter_eq cursor)).trans List.head?_map.symm
  | descending => exact (congrArg _ (m.prevBefore_eq cursor)).trans List.head?_map.symm

variable {d m}

theorem ahead_next {cursor : Option Bytes} {k : Bytes} {rest : List Bytes} (h : d.ahead m cursor = k :: rest) :
    d.ahead m (some k) = rest := by
  cases d with
  | ascending =>
    obtain ⟨e, es, hes, rfl, rfl⟩ := map_eq_cons_iff.1 h
    exact congrArg _ (OrdMap.behind_next hes)
  | descending =>
    obtain ⟨e, es, hes, rfl, rfl⟩ := map_eq_cons_iff.1 h
    exact congrArg _ (OrdMap.before_next hes)

/-- What is ahead of a key that is ahead itself. -/
theorem ahead_drop : ∀ {j : ℕ} {cursor : Option Bytes} {k : Bytes}, (d.ahead m cursor)[j]? = some k →
    d.ahead m (some k) = (d.ahead m cursor).drop (j + 1) := by
  intro j
  induction j with
  | zero =>
    intro cursor k h
    cases hl : d.ahead m cursor with
    | nil => rw [hl] at h; cases h
    | cons x rest =>
      rw [hl] at h
      cases h
      exact ahead_next hl
  | succ j ih =>
    intro cursor k h
    cases hl : d.ahead m cursor with
    | nil => rw [hl] at h; cases h
    | cons x rest =>
      rw [hl] at h
      have hrest := ahead_next hl
      rw [getElem?_cons_succ, ← hrest] at h
      rw [drop_succ_cons, ← hrest]
      exact ih h

/-- All keys, in the order of the walk. -/
theorem pairwise_ahead : (d.ahead m none).Pairwise d.Before := by
  cases d with
  | ascending => exact pairwise_map.2 m.sorted
  | descending => exact pairwise_map.2 (pairwise_reverse.2 m.sorted)

theorem mem_ahead {k : Bytes} : k ∈ d.ahead m none ↔ (m.get k).isSome := by
  rw [← OrdMap.mem_keys]
  cases d with
  | ascending => exact Iff.rfl
  | descending => simp [ahead, OrdMap.before, OrdMap.keys]

end Direction

/-! ## One page -/

section Page

variable (x : Text) (c : RespConfig) (me : ℕ) (s : Session) (d : Direction)

/-- The cursor as the server reads it. -/
def cursorOf (cursor : Bytes) : Option Bytes := (some cursor).filter (· ≠ endMark)

/-- The words of a request whose name is an ASCII word in capitals. -/
theorem fromFrame_request {x : Text} {name : Bytes} (hascii : isAscii name = true)
    (hupper : (name.map fun b => if 97 ≤ b.val ∧ b.val ≤ 122 then Fin.ofNat 256 (b.val - 32) else b) = name)
    (args : List Bytes) :
    Args.fromFrame x (request (name :: args)) = .ok ⟨name, .bulkString name :: args.map .bulkString⟩ := by
  unfold request Args.fromFrame
  simp only [map_cons, x.lossy_ascii _ hascii, x.upper_ascii _ hascii, hupper]

/-- The command of a walk. -/
def Direction.command : Direction → Option Bytes → Command
  | ascending => .scan
  | descending => .rscan

theorem fromFrame_verb (cursor : Bytes) :
    Command.fromFrame x (request [d.verb, cursor]) = .ok (d.command (cursorOf cursor)) := by
  have hne : ∀ w ∈ ["AUTH", "CHECK", "CSET", "DBSIZE", "DEL", "ECHO", "EXISTS", "FLUSH", "GET", "KEYTIME", "LENGTH", "MGET",
      "NSINFO", "NSLIST", "NSNEW", "NSSET", "PING"], d.verb ≠ utf8 w := by cases d <;> decide +kernel
  simp only [forall_mem_cons] at hne
  have hargs : Args.fromFrame x (request [d.verb, cursor]) = .ok ⟨d.verb, [.bulkString d.verb, .bulkString cursor]⟩ :=
    fromFrame_request (by cases d <;> decide +kernel) (by cases d <;> decide +kernel) [cursor]
  unfold Command.fromFrame
  rw [hargs]
  simp only [Bind.bind, Except.bind, hne, if_false]
  cases d with
  | ascending =>
    have hother : utf8 "SCAN" ≠ utf8 "RSCAN" := by decide +kernel
    simp only [Direction.verb, hother, if_false, if_true]
    rfl
  | descending =>
    simp only [Direction.verb, if_true]
    rfl

/-- What the server does for one page. -/
def page (cursor : Option Bytes) : NodeProg (Except RespErr (List Bytes)) :=
  holding me (.tree s.handler.object) .read <| (look fun n => (n.object s.handler.object).tree).bind fun h =>
    scanFrom d.next h scanPage cursor

theorem dispatch_verb (cursor : Bytes) : s.dispatch c me (request [d.verb, cursor]) =
    (page me s d (cursorOf cursor)).bind fun r => .ret (s, replyWith c scanReply r) := by
  unfold Session.dispatch
  rw [fromFrame_verb]
  cases d <;> exact bind_assoc _ _ _

/-- What the object of a session shows: its handle, and what is found through it. -/
def Shows (o : ℕ) (h : TreeHandle) (m : OrdMap Bytes (Cell Object)) (n : Node) : Prop :=
  (n.object o).tree = h ∧ n.contents h = m

/-- The others leave that alone. -/
def KeepsKeys (o : ℕ) (_ : Unit) (n n' : Node) : Prop :=
  (n'.object o).tree = (n.object o).tree ∧ n'.contents (n.object o).tree = n.contents (n.object o).tree

variable {me s d} {o : ℕ} {h : TreeHandle} {m : OrdMap Bytes (Cell Object)}

/-- There is nothing to tally. -/
def uncounted (_ : Unit) (_ : Turn Unit Node) : Unit := ()

theorem stable_shows (P : Prop) : Stable uncounted (KeepsKeys o) fun n _ => P ∧ Shows o h m n := by
  rintro _ n n' _ ⟨htree, hcontents⟩ ⟨hP, rfl, rfl⟩
  exact ⟨hP, htree, hcontents⟩

/-- The keys of a page are the next ones. -/
theorem scanFrom_tallies : ∀ (count : ℕ) (cursor : Option Bytes),
    Tallies (KeepsKeys o) uncounted (fun n _ => True ∧ Shows o h m n) (scanFrom d.next h count cursor) fun r n _ =>
      (∀ keys, r = .ok keys → keys = (d.ahead m cursor).take count) ∧ Shows o h m n := by
  intro count
  induction count with
  | zero =>
    intro cursor
    exact tallies_ret (stable_shows True) fun n _ hJ => ⟨fun keys hkeys => by cases hkeys; rfl, hJ.2⟩
  | succ count ih =>
    intro cursor
    have hread : Tallies (KeepsKeys o) uncounted (fun n _ => True ∧ Shows o h m n)
        (readTree h fun t => .ok (d.next t cursor)) fun r n _ =>
          (∀ v, r = .ok v → v = d.next m cursor) ∧ Shows o h m n := by
      refine tallies_step (stable_shows True) (fun r => stable_shows _) fun e n _ r n' hf hJ => ?_
      cases hf
      refine ⟨fun v hv => ?_, hJ.2⟩
      cases hread : e.read <;> rw [hread] at hv <;> cases hv
      rw [hJ.2.2]
    refine tallies_andThen hread (fun e => stable_shows _) (fun e n _ hJ => ⟨nofun, hJ.2⟩) fun v => ?_
    -- the key that was read is the next one, the others follow it
    have hahead : v = d.next m cursor → v.map Prod.fst = (d.ahead m cursor).head? := fun hv => hv ▸ d.map_next m cursor
    cases v with
    | none =>
      refine tallies_ret (stable_shows _) fun n _ hJ => ⟨fun keys hkeys => ?_, hJ.2⟩
      cases hkeys
      have hnil : d.ahead m cursor = [] := head?_eq_none_iff.1 (hahead (hJ.1 _ rfl)).symm
      rw [hnil]
      rfl
    | some kv =>
      obtain ⟨k, cell⟩ := kv
      refine tallies_pure fun hv => ?_
      have hhead : (d.ahead m cursor).head? = some k := (hahead (hv _ rfl)).symm
      obtain ⟨rest, hrest⟩ : ∃ rest, d.ahead m cursor = k :: rest := head?_eq_some_iff.1 hhead
      refine tallies_andThen ((ih (some k)).weaken fun n _ hJ => ⟨trivial, hJ⟩) (fun e => stable_shows _)
        (fun e n _ hJ => ⟨nofun, hJ.2⟩) fun keys => tallies_ret (stable_shows _) fun n _ hJ => ⟨fun all hall => ?_, hJ.2⟩
      cases hall
      rw [hJ.1 _ rfl, hrest, take_succ_cons, Direction.ahead_next hrest]

/-- **A page is the next keys of the namespace**, whatever the others do elsewhere. -/
theorem page_tallies (cursor : Option Bytes) :
    Tallies (KeepsKeys s.handler.object) uncounted (fun n _ => True ∧ Shows s.handler.object h m n) (page me s d cursor)
      fun r n _ => (∀ keys, r = .ok keys → keys = (d.ahead m cursor).take scanPage) ∧ Shows s.handler.object h m n := by
  refine tallies_holding (stable_shows True) (fun r => stable_shows _) (fun _ _ _ h => h) (fun _ _ _ _ h => h) _ _ _ ?_
  have hlook : Tallies (KeepsKeys s.handler.object) uncounted (fun n _ => True ∧ Shows s.handler.object h m n)
      (look fun n => (n.object s.handler.object).tree) fun v n _ => v = h ∧ Shows s.handler.object h m n := by
    refine tallies_step (stable_shows True) (fun v => stable_shows _) fun e n _ v n' hf hJ => ?_
    cases hf
    exact ⟨hJ.2.1, hJ.2⟩
  refine tallies_bind hlook fun v => tallies_pure fun hv => ?_
  subst hv
  exact (scanFrom_tallies scanPage cursor).weaken fun n _ hJ => ⟨trivial, hJ⟩

/-- A page, with nobody else about. -/
theorem scanFrom_eval (n : Node) : ∀ (count : ℕ) (cursor : Option Bytes),
    (scanFrom d.next h count cursor).eval steady n = some (.ok ((d.ahead (n.contents h) cursor).take count), n) := by
  intro count
  induction count with
  | zero => exact fun cursor => rfl
  | succ count ih =>
    intro cursor
    have hhead := d.map_next (n.contents h) cursor
    unfold scanFrom
    rw [andThen, eval_bind]
    have hread : (readTree h fun t => .ok (d.next t cursor)).eval steady n = some (.ok (d.next (n.contents h) cursor), n) := rfl
    rw [hread, Option.bind_some]
    dsimp only
    cases hnext : d.next (n.contents h) cursor with
    | none =>
      rw [hnext] at hhead
      rw [head?_eq_none_iff.1 hhead.symm]
      rfl
    | some kv =>
      obtain ⟨k, cell⟩ := kv
      rw [hnext] at hhead
      obtain ⟨rest, hrest⟩ : ∃ rest, d.ahead (n.contents h) cursor = k :: rest := head?_eq_some_iff.1 hhead.symm
      rw [hrest, take_succ_cons, ← Direction.ahead_next hrest]
      dsimp only
      rw [andThen, eval_bind, ih]
      rfl

theorem holding_eval {α : Type} {lock : LockName} {p : NodeProg α} {n : Node} {a : α} (hidle : n.locks = .idle)
    (hp : ∀ l, p.eval steady { n with locks := l } = some (a, { n with locks := l })) :
    (holding me lock .read p).eval steady n = some (a, n) := by
  have hask : (askFor ⟨me, lock, .read⟩).eval steady n = some ((), { n with locks := ⟨[], [⟨me, lock, .read⟩]⟩ }) := by
    simp [askFor, update, Prog.step, eval, hidle, RwLocks.ask, RwLocks.idle]
  have htake : (takeLock ⟨me, lock, .read⟩).eval steady { n with locks := ⟨[], [⟨me, lock, .read⟩]⟩ } =
      some ((), { n with locks := ⟨[⟨me, lock, .read⟩], []⟩ }) := by
    simp [takeLock, Prog.step, eval, RwLocks.take, RwLocks.grants]
  have hdrop : (dropLock ⟨me, lock, .read⟩).eval steady { n with locks := ⟨[⟨me, lock, .read⟩], []⟩ } = some ((), n) := by
    simp only [dropLock, update, Prog.step, eval, RwLocks.drop, erase_cons_head]
    rw [show (⟨[], []⟩ : RwLocks LockName) = n.locks from hidle.symm]
  rw [holding, eval_bind, hask, Option.bind_some, eval_bind, htake, Option.bind_some, eval_bind, hp, Option.bind_some,
    eval_bind, hdrop]
  rfl

theorem page_eval {n : Node} (hidle : n.locks = .idle) (cursor : Option Bytes) : (page me s d cursor).eval steady n =
    some (.ok ((d.ahead (n.contents (n.object s.handler.object).tree) cursor).take scanPage), n) := by
  refine holding_eval hidle fun l => ?_
  rw [eval_bind]
  exact scanFrom_eval _ scanPage cursor

end Page

/-! ## The client -/

section Client

variable (c : RespConfig) (me : ℕ) (s : Session) (d : Direction)

/-- The keys of the namespace that a session is bound to. -/
def Session.contents (s : Session) (n : Node) : OrdMap Bytes (Cell Object) := n.contents (n.object s.handler.object).tree

/-- A request for a page is answered with keys and the cursor `next`, the others leaving the keys alone. -/
def Answers (n : Node) (cursor next : Bytes) (keys : List Bytes) (n' : Node) : Prop :=
  ∃ tr, Among (KeepsKeys s.handler.object) (s.dispatch c me (request [d.verb, cursor])) n tr
    (s, .array [.bulkString next, .array (keys.map .bulkString)]) n'

/-- A client that asks for pages, passing back the cursor it was given, until it receives `0`. -/
inductive Walk : Node → Bytes → List (List Bytes) → Bool → Prop
  | pause (n : Node) (cursor : Bytes) : Walk n cursor [] false
  | last {n n' : Node} {cursor : Bytes} {keys : List Bytes} (h : Answers c me s d n cursor endMark keys n') :
      Walk n cursor [keys] true
  | more {n n' : Node} {cursor next : Bytes} {keys : List Bytes} {pages : List (List Bytes)} {done : Bool}
      (h : Answers c me s d n cursor next keys n') (hnext : next ≠ endMark) (rest : Walk n' next pages done) :
      Walk n cursor (keys :: pages) done

/-- The client comes to an end, and then it has seen every key once, in order. -/
def SeesEveryKey (n : Node) : Prop :=
  (∃ pages, Walk c me s d n endMark pages true) ∧ ∀ pages done, Walk c me s d n endMark pages done →
    pages.length ≤ (s.contents n).entries.length / scanPage + 1 ∧
      (done = true → pages.flatten.Pairwise d.Before ∧ ∀ k, k ∈ pages.flatten ↔ ((s.contents n).get k).isSome)

/-- `0` is no key at the end of a full page with keys after it. -/
def MarkApart (keys : List Bytes) : Prop := ∀ i, keys[scanPage * i + 9]? = some endMark → keys.length ≤ scanPage * (i + 1)

variable {c me s d} {n n' : Node} {cursor next : Bytes} {keys : List Bytes} {h : TreeHandle} {m : OrdMap Bytes (Cell Object)}

/-- The keys ahead of a cursor, as the server reads it. -/
abbrev left (d : Direction) (m : OrdMap Bytes (Cell Object)) (cursor : Bytes) : List Bytes := d.ahead m (cursorOf cursor)

theorem Answers.page (ha : Answers c me s d n cursor next keys n') (hn : Shows s.handler.object h m n) :
    keys = (left d m cursor).take scanPage ∧ Shows s.handler.object h m n' ∧
      next = if keys.length < scanPage then endMark else keys.getLast?.getD [] := by
  obtain ⟨tr, hrun⟩ := ha
  rw [dispatch_verb] at hrun
  obtain ⟨tr1, tr2, r, n1, -, hpage, hret⟩ := among_bind hrun
  obtain ⟨hkeys, hshows⟩ := page_tallies (cursorOf cursor) n tr1 r n1 hpage () ⟨trivial, hn⟩
  have hn' : Shows s.handler.object h m n' := ((stable_shows True).others hret.2 (g := ()) ⟨trivial, hshows⟩).2
  have hreply := congrArg Prod.snd hret.1
  cases r with
  | error e => cases hreply
  | ok ks =>
    simp only [replyWith, scanReply, Frame.array.injEq, List.cons.injEq, Frame.bulkString.injEq, and_true] at hreply
    obtain ⟨hnext, hmap⟩ := hreply
    have heq : keys = ks := map_injective_iff.2 (fun a b hab => by cases hab; rfl) hmap
    subst heq
    exact ⟨hkeys _ rfl, hn', hnext⟩

/-- A page that is not full is the last one; the cursor of a full page is its last key. -/
theorem Answers.short_or_full (ha : Answers c me s d n cursor next keys n') (hn : Shows s.handler.object h m n) :
    ((left d m cursor).length < scanPage ∧ keys = left d m cursor ∧ next = endMark) ∨
      (scanPage ≤ (left d m cursor).length ∧ keys = (left d m cursor).take scanPage ∧ (left d m cursor)[9]? = some next) := by
  obtain ⟨rfl, -, rfl⟩ := ha.page hn
  rcases Nat.lt_or_ge (left d m cursor).length scanPage with hlt | hge
  · have htake : (left d m cursor).take scanPage = left d m cursor := take_of_length_le hlt.le
    rw [htake]
    exact .inl ⟨hlt, rfl, if_pos hlt⟩
  have hlen : ((left d m cursor).take scanPage).length = scanPage := length_take_of_le hge
  rw [if_neg (by omega), getLast?_eq_getElem?, hlen]
  have hin : 9 < (left d m cursor).length := hge
  refine .inr ⟨hge, rfl, ?_⟩
  rw [getElem?_take_of_lt (by decide), show scanPage - 1 = 9 from rfl, getElem?_eq_getElem hin]
  rfl

/-- After a full page whose last key is not `0` the walk goes on behind it. -/
theorem left_drop (hnext : (left d m cursor)[9]? = some next) (hne : next ≠ endMark) :
    left d m next = (left d m cursor).drop scanPage := by
  have hcursor : cursorOf next = some next := by simp [cursorOf, hne]
  unfold left
  rw [hcursor]
  exact Direction.ahead_drop hnext

theorem markApart_of_short {l : List Bytes} (hl : l.length ≤ scanPage) : MarkApart l := by
  intro i hi
  have hlt := (List.getElem?_eq_some_iff.1 hi).1
  unfold scanPage at *
  omega

/-- A full page that does not end on the mark. -/
theorem markApart_drop {l : List Bytes} {k : Bytes} (hk : l[9]? = some k) (hne : k ≠ endMark) :
    MarkApart (l.drop scanPage) ↔ MarkApart l := by
  have hshift : ∀ i, (l.drop scanPage)[scanPage * i + 9]? = l[scanPage * (i + 1) + 9]? := by
    intro i
    rw [getElem?_drop]
    congr 1
    unfold scanPage
    omega
  have hlen : 9 < l.length := (List.getElem?_eq_some_iff.1 hk).1
  constructor
  · intro hdrop i hi
    cases i with
    | zero => exact absurd (Option.some.inj (hk.symm.trans hi)) hne
    | succ i =>
      have := hdrop i (hshift i ▸ hi)
      rw [length_drop] at this
      unfold scanPage at *
      omega
  · intro hl i hi
    have := hl (i + 1) (hshift i ▸ hi)
    rw [length_drop]
    unfold scanPage at *
    omega

/-- The client asks for one page per ten keys, and one more. -/
theorem Walk.length_le {pages : List (List Bytes)} {done : Bool} (hw : Walk c me s d n cursor pages done)
    (hn : Shows s.handler.object h m n) : pages.length ≤ (left d m cursor).length / scanPage + 1 := by
  induction hw with
  | pause => exact Nat.zero_le _
  | last => exact Nat.le_add_left _ _
  | more ha hne _ ih =>
    have hrest := ih (ha.page hn).2.1
    rcases ha.short_or_full hn with ⟨-, -, hend⟩ | ⟨hge, -, hnext⟩
    · exact absurd hend hne
    · rw [left_drop hnext hne, length_drop] at hrest
      rw [length_cons]
      unfold scanPage at *
      omega

/-- **What a client has seen in the end is everything that was ahead, exactly if the mark stands apart.** -/
theorem Walk.flatten_iff {pages : List (List Bytes)} {done : Bool} (hw : Walk c me s d n cursor pages done) (hdone : done = true)
    (hn : Shows s.handler.object h m n) : pages.flatten = left d m cursor ↔ MarkApart (left d m cursor) := by
  induction hw with
  | pause => cases hdone
  | last ha =>
    rw [flatten_cons, flatten_nil, append_nil]
    rcases ha.short_or_full hn with ⟨hlt, hkeys, -⟩ | ⟨hge, hkeys, hend⟩
    · exact iff_of_true hkeys (markApart_of_short hlt.le)
    -- the page is full and ends on the mark: nothing may follow it
    rw [hkeys, take_eq_self_iff]
    constructor
    · exact markApart_of_short
    · intro hl
      exact hl 0 hend
  | more ha hne _ ih =>
    have hrest := ih hdone (ha.page hn).2.1
    rcases ha.short_or_full hn with ⟨-, -, hend⟩ | ⟨hge, hkeys, hnext⟩
    · exact absurd hend hne
    rw [left_drop hnext hne, markApart_drop hnext hne] at hrest
    rw [flatten_cons, hkeys, ← hrest]
    constructor
    · intro heq
      refine append_cancel_left (heq.trans (take_append_drop scanPage _).symm)
    · intro heq
      rw [heq]
      exact take_append_drop scanPage _

/-- With nobody else about, every request is answered. -/
theorem answers_of_idle (hidle : n.locks = .idle) (cursor : Bytes)
    (hkeys : keys = (left d (s.contents n) cursor).take scanPage) :
    Answers c me s d n cursor (if keys.length < scanPage then endMark else keys.getLast?.getD []) keys n := by
  have heval : (s.dispatch c me (request [d.verb, cursor])).eval steady n = some ((s, scanReply keys), n) := by
    rw [dispatch_verb, eval_bind, page_eval hidle, hkeys]
    rfl
  obtain ⟨tr, hrun, -⟩ := among_of_eval (R := KeepsKeys s.handler.object) heval
  exact ⟨tr, hrun⟩

/-- A walk comes to its end. -/
theorem walk_ends (hidle : n.locks = .idle) : ∀ (k : ℕ) (cursor : Bytes), (left d (s.contents n) cursor).length ≤ k →
    ∃ pages, Walk c me s d n cursor pages true := by
  have hn : Shows s.handler.object (n.object s.handler.object).tree (s.contents n) n := ⟨rfl, rfl⟩
  intro k
  induction k with
  | zero =>
    intro cursor hk
    obtain ⟨next, keys, ha⟩ : ∃ next keys, Answers c me s d n cursor next keys n := ⟨_, _, answers_of_idle hidle cursor rfl⟩
    rcases ha.short_or_full hn with ⟨-, -, rfl⟩ | ⟨hge, -, -⟩
    · exact ⟨_, .last ha⟩
    · have hpos : 0 < scanPage := by decide
      omega
  | succ k ih =>
    intro cursor hk
    obtain ⟨next, keys, ha⟩ : ∃ next keys, Answers c me s d n cursor next keys n := ⟨_, _, answers_of_idle hidle cursor rfl⟩
    by_cases hne : next = endMark
    · subst hne
      exact ⟨_, .last ha⟩
    rcases ha.short_or_full hn with ⟨-, -, hend⟩ | ⟨hge, -, hnext⟩
    · exact absurd hend hne
    have hlen : (left d (s.contents n) next).length ≤ k := by
      rw [left_drop hnext hne, length_drop]
      have hpos : 0 < scanPage := by decide
      omega
    obtain ⟨pages, hpages⟩ := ih next hlen
    exact ⟨_, .more ha hne hpages⟩

/-- Two lists in one strict order with the same members. -/
theorem eq_of_same_members {l l' : List Bytes} (hl : l.Pairwise d.Before) (hl' : l'.Pairwise d.Before)
    (hmem : ∀ k, k ∈ l ↔ k ∈ l') : l = l' := by
  have hanti : ∀ k k', d.Before k k' → d.Before k' k → k = k' := by
    intro k k' h h'
    cases d with
    | ascending | descending => exact absurd (lt_trans h h') (lt_irrefl _)
  have hnodup : ∀ {l : List Bytes}, l.Pairwise d.Before → l.Nodup := by
    intro l hl
    refine hl.imp fun {a b} hab heq => ?_
    subst heq
    cases d with
    | ascending | descending => exact lt_irrefl a hab
  exact ((perm_ext_iff_of_nodup (hnodup hl) (hnodup hl')).2 hmem).eq_of_pairwise (fun a b _ _ => hanti a b) hl hl'

/-- **A client that walks by SCAN or RSCAN sees every key once, in order, and comes to an end, exactly if `0` is no key at
the end of a full page with keys after it.** -/
theorem scan_sees_every_key_iff (c : RespConfig) (me : ℕ) (s : Session) (d : Direction) (n : Node) (hidle : n.locks = .idle) :
    SeesEveryKey c me s d n ↔ MarkApart (d.ahead (s.contents n) none) := by
  have hn : Shows s.handler.object (n.object s.handler.object).tree (s.contents n) n := ⟨rfl, rfl⟩
  have hstart : left d (s.contents n) endMark = d.ahead (s.contents n) none := rfl
  have hlen : (d.ahead (s.contents n) none).length = (s.contents n).entries.length := by
    cases d with
    | ascending => exact length_map _
    | descending => simp [Direction.ahead, OrdMap.before]
  obtain ⟨pages, hpages⟩ : ∃ pages, Walk c me s d n endMark pages true := walk_ends hidle _ endMark (le_refl _)
  constructor
  · rintro ⟨-, hall⟩
    obtain ⟨hsorted, hmem⟩ := (hall pages true hpages).2 rfl
    have hflat : pages.flatten = d.ahead (s.contents n) none :=
      eq_of_same_members hsorted Direction.pairwise_ahead fun k => (hmem k).trans Direction.mem_ahead.symm
    exact hstart ▸ (hpages.flatten_iff rfl hn).1 (hflat.trans hstart.symm)
  intro hapart
  refine ⟨⟨pages, hpages⟩, fun pages' done hw => ⟨?_, fun hdone => ?_⟩⟩
  · have := hw.length_le hn
    rw [hstart, hlen] at this
    exact this
  · rw [(hw.flatten_iff hdone hn).2 (hstart ▸ hapart), hstart]
    exact ⟨Direction.pairwise_ahead, fun k => Direction.mem_ahead⟩

/-- The keys from `'` to `1`: the tenth is `0`. -/
def elevenKeys : List Bytes := (List.range 11).map fun i => [Fin.ofNat 256 (39 + i)]

/-- A connection that has stored a value under each of the keys. -/
def stored : NodeProg (Option Session) :=
  (Session.new abcServer 0).bind fun
    | .ok s => (s.serve abcServer 0 (elevenKeys.map fun k => request [utf8 "SET", k, abc])).bind fun _ => .ret (some s)
    | .error _ => .ret none

theorem idle_of_empty {l : RwLocks LockName} (h : l.held.isEmpty = true ∧ l.wanted.isEmpty = true) : l = .idle := by
  obtain ⟨held, wanted⟩ := l
  simp only [List.isEmpty_iff] at h
  obtain ⟨rfl, rfl⟩ := h
  rfl

/-- SCAN stops at the key `0`, which ends the first page, and never shows the key `1`. -/
theorem scan_stops_at_zero : ∃ s n, stored.eval steady freshNode = some (some s, n) ∧
    ∃ keys, Walk abcServer 0 s .ascending n endMark [keys] true ∧ [ascii '1'] ∉ keys ∧
      ((s.contents n).get [ascii '1']).isSome = true := by
  have hrun : (match stored.eval steady freshNode with
      | some (some s, n) =>
        let keys := (left .ascending (s.contents n) endMark).take scanPage
        (n.locks.held.isEmpty && n.locks.wanted.isEmpty) &&
          (decide ((if keys.length < scanPage then endMark else keys.getLast?.getD []) = endMark) &&
            (decide ([ascii '1'] ∉ keys) && ((s.contents n).get [ascii '1']).isSome))
      | some (none, _) => false
      | none => false) = true := by decide +kernel
  split at hrun
  · rename_i s n heval
    simp only [Bool.and_eq_true, decide_eq_true_eq] at hrun
    obtain ⟨hidle, hend, hunseen, hthere⟩ := hrun
    have ha : Answers abcServer 0 s .ascending n endMark _ _ n := answers_of_idle (idle_of_empty hidle) endMark rfl
    rw [hend] at ha
    exact ⟨s, n, heval, _, .last ha, hunseen, hthere⟩
  · cases hrun
  · cases hrun

/-- RSCAN of the same keys: the tenth is `(`, and `0` is inside the first page. -/
theorem scan_sees_every_key_iff_elevenKeys : ∃ s n, stored.eval steady freshNode = some (some s, n) ∧
    (s.contents n).entries.length = 11 ∧ n.locks = .idle ∧ SeesEveryKey abcServer 0 s .descending n := by
  have hrun : (match stored.eval steady freshNode with
      | some (some s, n) =>
        (n.locks.held.isEmpty && n.locks.wanted.isEmpty) && (decide ((s.contents n).entries.length = 11) &&
          decide (Direction.ahead .descending (s.contents n) none = elevenKeys.reverse))
      | some (none, _) => false
      | none => false) = true := by decide +kernel
  split at hrun
  · rename_i s n heval
    simp only [Bool.and_eq_true, decide_eq_true_eq] at hrun
    obtain ⟨hidle, hlen, hkeys⟩ := hrun
    refine ⟨s, n, heval, hlen, idle_of_empty hidle,
      (scan_sees_every_key_iff abcServer 0 s .descending n (idle_of_empty hidle)).2 ?_⟩
    rw [hkeys]
    exact (markApart_drop (k := [ascii '(']) (by decide +kernel) (by decide)).1 (markApart_of_short (by decide +kernel))
  · cases hrun
  · cases hrun

end Client

end QssStorage.Respcas
