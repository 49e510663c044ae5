import QssStorage.Proof.Ledger
import QssStorage.Proof.NodeSteps

/-!
# FLUSH and the blocks of the flushed records

FLUSH drops the namespace's row, counter and tree and makes them anew (`flush_namespace`). It
does not look at the records it drops, so nobody releases the references they held.

* `flush_releases_iff`: **the references of the flushed records are given back exactly if there
  were none.**
-/

namespace QssStorage.Respcas

open Conc Prog
open Resp2 (Frame)

variable {α : Type} (name : Bytes)
variable {body : Store → Except Err (α × Store)} {cache : OrdMap Bytes ℕ} {props : NamespaceProperties}
  (c : RespConfig) (me : ℕ)

/-! ## What FLUSH leaves alone -/

/-- Block records and block files stay. -/
def BlocksKept (n n' : Node) : Prop := n'.store.blocks = n.store.blocks ∧ n'.store.files = n.store.files

theorem BlocksKept.refl (n : Node) : BlocksKept n n := ⟨rfl, rfl⟩

theorem BlocksKept.of_metaOnly (n n' : Node) (h : MetaOnly n n') : BlocksKept n n' := by
  obtain ⟨b, u, t, d, v, rfl⟩ := h
  exact ⟨rfl, rfl⟩

theorem BlocksKept.of_onlyLocks (n n' : Node) (h : OnlyLocks n n') : BlocksKept n n' := by
  obtain ⟨l, rfl⟩ := h
  exact ⟨rfl, rfl⟩

/-- A change outside the store. -/
theorem update_blocksKept {f : Node → Node} (hf : ∀ n, (f n).store = n.store) : Steps BlocksKept (update f) fun _ => True :=
  Steps.step fun e n a n' h => by cases h; exact ⟨⟨by rw [hf], by rw [hf]⟩, trivial⟩

theorem flushNamespace_steps (name : Bytes) : Steps BlocksKept (flushNamespace me name) fun _ => True := by
  have hmeta := (getNamespaceMeta_steps MetaOnly.refl name).mono BlocksKept.of_metaOnly fun _ h => h
  have hopen := (getNamespace_steps defaultNamespace).mono BlocksKept.of_metaOnly fun _ h => h
  have hdelete := (deleteNamespace_steps name).mono BlocksKept.of_metaOnly fun _ h => h
  have hcreate := (createNamespace_steps name).mono BlocksKept.of_metaOnly fun _ h => h
  refine holding_steps BlocksKept.of_onlyLocks _ _ _ (Steps.seq (look_steps .refl _) fun cached => ?_)
  cases cached with
  | none => exact trivial
  | some o =>
    refine Steps.thenTrue hmeta fun m => Steps.thenTrue hopen fun placeholder =>
      Steps.seq (holding_steps BlocksKept.of_onlyLocks _ _ _ (update_blocksKept fun _ => rfl)) fun _ =>
        Steps.thenTrue hdelete fun _ => Steps.thenTrue hcreate fun tree =>
          holding_steps BlocksKept.of_onlyLocks _ _ _ (Steps.seq (update_blocksKept fun _ => rfl) fun _ => ?_)
    exact (updateNamespaceMeta_steps name m).mono BlocksKept.of_metaOnly fun _ h => h

theorem handleFlush_steps (h : CommandHandler) : Steps BlocksKept (handleFlush c me h) fun _ => True := by
  have hflush : Steps BlocksKept (flush me h) fun _ => True := by
    refine Steps.seq (holding_steps BlocksKept.of_onlyLocks _ _ _ (look_steps .refl _)) fun name => ?_
    split
    · exact trivial
    · exact flushNamespace_steps me name
  have hchecked : Steps BlocksKept (flushChecked c me h) fun _ => True := by
    refine Steps.seq (look_steps .refl _) fun props => ?_
    split
    · exact trivial
    refine Steps.seq (getNamespaceMeta_steps .refl _) fun m => ?_
    split
    · exact trivial
    split
    · exact trivial
    · exact Steps.seq hflush fun r => trivial
  refine holding_steps BlocksKept.of_onlyLocks _ _ _ ?_
  exact Steps.seq (update_blocksKept fun _ => rfl) fun _ => Steps.seq hchecked fun reply =>
    Steps.seq (update_blocksKept fun _ => rfl) fun _ => trivial

/-! ## The namespace is emptied -/

/-- The others leave the store, the cache and the properties of the object alone. -/
def Aside (o : ℕ) (_ : Unit) (n n' : Node) : Prop :=
  n'.store = n.store ∧ n'.cache = n.cache ∧ (n'.object o).properties = (n.object o).properties

variable {o : ℕ}

/-- There is nothing to tally. -/
def untallied (_ : Unit) (_ : Turn Unit Node) : Unit := ()

/-- The tree of a name is empty. -/
def Emptied (name : Bytes) (n : Node) : Prop := n.store.tree name = ∅

theorem stable_emptied (P : Prop) (name : Bytes) : Stable untallied (Aside o) fun n _ => P → Emptied name n := by
  rintro _ n n' _ ⟨hstore, -, -⟩ h hP
  unfold Emptied
  rw [hstore]
  exact h hP

theorem stable_true : Stable untallied (Aside o) fun _ _ => True := fun _ _ _ _ _ _ => trivial

/-- One transaction of a program of the store. -/
theorem transact_tallies {J : Node → Prop} {Q : Except Err α → Node → Prop}
    (hJ : Stable untallied (Aside o) fun n _ => J n) (hQ : ∀ r, Stable untallied (Aside o) fun n _ => Q r n)
    (herr : ∀ n e, Q (.error e) n) (hok : ∀ n a s', body n.store = .ok (a, s') → J n → Q (.ok a) (n.withStore s')) :
    Tallies (Aside o) untallied (fun n _ => J n) (onStore (transact body)) fun r n _ => Q r n := by
  refine tallies_step hJ hQ fun e n _ r n' hf hn => ?_
  obtain ⟨⟨r', s'⟩, hf', heq⟩ := Option.map_eq_some_iff.1 hf
  cases heq
  dsimp only at hf'
  split at hf' <;> cases hf'
  · exact herr _ _
  · exact hok n _ _ ‹_› hn
  · exact herr _ _
  · exact herr _ _

/-- After `drop_bucket` the tree is gone. -/
theorem deleteNamespace_tallies : Tallies (Aside o) untallied (fun _ _ => True) (deleteNamespace name)
    fun r n _ => r = .ok () → Emptied name n := by
  have hlook : Tallies (Aside o) untallied (fun _ _ => True) (look fun n => n.treeExists name) fun _ _ _ => True :=
    fun _ _ _ _ _ _ _ => trivial
  refine tallies_bind hlook fun found => ?_
  split
  swap
  · exact tallies_ret stable_true fun _ _ _ h => by cases h
  have hdrop : Tallies (Aside o) untallied (fun _ _ => True) (onStore (dropBucket name)) fun r n _ =>
      r = .ok () → Emptied name n := by
    have hany : ∀ {α : Type} {p : NodeProg α}, Tallies (Aside o) untallied (fun _ _ => True) p fun _ _ _ => True :=
      fun _ _ _ _ _ _ _ => trivial
    unfold onStore dropBucket
    rw [zoom_andThen]
    refine tallies_andThen hany (fun _ => stable_true) (fun _ _ _ _ h => by cases h) fun _ => ?_
    rw [zoom_andThen]
    refine tallies_andThen hany (fun _ => stable_true) (fun _ _ _ _ h => by cases h) fun _ => ?_
    rw [zoom_bind]
    -- the tree that was not found stays away, the one that was found is deleted
    have hexists : Tallies (Aside o) untallied (fun _ _ => True) ((bucketExists name).zoom Node.store Node.withStore)
        fun found n _ => found = false → Emptied name n := by
      refine tallies_step stable_true (fun found => stable_emptied _ name) fun e n _ found n' hf _ => ?_
      cases hf
      intro hfound
      unfold Emptied Store.tree
      have hnone : n.store.trees.get name = none := by simpa [Store.hasTree] using hfound
      simp [Node.withStore, hnone]
    refine tallies_bind hexists fun found => ?_
    cases found with
    | false => exact tallies_ret (stable_emptied _ name) fun n _ h _ => h rfl
    | true =>
      refine (transact_tallies (J := fun _ => True) (Q := fun r n => r = .ok () → Emptied name n) stable_true
        (fun r => stable_emptied _ name) (fun _ _ h => by cases h) fun n a s' hb _ _ => ?_).weaken fun _ _ _ => trivial
      cases hb
      unfold Emptied Store.tree
      simp [Node.withStore]
  refine tallies_bind hdrop fun r => tallies_ret (stable_emptied _ name) fun n _ h hr => h ?_
  cases r with
  | ok _ => rfl
  | error e => cases hr

/-- A step after which every name has the records it had. -/
def TreesAlike (n n' : Node) : Prop := ∀ name, n'.store.tree name = n.store.tree name

theorem TreesAlike.refl (n : Node) : TreesAlike n n := fun _ => rfl

theorem TreesAlike.of_onlyLocks (n n' : Node) (h : OnlyLocks n n') : TreesAlike n n' := by
  obtain ⟨l, rfl⟩ := h
  exact fun _ => rfl

/-- Opening a tree. -/
theorem tree_setTree_self (s : Store) (name x : Bytes) : (s.setTree name (s.tree name)).tree x = s.tree x := by
  unfold Store.setTree
  by_cases hx : x = name
  · subst hx
    simp [Store.tree]
  · simp [Store.tree, OrdMap.get_insert, hx]

theorem openTree_alike : Steps TreesAlike (openTree name) fun _ => True := by
  refine Steps.step fun e n r n' hf => ⟨?_, trivial⟩
  have hopened : TreesAlike n (if isOwnTree name then n else n.withStore (n.store.setTree name (n.store.tree name))) := by
    split
    · exact .refl n
    · exact fun x => tree_setTree_self n.store name x
  dsimp only at hf
  split at hf <;> cases hf
  · exact hopened
  · exact .refl n
  · exact hopened

/-- A transaction that leaves every name its records. -/
theorem onStore_transact_alike (h : ∀ s a s', body s = .ok (a, s') → ∀ x, s'.tree x = s.tree x) :
    Steps TreesAlike (onStore (transact body)) fun _ => True :=
  Steps.zoom (G := fun s s' => ∀ x, s'.tree x = s.tree x) (fun _ _ h => h) (transact_steps' (fun _ _ => rfl) h)

theorem createNamespace_alike : Steps TreesAlike (createNamespace name) fun _ => True := by
  refine Steps.thenTrue (Steps.seq ?_ fun _ => trivial) fun inserted => ?_
  · unfold onStore insertBucketIfAbsent
    split
    · exact trivial
    rw [zoom_andThen]
    refine Steps.thenTrue (onStore_transact_alike fun s a s' h => ?_) fun claimed => ?_
    · unfold claimName at h
      split at h <;> cases h <;> exact fun _ => rfl
    split
    · rw [zoom_andThen]
      refine Steps.thenTrue (onStore_transact_alike fun s a s' h => ?_) fun _ => trivial
      cases h
      exact tree_setTree_self s name
    · exact trivial
  · split
    · exact whenTree_steps .refl name (openTree_alike name)
    · exact trivial

theorem updateNamespaceMeta_alike (m : NamespaceMeta) : Steps TreesAlike (updateNamespaceMeta name m) fun _ => True :=
  whenTree_steps .refl name (Steps.seq (onStore_transact_alike fun s a s' h => by cases h; exact fun _ => rfl) fun _ => trivial)

theorem update_alike {f : Node → Node} (hf : ∀ n, (f n).store = n.store) : Steps TreesAlike (update f) fun _ => True :=
  Steps.step fun e n a n' h => by cases h; exact ⟨fun x => by rw [hf], trivial⟩

/-- A program that leaves every name its records leaves an empty one empty. -/
theorem alike_tallies {p : NodeProg α} (hp : Steps TreesAlike p fun _ => True) (name : Bytes) :
    Tallies (Aside o) untallied (fun n _ => Emptied name n) p fun _ n _ => Emptied name n := by
  have hstable : Stable untallied (Aside o) fun n _ => Emptied name n :=
    fun l n n' g hR hn => stable_emptied True name l n n' g hR (fun _ => hn) trivial
  refine (tallies_quiet hstable (fun n n' _ halike hn => ?_) TreesAlike.refl hp).mono fun _ _ _ h => h.2
  exact (halike name).trans hn

/-- A cached namespace whose FLUSH succeeds is empty afterwards. -/
theorem flushNamespace_tallies (name : Bytes) (cache : OrdMap Bytes ℕ) (hcached : (cache.get name).isSome = true) :
    Tallies (Aside o) untallied (fun n _ => n.cache = cache) (flushNamespace me name)
      fun r n _ => r = .ok () → Emptied name n := by
  have hcache : Stable untallied (Aside o) fun n _ => n.cache = cache := fun _ n n' _ hR hn => hR.2.1.trans hn
  refine tallies_holding hcache (fun r => stable_emptied _ name) (fun _ _ _ h => h) (fun _ _ _ _ h => h) _ _ _ ?_
  have hlook : Tallies (Aside o) untallied (fun n _ => n.cache = cache) (look fun n => n.cache.get name)
      fun cached _ _ => cached = cache.get name :=
    tallies_step hcache (fun _ => Stable.const _) fun e n _ cached n' hf hn => by cases hf; exact congrArg (OrdMap.get · name) hn
  refine tallies_bind hlook fun cached => ?_
  cases cached with
  | none =>
    refine tallies_ret (Stable.const _) fun n _ h => ?_
    rw [← h] at hcached
    cases hcached
  | some o' =>
    have hany : ∀ {α : Type} {P : Prop} {p : NodeProg α}, Tallies (Aside o) untallied (fun _ _ => P) p fun _ _ _ => True :=
      fun _ _ _ _ _ _ _ => trivial
    refine tallies_andThen hany (fun _ => stable_true) (fun _ _ _ _ h => by cases h) fun m =>
      tallies_andThen hany (fun _ => stable_true) (fun _ _ _ _ h => by cases h) fun placeholder =>
        tallies_bind hany fun _ => ?_
    refine tallies_andThen (deleteNamespace_tallies name) (fun _ => stable_emptied _ name) (fun _ _ _ _ h => by cases h) fun _ => ?_
    -- from here on nothing brings a record back
    have hrest : Tallies (Aside o) untallied (fun n _ => Emptied name n) ((createNamespace name).andThen fun tree =>
        holding me (.tree o') .write <| (update (Node.modifyObject o' fun ns => { ns with tree })).bind fun _ =>
          updateNamespaceMeta name m) fun _ n _ => Emptied name n := by
      refine alike_tallies (Steps.thenTrue (createNamespace_alike name) fun tree => ?_) name
      exact holding_steps TreesAlike.of_onlyLocks _ _ _
        (Steps.seq (update_alike fun _ => rfl) fun _ => updateNamespaceMeta_alike name m)
    exact (hrest.weaken fun n _ h => h rfl).mono fun _ _ _ h _ => h

/-- What FLUSH finds: the cache and the properties of its object. -/
def Found (o : ℕ) (cache : OrdMap Bytes ℕ) (props : NamespaceProperties) (n : Node) : Prop :=
  n.cache = cache ∧ (n.object o).properties = props

theorem stable_found (P : Prop) : Stable untallied (Aside o) fun n _ => P ∧ Found o cache props n :=
  fun _ _ _ _ hR hn => ⟨hn.1, hR.2.1.trans hn.2.1, hR.2.2.trans hn.2.2⟩

/-- **A cached namespace is empty after a FLUSH that answers OK.** -/
theorem handleFlush_tallies (h : CommandHandler) (hcached : (cache.get props.namespaceName).isSome = true) :
    Tallies (Aside h.object) untallied (fun n _ => True ∧ Found h.object cache props n) (handleFlush c me h)
      fun reply n _ => reply = simple "OK" → Emptied props.namespaceName n := by
  have hflush : Tallies (Aside h.object) untallied (fun n _ => True ∧ Found h.object cache props n) (flush me h)
      fun r n _ => r = .ok () → Emptied props.namespaceName n := by
    have hname : Tallies (Aside h.object) untallied (fun n _ => True ∧ Found h.object cache props n)
        (property me h.object (·.namespaceName)) fun name n _ => name = props.namespaceName ∧ Found h.object cache props n := by
      refine tallies_holding (stable_found True) (fun _ => stable_found _) (fun _ _ _ h => h) (fun _ _ _ _ h => h) _ _ _ ?_
      refine tallies_step (stable_found True) (fun _ => stable_found _) fun e n _ name n' hf hn => ?_
      cases hf
      exact ⟨congrArg NamespaceProperties.namespaceName hn.2.2, hn.2⟩
    refine tallies_bind hname fun name => tallies_pure fun hname => ?_
    subst hname
    split
    · exact tallies_ret (J := fun n _ => Found h.object cache props n)
        (fun _ _ _ _ hR hn => ⟨hR.2.1.trans hn.1, hR.2.2.trans hn.2⟩) fun _ _ _ h => by cases h
    · exact (flushNamespace_tallies me _ cache hcached).weaken fun _ _ hn => hn.1
  have hfinish : ∀ text : String, Tallies (Aside h.object) untallied (fun n _ => True ∧ Found h.object cache props n)
      (.ret (.error text) : NodeProg Frame) fun reply n _ => reply = simple "OK" → Emptied props.namespaceName n :=
    fun text => tallies_ret (stable_found True) fun _ _ _ h => by cases h
  have hquiet : ∀ {α : Type} {p : NodeProg α}, Steps Eq p (fun _ => True) →
      Tallies (Aside h.object) untallied (fun n _ => True ∧ Found h.object cache props n) p
        fun _ n _ => True ∧ Found h.object cache props n := by
    intro α p hp
    refine (tallies_quiet (stable_found True) (fun n n' _ heq hn => ?_) (fun _ => rfl) hp).mono fun _ _ _ h => h.2
    subst heq
    exact hn
  have hchecked : Tallies (Aside h.object) untallied (fun n _ => True ∧ Found h.object cache props n) (flushChecked c me h)
      fun reply n _ => reply = simple "OK" → Emptied props.namespaceName n := by
    refine tallies_bind (hquiet (look_steps (fun _ => rfl) _)) fun props => ?_
    split
    · exact hfinish _
    refine tallies_bind (hquiet (getNamespaceMeta_steps (fun _ => rfl) _)) fun m => ?_
    split
    · exact hfinish _
    split
    · exact hfinish _
    refine tallies_bind hflush fun r => tallies_ret (stable_emptied _ _) fun n _ hn hreply => hn ?_
    cases r with
    | ok _ => rfl
    | error e => cases hreply
  refine tallies_holding (stable_found True) (fun _ => stable_emptied _ _) (fun _ _ _ h => h) (fun _ _ _ _ h => h) _ _ _ ?_
  have hmark : Tallies (Aside h.object) untallied (fun n _ => True ∧ Found h.object cache props n)
      (update fun n => { n with flushing := h.object :: n.flushing }) fun _ n _ => True ∧ Found h.object cache props n :=
    tallies_step (stable_found True) (fun _ => stable_found True) fun e n _ _ n' hf hn => by cases hf; exact hn
  have hunmark : ∀ P : Prop, Tallies (Aside h.object) untallied (fun n _ => P → Emptied props.namespaceName n)
      (update fun n => { n with flushing := n.flushing.erase h.object }) fun _ n _ => P → Emptied props.namespaceName n :=
    fun P => tallies_step (stable_emptied P _) (fun _ => stable_emptied P _) fun e n _ _ n' hf hn => by cases hf; exact hn
  exact tallies_bind hmark fun _ => tallies_bind hchecked fun reply => tallies_bind (hunmark _) fun _ =>
    tallies_ret (stable_emptied _ _) fun _ _ h => h

/-! ## The references of the flushed records -/

/-- The references that the records of a namespace hold. -/
def namespaceRefs (name : Bytes) (s : Store) : Multiset BlockId := (s.tree name).sum fun _ => objectCellRefs

/-- The counts have dropped by the references of the records, and a block that no other record holds is gone. -/
def Releases (name : Bytes) (s s' : Store) : Prop :=
  ∀ id, rcOf s' id + (namespaceRefs name s).count id = rcOf s id ∧
    (0 < (namespaceRefs name s).count id → (objectRefs s + partRefs s).count id = (namespaceRefs name s).count id →
      s'.blocks.get id = none ∧ ∀ d, ¬ FileAt s' id d)

theorem namespaceRefs_eq_zero_iff (s : Store) : namespaceRefs name s = 0 ↔
    ∀ key o, (s.tree name).get key = some (.record o) → o.blocks = [] := by
  unfold namespaceRefs
  constructor
  · intro h key o hget
    rw [OrdMap.sum_of_get _ hget] at h
    have hcell : objectCellRefs (.record o) = 0 := (add_eq_zero.1 h).1
    exact (Multiset.coe_eq_zero _).1 hcell
  intro h
  refine List.sum_eq_zero fun x hx => ?_
  obtain ⟨⟨key, cell⟩, he, rfl⟩ := List.mem_map.1 hx
  cases cell with
  | garbage => rfl
  | record o => exact (Multiset.coe_eq_zero _).2 (h key o (OrdMap.mem_entries.1 he))

/-- The name of the namespace that a handler is bound to. -/
def CommandHandler.boundTo (h : CommandHandler) (n : Node) : Bytes := (n.object h.object).properties.namespaceName

/-- **A FLUSH that answers OK empties its namespace, and releases the references of its records exactly if
they hold none.** -/
theorem flush_releases_iff {c : RespConfig} {me : ℕ} {h : CommandHandler} {n n' : Node} {tr : List (Turn Unit Node)} {reply : Frame}
    (hrun : Among (Aside h.object) (handleFlush c me h) n tr reply n') (hok : reply = simple "OK")
    (hcached : (n.cache.get (h.boundTo n)).isSome = true) :
    Emptied (h.boundTo n) n' ∧
      (Releases (h.boundTo n) n.store n'.store ↔
        ∀ key o, (n.store.tree (h.boundTo n)).get key = some (.record o) → o.blocks = []) := by
  have hempty := handleFlush_tallies c me h hcached n tr reply n' hrun () ⟨trivial, rfl, rfl⟩ hok
  have hkept : n'.store.blocks = n.store.blocks ∧ n'.store.files = n.store.files := by
    have hstable : Stable untallied (Aside h.object) fun n1 _ => n1.store.blocks = n.store.blocks ∧ n1.store.files = n.store.files := by
      rintro _ n1 n2 _ ⟨hstore, -, -⟩ hn
      rw [hstore]
      exact hn
    exact (tallies_quiet hstable (fun _ _ _ hk hn => ⟨hk.1.trans hn.1, hk.2.trans hn.2⟩) BlocksKept.refl
      (handleFlush_steps c me h) n tr reply n' hrun () ⟨rfl, rfl⟩).2
  have hrc : ∀ id, rcOf n'.store id = rcOf n.store id := fun id => by unfold rcOf; rw [hkept.1]
  refine ⟨hempty, ?_⟩
  rw [← namespaceRefs_eq_zero_iff]
  constructor
  · intro hrel
    refine Multiset.ext.2 fun id => ?_
    have hcount := (hrel id).1
    rw [hrc id] at hcount
    rw [Multiset.count_zero]
    omega
  · intro hzero id
    rw [hzero, hrc, Multiset.count_zero]
    exact ⟨rfl, fun hpos => absurd hpos (lt_irrefl 0)⟩

/-! ## Runs -/

/-- A client that sets up the private namespace `n` with content addresses and the password `p`,
and stores `abc` in it. -/
def setUp : List Frame :=
  [["AUTH", "secret"], ["NSNEW", "n"], ["NSSET", "n", "key_mode", "cas"], ["NSSET", "n", "public", "0"],
    ["NSSET", "n", "password", "p"], ["SELECT", "n", "p"], ["CSET", "abc"]].map fun words => request (words.map utf8)

/-- The frames of a client, and the session they leave. -/
def served (c : RespConfig) (me : ℕ) : Session → List Frame → NodeProg Session
  | s, [] => .ret s
  | s, frame :: frames => (s.dispatch c me frame).bind fun r => served c me r.1 frames

/-- The first connection of a server, after it has sent the frames. -/
def connected (c : RespConfig) (frames : List Frame) : NodeProg (Option Session) :=
  (Session.new c 0).bind fun
    | .ok s => (served c 0 s frames).bind fun s => .ret (some s)
    | .error _ => .ret none

/-- Whether a reply is `OK`. -/
def isOk : Frame → Bool
  | .simpleString text => text = utf8 "OK"
  | _ => false

theorem eq_of_isOk {reply : Frame} (h : isOk reply = true) : reply = simple "OK" := by
  unfold isOk at h
  split at h
  · exact congrArg Frame.simpleString (of_decide_eq_true h)
  · cases h

/-- The flushed record held `abc`; its count is still 1 after the FLUSH. -/
theorem flush_keeps_references : ∃ s n reply n', (connected abcServer setUp).eval steady freshNode = some (some s, n) ∧
    (handleFlush abcServer 0 s.handler).eval steady n = some (reply, n') ∧ reply = simple "OK" ∧
      s.handler.boundTo n = utf8 "n" ∧ ¬ Releases (utf8 "n") n.store n'.store := by
  have hrun : (match (connected abcServer setUp).eval steady freshNode with
      | some (some s, n) =>
        match (handleFlush abcServer 0 s.handler).eval steady n with
        | some (reply, n') => isOk reply && (decide (s.handler.boundTo n = utf8 "n") &&
            (decide (rcOf n.store abcId = 1) && (decide (rcOf n'.store abcId = 1) &&
              decide ((namespaceRefs (utf8 "n") n.store).count abcId = 1))))
        | none => false
      | some (none, _) => false
      | none => false) = true := by decide +kernel
  split at hrun
  · rename_i s n heval
    split at hrun
    · rename_i reply n' hflush
      simp only [Bool.and_eq_true, decide_eq_true_eq] at hrun
      obtain ⟨hok, hname, hbefore, hafter, hheld⟩ := hrun
      refine ⟨s, n, reply, n', heval, hflush, eq_of_isOk hok, hname, fun hrel => ?_⟩
      have hcount := (hrel abcId).1
      omega
    · cases hrun
  · cases hrun
  · cases hrun

/-- A server that keeps short values in their records. -/
def inlineServer : RespConfig := { abcServer with inlineMax := 16 }

/-- The same client there: the flushed record held no block. -/
theorem flush_releases_iff_inline :
    ∃ s n reply n', (connected inlineServer setUp).eval steady freshNode = some (some s, n) ∧
    (handleFlush inlineServer 0 s.handler).eval steady n = some (reply, n') ∧
      ((n.store.tree (utf8 "n")).get abcDigest).isSome = true ∧ Emptied (utf8 "n") n' ∧
        Releases (utf8 "n") n.store n'.store := by
  have hrun : (match (connected inlineServer setUp).eval steady freshNode with
      | some (some s, n) =>
        match (handleFlush inlineServer 0 s.handler).eval steady n with
        | some (reply, _) => isOk reply && (decide (s.handler.boundTo n = utf8 "n") &&
            ((n.cache.get (s.handler.boundTo n)).isSome && (((n.store.tree (utf8 "n")).get abcDigest).isSome &&
              (n.store.tree (utf8 "n")).entries.all fun e => decide (objectCellRefs e.2 = 0))))
        | none => false
      | some (none, _) => false
      | none => false) = true := by decide +kernel
  split at hrun
  · rename_i s n heval
    split at hrun
    · rename_i reply n' hflush
      simp only [Bool.and_eq_true, decide_eq_true_eq, List.all_eq_true] at hrun
      obtain ⟨hok, hname, hcached, hthere, hinline⟩ := hrun
      obtain ⟨tr, hamong, -⟩ := among_of_eval (R := Aside s.handler.object) hflush
      obtain ⟨hempty, hiff⟩ := flush_releases_iff hamong (eq_of_isOk hok) hcached
      rw [hname] at hempty hiff
      refine ⟨s, n, reply, n', heval, hflush, hthere, hempty, hiff.2 fun key o hget => ?_⟩
      have hblocks := hinline _ (OrdMap.mem_entries.2 hget)
      exact (Multiset.coe_eq_zero _).1 hblocks
    · cases hrun
  · cases hrun
  · cases hrun

end QssStorage.Respcas
