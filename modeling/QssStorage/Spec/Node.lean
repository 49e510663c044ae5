import QssStorage.Conc.RwLocks
import QssStorage.Spec.GetObject

/-!
# The RESP server's namespaces

`respcas/src/namespace.rs`, the namespace half of `respcas/src/storage.rs` and
`respcas/src/content.rs`: the namespace objects that the sessions share, the cache they are
found in, and the reads and writes that go through them.

A namespace object holds a handle on a tree and a copy of the properties, each behind a
reader-writer lock, and so does the cache. Every use of one of them asks for the lock, takes it,
and drops it where the guard goes out of scope in the source. A handle keeps what the tree held
when the tree was deleted. Records are written by the name of the bucket, whatever the handle.

The store's own trees (`_BUCKETS` and the like) can be opened as any other; what they hold does
not decode as an object record. No session gets to write to one: its row is missing, so SELECT
never authenticates for it.

Texts are UTF-8. What `String` does with them beyond ASCII is a parameter (`Text`).
-/

namespace QssStorage.Respcas

open Conc

/-! ## Texts -/

/-- The bytes of a text. -/
def utf8 (s : String) : Bytes := s.toUTF8.toList.map fun b => Fin.ofNat 256 b.toNat

/-- ASCII only. -/
def isAscii (b : Bytes) : Bool := b.all fun x => x.val < 128

/-- `String::from_utf8_lossy`, `to_uppercase`, `to_lowercase` and `trim`, and how a text is printed. -/
structure Text where
  lossy : Bytes → Bytes
  upper : Bytes → Bytes
  lower : Bytes → Bytes
  trim : Bytes → Bytes
  shown : Bytes → String
  lossy_ascii : ∀ b, isAscii b = true → lossy b = b
  upper_ascii : ∀ b, isAscii b = true → upper b = b.map fun x => if 97 ≤ x.val ∧ x.val ≤ 122 then Fin.ofNat 256 (x.val - 32) else x
  lower_ascii : ∀ b, isAscii b = true → lower b = b.map fun x => if 65 ≤ x.val ∧ x.val ≤ 90 then Fin.ofNat 256 (x.val + 32) else x
  trim_ascii : ∀ b, isAscii b = true → (b.all fun x => 32 < x.val) = true → trim b = b

/-- What a server is run with. `fuel` bounds how often a read polls its blocks and a walk its tree. -/
structure RespConfig where
  store : Config
  text : Text
  inlineMax : ℕ
  verifyOnRead : Bool
  valueKey : Bytes → Bytes
  adminPassword : Option Bytes
  errText : Err → String
  bodyErrText : BodyErr → String
  fuel : ℕ

/-! ## The state -/

/-- The properties of a namespace, as its object has them. -/
structure NamespaceProperties where
  namespaceName : Bytes
  worm : Bool
  locked : Bool
  isPublic : Bool
  keyMode : KeyMode
  maxSize : Option ℕ
deriving DecidableEq

/-- The default properties, under a name. -/
def NamespaceProperties.ofName (name : Bytes) : NamespaceProperties :=
  { namespaceName := name, worm := false, locked := false, isPublic := true, keyMode := .userKey, maxSize := none }

/-- `sync_properties_from_meta`. -/
def NamespaceProperties.sync (m : NamespaceMeta) (p : NamespaceProperties) : NamespaceProperties :=
  { p with worm := m.worm, locked := m.locked, isPublic := m.isPublic, keyMode := m.keyMode, maxSize := m.maxSize }

/-- A handle on the tree of a name: the one that was there when `nth` of that name had been deleted. -/
structure TreeHandle where
  name : Bytes
  nth : ℕ
deriving DecidableEq

/-- A namespace object. -/
structure Namespace where
  tree : TreeHandle
  properties : NamespaceProperties
deriving DecidableEq

/-- The locks: of the cache, and two of each object. -/
inductive LockName where
  | cache
  | properties (object : ℕ)
  | tree (object : ℕ)
deriving DecidableEq

/-- What a session's handler knows. -/
structure CommandHandler where
  object : ℕ
  isAdmin : Bool
  namespaceAuthenticated : Bool
deriving DecidableEq

/-- A session: the connection's namespace and rights, and the handler. -/
structure Session where
  connNamespace : Bytes
  connAdmin : Bool
  handler : CommandHandler
deriving DecidableEq

/-- The state the tasks of a server share. `objects` are the namespace objects that were ever made,
`dropped` the trees that were deleted; `sessions` and `flushing` note what each session is bound
to, and the objects whose FLUSH is under way. -/
structure Node where
  store : Store
  headerVersion : ℕ
  dropped : List (Bytes × OrdMap Bytes (Cell Object))
  objects : List Namespace
  cache : OrdMap Bytes ℕ
  locks : RwLocks LockName
  sessions : OrdMap ℕ Session
  flushing : List ℕ

/-- Programs over a node; the locks of the programs are the stripes. -/
abbrev NodeProg := Prog Node Choice ℕ

/-- A server that has opened its store. -/
def Node.opened (s : Store) (headerVersion : ℕ) : Node :=
  { store := s, headerVersion, dropped := [], objects := [], cache := ∅, locks := .idle, sessions := ∅,
    flushing := [] }

/-- The store has changed: handles keep the trees that went away. -/
def Node.withStore (s : Store) (n : Node) : Node :=
  { n with store := s, dropped := n.dropped ++ n.store.trees.entries.filter fun t => !s.hasTree t.1 }

/-- The trees of the store itself. -/
def headerTree : Bytes := utf8 "_STORE_HEADER"
def bucketTree : Bytes := utf8 "_BUCKETS"
def usageTree : Bytes := utf8 "_USAGE"

/-- The name of one of the store's own trees. -/
def isOwnTree (name : Bytes) : Bool := name = headerTree || name = bucketTree || name = usageTree

/-- What one of the store's own trees looks like as a tree of objects. -/
def Node.ownTree (n : Node) (name : Bytes) : OrdMap Bytes (Cell Object) :=
  if name = bucketTree then n.store.buckets.map fun _ => .garbage
  else if name = usageTree then n.store.usage.map fun _ => .garbage
  else (∅ : OrdMap Bytes (Cell Object)).insert (utf8 "header") .garbage

/-- The deleted trees of a name. -/
def Node.droppedTrees (n : Node) (name : Bytes) : List (Bytes × OrdMap Bytes (Cell Object)) :=
  n.dropped.filter fun t => t.1 = name

/-- What is found through a handle. -/
def Node.contents (n : Node) (h : TreeHandle) : OrdMap Bytes (Cell Object) :=
  if isOwnTree h.name then n.ownTree h.name
  else
    match (n.droppedTrees h.name)[h.nth]? with
    | some t => t.2
    | none => n.store.tree h.name

/-- A handle on the tree of a name. -/
def Node.handle (n : Node) (name : Bytes) : TreeHandle := ⟨name, (n.droppedTrees name).length⟩

/-- The object of that number. -/
def Node.object (n : Node) (o : ℕ) : Namespace :=
  n.objects[o]?.getD ⟨⟨defaultNamespace, 0⟩, .ofName defaultNamespace⟩

/-- Change an object. -/
def Node.modifyObject (o : ℕ) (f : Namespace → Namespace) (n : Node) : Node := { n with objects := n.objects.modify o f }

/-- `tree_exists`. -/
def Node.treeExists (n : Node) (name : Bytes) : Bool := isOwnTree name || n.store.hasTree name

/-! ## Steps -/

variable {α : Type}

/-- Look at the node. -/
def look (f : Node → α) : NodeProg α := Prog.step fun _ n => some (f n, n)

/-- Change the node. -/
def update (f : Node → Node) : NodeProg Unit := Prog.step fun _ n => some ((), f n)

/-- A program of the store. -/
def onStore (p : StoreProg α) : NodeProg α := p.zoom Node.store Node.withStore

/-- Ask for a lock. -/
def askFor (g : Guard LockName) : NodeProg Unit := update fun n => { n with locks := n.locks.ask g }

/-- Wait for the lock. -/
def takeLock (g : Guard LockName) : NodeProg Unit :=
  Prog.step fun _ n => (n.locks.take g).map fun l => ((), { n with locks := l })

/-- Drop the guard. -/
def dropLock (g : Guard LockName) : NodeProg Unit := update fun n => { n with locks := n.locks.drop g }

/-- A part of a program that runs with a guard. -/
def holding (me : ℕ) (lock : LockName) (access : Access) (p : NodeProg α) : NodeProg α :=
  (askFor ⟨me, lock, access⟩).bind fun _ => (takeLock ⟨me, lock, access⟩).bind fun _ => p.bind fun a =>
    (dropLock ⟨me, lock, access⟩).bind fun _ => .ret a

/-! ## Errors -/

/-- `StorageError`, and the messages that are made up in respcas. -/
inductive RespErr where
  | namespaceNotFound
  | namespaceExists (name : Bytes)
  | namespaceNotEmpty (name : Bytes) (keys : ℕ)
  | metaError (e : Err)
  | wentAway (key : Bytes)
  | readingBlocks (key : Bytes) (e : BodyErr)
  | notInline
  | locked
  | worm
  | wormDelete
  | cannotFlushDefault
  | overQuota (name : Bytes) (limit usage adding after : ℕ)
  | keyLength
  | mismatch (actual key : Bytes)
deriving DecidableEq

/-- `content::hex`. -/
def hex (key : Bytes) : String := String.ofList (key.flatMap StoreId.hexPair)

/-- The text of an error. -/
def RespErr.text (c : RespConfig) : RespErr → String
  | namespaceNotFound => "Namespace not found"
  | namespaceExists name => s!"namespace {c.text.shown name} already exists"
  | namespaceNotEmpty name keys =>
    s!"namespace {c.text.shown name} holds {keys} key(s): the key mode can only be changed while a namespace is empty"
  | metaError e => c.errText e
  | wentAway key => s!"the record for {hex key} went away while it was being read"
  | readingBlocks key e => s!"reading the blocks of {hex key}: {c.bodyErrText e}"
  | notInline => "Object is not inline"
  | locked => "ERR: Namespace is temporarily locked (read-only)"
  | worm => "ERR: Namespace is protected by worm mode"
  | wormDelete => "ERR: Cannot delete a key when namespace is in worm mode"
  | cannotFlushDefault => "ERR: Cannot flush the default namespace"
  | overQuota name limit usage adding after =>
    s!"namespace {c.text.shown name} is limited to {limit} byte(s) (max_size) and holds {usage}: storing {adding} more would need {after}"
  | keyLength => "a key in a cas namespace is 32 bytes (the BLAKE3 of the value), or empty to have the server compute it"
  | mismatch actual key =>
    s!"the value does not hash to the key it was sent under (blake3 is {hex actual}, the key says {hex key})"

/-- A program of the store, its failures as the server passes them on. -/
def onMeta (p : StoreProg (Except Err α)) : NodeProg (Except RespErr α) :=
  (onStore p).bind fun r => .ret (r.mapError .metaError)

/-- One read through a handle. -/
def readTree (h : TreeHandle) (f : OrdMap Bytes (Cell Object) → Except Err α) : NodeProg (Except RespErr α) :=
  Prog.step fun e n => some ((if e.read then f (n.contents h) else .error .io).mapError .metaError, n)

/-! ## Storage -/

/-- `tree_ext_open`, of a tree that is created if it is not there. -/
def openTree (name : Bytes) : NodeProg (Except RespErr TreeHandle) :=
  Prog.step fun e n =>
    let opened := if isOwnTree name then n else n.withStore (n.store.setTree name (n.store.tree name))
    match e.commit with
    | .ok => some (.ok (n.handle name), opened)
    | .failed => some (.error (.metaError .commit), n)
    | .applied => some (.error (.metaError .commit), opened)

/-- Go on if the tree of a name exists. -/
def whenTree (name : Bytes) (p : NodeProg (Except RespErr α)) : NodeProg (Except RespErr α) :=
  (look fun n => n.treeExists name).bind fun found => if found then p else .ret (.error .namespaceNotFound)

/-- `get_namespace`. -/
def getNamespace (name : Bytes) : NodeProg (Except RespErr TreeHandle) := whenTree name (openTree name)

/-- A row as the server decodes it. -/
def decodeRow : Cell BucketRow → Except RespErr NamespaceMeta
  | .record (.namespaceRow m) => .ok m
  | .record (.bucket _) => .error (.metaError .undecodable)
  | .garbage => .error (.metaError .undecodable)

/-- `get_namespace_meta`. -/
def getNamespaceMeta (name : Bytes) : NodeProg (Except RespErr NamespaceMeta) :=
  whenTree name <| (onMeta (readStore fun s => .ok (s.buckets.get name))).andThen fun
    | some row => .ret (decodeRow row)
    | none => .ret (.error .namespaceNotFound)

/-- `update_namespace_meta`. -/
def updateNamespaceMeta (name : Bytes) (m : NamespaceMeta) : NodeProg (Except RespErr Unit) :=
  whenTree name (onMeta (putRow name (.namespaceRow m)))

/-- `create_namespace`. -/
def createNamespace (name : Bytes) : NodeProg (Except RespErr TreeHandle) :=
  (onMeta (insertBucketIfAbsent name (.namespaceRow (.new name)))).andThen fun inserted =>
    if inserted then getNamespace name else .ret (.error (.namespaceExists name))

/-- `delete_namespace`. -/
def deleteNamespace (name : Bytes) : NodeProg (Except RespErr Unit) := whenTree name (onMeta (dropBucket name))

/-- `bucket_usage`. -/
def bucketUsage (name : Bytes) : StoreProg (Except Err (Option ℕ)) :=
  readStore fun s =>
    match s.usage.get name with
    | none => .ok none
    | some (.record n) => .ok (some n)
    | some .garbage => .error .undecodable

/-- `sum_record_sizes`, from the walk of a tree. -/
def sumRecordSizes (h : TreeHandle) : ℕ → Option Bytes → ℕ → NodeProg (Except RespErr ℕ)
  | 0, _, _ => Prog.step fun _ _ => none
  | fuel + 1, cursor, total => (readTree h fun t => .ok (t.nextAfter cursor)).andThen fun
    | none => .ret (.ok total)
    | some (_, .garbage) => .ret (.error (.metaError .undecodable))
    | some (key, .record o) => sumRecordSizes h fuel (some key) (min (total + o.size) (2 ^ 64 - 1))

/-- `namespace_usage`. -/
def namespaceUsage (c : RespConfig) (name : Bytes) : NodeProg (Except RespErr ℕ) :=
  whenTree name <| (onMeta (bucketUsage name)).andThen fun
    | some bytes => .ret (.ok bytes)
    | none => (getNamespace name).andThen fun h => (sumRecordSizes h c.fuel none 0).andThen fun total =>
        (onMeta (setBucketUsage name total)).andThen fun _ => .ret (.ok total)

/-- `STORE_HEADER_VERSION_CAS_NAMESPACE`. -/
def casHeaderVersion : ℕ := 4

/-- `declare_cas_namespaces`: the header is raised; its copy beside the store may fail to be written. -/
def declareCasNamespaces : NodeProg (Except RespErr Unit) :=
  (Prog.step fun e n => some (if e.read then .ok n.headerVersion else .error (.metaError .io), n)).andThen fun version =>
    if casHeaderVersion ≤ version then .ret (.ok ())
    else Prog.step fun e n =>
      match e.commit with
      | .ok => some (.ok (), { n with headerVersion := casHeaderVersion })
      | .failed => some (.error (.metaError .commit), n)
      | .applied => some (.error (.metaError .commit), { n with headerVersion := casHeaderVersion })

/-- `set_key_mode`. -/
def setKeyMode (name : Bytes) (mode : KeyMode) : NodeProg (Except RespErr Unit) :=
  (getNamespaceMeta name).andThen fun m =>
    if m.keyMode = mode then .ret (.ok ())
    else (getNamespace name).andThen fun h => (readTree h fun t => .ok t.entries.length).andThen fun keys =>
      if keys ≠ 0 then .ret (.error (.namespaceNotEmpty name keys))
      else (if mode = .cas then declareCasNamespaces else .ret (.ok ())).andThen fun _ =>
        updateNamespaceMeta name { m with keyMode := mode }

/-- `iter_namespace`, the next row: a row that cannot be read leaves the walk where it is. -/
def nextRow (cursor : Option Bytes) : NodeProg (Except RespErr (Option (Bytes × Cell BucketRow))) :=
  onMeta (readStore fun s => .ok (s.buckets.nextAfter cursor))

/-- `cas_namespaces`. -/
def casNamespaces : ℕ → Option Bytes → NodeProg (Except RespErr (List Bytes))
  | 0, _ => Prog.step fun _ _ => none
  | fuel + 1, cursor => (nextRow cursor).andThen fun
    | none => .ret (.ok [])
    | some (key, row) =>
      match decodeRow row with
      | .error e => .ret (.error e)
      | .ok m => (casNamespaces fuel (some key)).andThen fun names =>
          .ret (.ok (if m.keyMode = .cas then m.name :: names else names))

/-- The names NSLIST answers: rows with errors are skipped. -/
def namespaceNames : ℕ → Option Bytes → NodeProg (List Bytes)
  | 0, _ => Prog.step fun _ _ => none
  | fuel + 1, cursor => (nextRow cursor).bind fun
    | .error _ => namespaceNames fuel cursor
    | .ok none => .ret []
    | .ok (some (key, row)) => (namespaceNames fuel (some key)).bind fun names =>
        match decodeRow row with
        | .error _ => .ret names
        | .ok m => .ret (m.name :: names)

/-! ## The cache -/

/-- `insert_new`: an object with default properties, synced from the row if that can be read, is put
in the cache. -/
def insertNew (me : ℕ) (name : Bytes) (tree : TreeHandle) : NodeProg ℕ :=
  (Prog.step fun _ n => some (n.objects.length, { n with objects := n.objects ++ [⟨tree, .ofName name⟩] })).bind fun o =>
    (getNamespaceMeta name).bind fun r =>
      (match r with
        | .ok m => holding me (.properties o) .write
            (update (Node.modifyObject o fun ns => { ns with properties := ns.properties.sync m }))
        | .error _ => .ret ()).bind fun _ =>
      (holding me .cache .write (update fun n => { n with cache := n.cache.insert name o })).bind fun _ => .ret o

/-- `get_or_create`: from the cache, or opened. -/
def getOrCreate (me : ℕ) (name : Bytes) : NodeProg (Except RespErr ℕ) :=
  (holding me .cache .read (look fun n => n.cache.get name)).bind fun
    | some o => .ret (.ok o)
    | none => (getNamespace name).andThen fun tree => (insertNew me name tree).bind fun o => .ret (.ok o)

/-- `create_if_not_exists`. -/
def createIfNotExists (me : ℕ) (name : Bytes) : NodeProg (Except RespErr ℕ) :=
  (getOrCreate me name).bind fun
    | .ok o => .ret (.ok o)
    | .error _ => (createNamespace name).bind fun
      | .ok tree => (insertNew me name tree).bind fun o => .ret (.ok o)
      | .error (.namespaceExists _) => getOrCreate me name
      | .error e => .ret (.error e)

/-- `update_all_instances`. -/
def updateAllInstances (me : ℕ) (name : Bytes) (f : NamespaceProperties → NamespaceProperties) : NodeProg Unit :=
  holding me .cache .read <| (look fun n => n.cache.get name).bind fun
    | none => .ret ()
    | some o => holding me (.properties o) .write
        (update (Node.modifyObject o fun ns => { ns with properties := f ns.properties }))

/-- `flush_namespace`: while the tree is dropped and created again, the object has the tree of the
default namespace. -/
def flushNamespace (me : ℕ) (name : Bytes) : NodeProg (Except RespErr Unit) :=
  holding me .cache .read <| (look fun n => n.cache.get name).bind fun
    | none => .ret (.ok ())
    | some o => (getNamespaceMeta name).andThen fun m => (getNamespace defaultNamespace).andThen fun placeholder =>
        (holding me (.tree o) .write (update (Node.modifyObject o fun ns => { ns with tree := placeholder }))).bind fun _ =>
          (deleteNamespace name).andThen fun _ => (createNamespace name).andThen fun tree =>
            holding me (.tree o) .write <|
              (update (Node.modifyObject o fun ns => { ns with tree })).bind fun _ => updateNamespaceMeta name m

/-! ## Reads and writes of a namespace -/

section Operations

variable (c : RespConfig) (me o : ℕ)

/-- Read a property. -/
def property (f : NamespaceProperties → α) : NodeProg α :=
  holding me (.properties o) .read (look fun n => f (n.object o).properties)

/-- One read of the tree that the object has. -/
def readObjectTree (f : OrdMap Bytes (Cell Object) → Except Err α) : NodeProg (Except RespErr α) :=
  holding me (.tree o) .read <| (look fun n => (n.object o).tree).bind fun h => readTree h f

/-- `get_object`. -/
def getObject (key : Bytes) : NodeProg (Except RespErr (Option Object)) :=
  readObjectTree me o fun t =>
    match t.get key with
    | none => .ok none
    | some .garbage => .error .undecodable
    | some (.record obj) => .ok (some obj)

/-- `exists`. -/
def keyPresent (key : Bytes) : NodeProg (Except RespErr Bool) := readObjectTree me o fun t => .ok (t.get key).isSome

/-- `length`. -/
def length (key : Bytes) : NodeProg (Except RespErr (Option ℕ)) :=
  (getObject me o key).andThen fun obj => .ret (.ok (obj.map Object.size))

/-- `keytime`. -/
def keytime (key : Bytes) : NodeProg (Except RespErr (Option ℕ)) :=
  (getObject me o key).andThen fun obj => .ret (.ok (obj.map Object.lastModified))

/-- `num_keys`. -/
def numKeys : NodeProg (Except RespErr ℕ) := readObjectTree me o fun t => .ok t.entries.length

/-- The loop of `scan` and `scan_backward`: up to so many keys, one read each, with one guard. -/
def scanFrom (next : OrdMap Bytes (Cell Object) → Option Bytes → Option (Bytes × Cell Object)) (h : TreeHandle) :
    ℕ → Option Bytes → NodeProg (Except RespErr (List Bytes))
  | 0, _ => .ret (.ok [])
  | count + 1, cursor => (readTree h fun t => .ok (next t cursor)).andThen fun
    | none => .ret (.ok [])
    | some (key, _) => (scanFrom next h count (some key)).andThen fun keys => .ret (.ok (key :: keys))

/-- `scan`. -/
def scan (cursor : Option Bytes) (count : ℕ) : NodeProg (Except RespErr (List Bytes)) :=
  holding me (.tree o) .read <| (look fun n => (n.object o).tree).bind fun h => scanFrom OrdMap.nextAfter h count cursor

/-- `scan_backward`. -/
def scanBackward (cursor : Option Bytes) (count : ℕ) : NodeProg (Except RespErr (List Bytes)) :=
  holding me (.tree o) .read <| (look fun n => (n.object o).tree).bind fun h => scanFrom OrdMap.prevBefore h count cursor

/-- The stream over the blocks of a record. -/
def blockStreamOf (obj : Object) (paths : List (BlockId × Block)) : BlockStream :=
  let stream := BlockStream.new (paths.map fun p => (toLex (p.1, diskDepth p.1 p.2.depth), p.2.size)) obj.size .all
  if c.verifyOnRead then stream.verified obj.blocks else stream

/-- `read_blocks`: the record is looked up again, by name. -/
def readBlocks (key : Bytes) (obj : Object) : NodeProg (Except RespErr Bytes) :=
  (property me o (·.namespaceName)).bind fun bucket => (onMeta (getObjectPaths bucket key)).andThen fun
    | none => .ret (.error (.wentAway key))
    | some (_, paths) => (onStore ((blockStreamOf c obj paths).collect c.store c.fuel [])).bind fun r =>
        .ret (r.mapError (.readingBlocks key))

/-- The value of a record: its own bytes, or those of its blocks. -/
def valueOf (key : Bytes) (obj : Object) : NodeProg (Except RespErr Bytes) :=
  match obj.inlined with
  | some data => .ret (.ok data)
  | none => readBlocks c me o key obj

/-- `get`. -/
def get (key : Bytes) : NodeProg (Except RespErr (Option Bytes)) :=
  (getObject me o key).andThen fun
    | none => .ret (.ok none)
    | some obj => (valueOf c me o key obj).andThen fun value => .ret (.ok (some value))

/-- `check`: against the MD5 of the record, or against the key if that is the value's hash. -/
def check (key : Bytes) : NodeProg (Except RespErr (Option Bool)) :=
  (getObject me o key).andThen fun
    | none => .ret (.ok none)
    | some obj => (property me o (·.keyMode)).bind fun mode =>
      if mode = .cas then
        (valueOf c me o key obj).andThen fun value => .ret (.ok (some (c.valueKey value = key)))
      else
        match obj.inlined with
        | some data => .ret (.ok (some (c.store.md5 data = obj.hash)))
        | none => .ret (.error .notInline)

/-- `refuse_over_quota`. -/
def refuseOverQuota (limit adding replacing : ℕ) : NodeProg (Except RespErr Unit) :=
  (property me o (·.namespaceName)).bind fun name => (onMeta (bucketUsage name)).andThen fun usage =>
    let usage := usage.getD 0
    let after := min (usage - replacing + adding) (2 ^ 64 - 1)
    if limit < after then .ret (.error (.overQuota name limit usage adding after)) else .ret (.ok ())

/-- `refuse_unless_within_quota`. -/
def refuseUnlessWithinQuota (key : Bytes) (adding : ℕ) : NodeProg (Except RespErr Unit) :=
  (property me o (·.maxSize)).bind fun
    | none => .ret (.ok ())
    | some limit => (length me o key).andThen fun replacing => refuseOverQuota me o limit adding (replacing.getD 0)

/-- `refuse_unless_room_for`. -/
def refuseUnlessRoomFor (adding : ℕ) : NodeProg (Except RespErr Unit) :=
  (property me o (·.maxSize)).bind fun
    | none => .ret (.ok ())
    | some limit => refuseOverQuota me o limit adding 0

/-- `refuse_unless_writable`: the lookup of a WORM namespace is made with the guard of the properties. -/
def refuseUnlessWritable (wormGuardsKey : Option Bytes) : NodeProg (Except RespErr Unit) :=
  holding me (.properties o) .read <| (look fun n => (n.object o).properties).bind fun props =>
    if props.locked then .ret (.error .locked)
    else if props.worm then
      (match wormGuardsKey with
        | some key => keyPresent me o key
        | none => .ret (.ok false)).andThen fun occupied =>
          .ret (if occupied then .error .worm else .ok ())
    else .ret (.ok ())

/-- `set`. -/
def set (key value : Bytes) : NodeProg (Except RespErr Unit) :=
  (refuseUnlessWritable me o (some key)).andThen fun _ =>
    (refuseUnlessWithinQuota me o key value.length).andThen fun _ =>
      (property me o (·.namespaceName)).bind fun bucket =>
        (onMeta (storeInlinedObject c.store bucket key value)).andThen fun _ => .ret (.ok ())

/-- `store_verified`. -/
def storeVerified (key value : Bytes) : NodeProg (Except RespErr Unit) :=
  (refuseUnlessWritable me o none).andThen fun _ => (refuseUnlessRoomFor me o value.length).andThen fun _ =>
    (property me o (·.namespaceName)).bind fun bucket =>
      if value.length ≤ c.inlineMax then
        (onMeta (storeInlinedObject c.store bucket key value)).andThen fun _ => .ret (.ok ())
      else (onMeta (storeObject c.store [some value])).andThen fun stored =>
        (onMeta (createObjectMeta c.store bucket key stored.2.2 stored.2.1 (.singlePart stored.1) [])).andThen fun _ =>
          .ret (.ok ())

/-- `del`. -/
def del (key : Bytes) : NodeProg (Except RespErr Bool) :=
  (property me o fun props => (props.locked, props.worm)).bind fun (locked, worm) =>
    if locked then .ret (.error .locked)
    else if worm then .ret (.error .wormDelete)
    else (property me o (·.namespaceName)).bind fun bucket => onMeta (deleteObject c.store bucket key)

/-! ## Content-addressed writes -/

/-- `CAS_KEY_LEN`. -/
def casKeyLen : ℕ := 32

/-- One source of `clone_from_another_namespace`. -/
def cloneFrom (this source key : Bytes) : NodeProg (Except RespErr Bool) :=
  (getNamespace source).andThen fun h => (readTree h fun t => .ok (t.get key).isSome).andThen fun found =>
    if found then
      (property me o (·.maxSize)).bind fun quota =>
        (match quota with
          | some _ => (onMeta (getObjectMeta source key)).andThen fun obj =>
              refuseUnlessRoomFor me o ((obj.map Object.size).getD 0)
          | none => .ret (.ok ())).andThen fun _ =>
        (onMeta (cloneObjectByReference c.store source key this key)).andThen fun cloned => .ret (.ok cloned.isSome)
    else .ret (.ok false)

/-- The loop over the sources. -/
def cloneFromAny (this key : Bytes) : List Bytes → NodeProg (Except RespErr Bool)
  | [] => .ret (.ok false)
  | source :: sources =>
    if source = this then cloneFromAny this key sources
    else (cloneFrom c me o this source key).andThen fun cloned =>
      if cloned then .ret (.ok true) else cloneFromAny this key sources

/-- `clone_from_another_namespace`. -/
def cloneFromAnotherNamespace (key : Bytes) : NodeProg (Except RespErr Bool) :=
  (property me o (·.namespaceName)).bind fun this => (casNamespaces c.fuel none).andThen fun sources =>
    cloneFromAny c me o this key sources

/-- `ingest`: `none` is the server-hashed form. -/
def ingest (claimed : Option Bytes) (value : Bytes) : NodeProg (Except RespErr Bytes) :=
  let key := claimed.getD (c.valueKey value)
  if claimed.any fun k => k.length ≠ casKeyLen then .ret (.error .keyLength)
  else (keyPresent me o key).andThen fun present =>
    if present then .ret (.ok key)
    else (cloneFromAnotherNamespace c me o key).andThen fun cloned =>
      if cloned then .ret (.ok key)
      else if claimed.isSome ∧ c.valueKey value ≠ key then .ret (.error (.mismatch (c.valueKey value) key))
      else (storeVerified c me o key value).andThen fun _ => .ret (.ok key)

end Operations

end QssStorage.Respcas
