import QssStorage.Data.Resp2
import QssStorage.Spec.Node

/-!
# The RESP server's sessions

`respcas/src/cmd.rs`, `cmd/parse.rs`, `cmd/keys.rs`, `cmd/ns.rs`, `conn.rs` and the command half
of `server.rs`: how a frame becomes a command, what each command does for the session that
sends it, and the sessions of a server.

A session is a value that its task passes on from command to command; every change of it is also
noted in the node. Reading the frames from the socket and writing the replies is in `Spec/Resp`.
-/

namespace QssStorage.Respcas

open Conc
open Resp2 (Frame digits ascii)

/-! ## Commands -/

/-- `Command`. -/
inductive Command where
  | get (key : Bytes)
  | mget (keys : List Bytes)
  | set (key value : Bytes)
  | cset (value : Bytes)
  | ping (message : Option Bytes)
  | echo (message : Bytes)
  | del (keys : List Bytes)
  | keyExists (key : Bytes)
  | check (key : Bytes)
  | length (key : Bytes)
  | keytime (key : Bytes)
  | select (name : Bytes) (password : Option Bytes)
  | nsnew (name : Bytes)
  | nsinfo (name : Bytes)
  | nslist
  | auth (password : Bytes)
  | dbsize
  | scan (cursor : Option Bytes)
  | rscan (cursor : Option Bytes)
  | nsset (name property value : Bytes)
  | flush
  | time
deriving DecidableEq

/-- `CommandError`. -/
inductive CommandError where
  | unknownCommand (name : Bytes)
  | wrongNumberOfArguments (name : Bytes)
  | protocol (text : String)
deriving DecidableEq

/-- The text of a `CommandError`. -/
def CommandError.text (x : Text) : CommandError → String
  | unknownCommand name => "Unknown command: " ++ x.shown name
  | wrongNumberOfArguments name => "Wrong number of arguments for command: " ++ x.shown name
  | protocol text => "Protocol error: " ++ text

section Parsing

variable (x : Text)

/-- The name of a command and its frames, the name included. -/
structure Args where
  name : Bytes
  argv : List Frame

/-- `Args::from_frame`. -/
def Args.fromFrame : Frame → Except CommandError Args
  | .array [] => .error (.wrongNumberOfArguments (utf8 "empty command"))
  | .array (.bulkString name :: rest) => .ok ⟨x.upper (x.lossy name), .bulkString name :: rest⟩
  | .array _ => .error (.protocol "Command name must be a bulk string")
  | _ => .error (.protocol "Command must be an array")

variable {x} (a : Args)

/-- `arity_exact`, `arity_min`, `arity_max` and `arity_range`. -/
def Args.arity (least most : ℕ) : Except CommandError Unit :=
  if least ≤ a.argv.length ∧ a.argv.length ≤ most then .ok () else .error (.wrongNumberOfArguments a.name)

variable (x)

/-- `bytes_at`. -/
def Args.bytesAt (idx : ℕ) (what : String) : Except CommandError Bytes :=
  match a.argv[idx]? with
  | some (.bulkString bytes) => .ok bytes
  | _ => .error (.protocol (x.shown a.name ++ " " ++ what ++ " must be a bulk string"))

/-- `string_at`. -/
def Args.stringAt (idx : ℕ) (what : String) : Except CommandError Bytes := (a.bytesAt x idx what).map x.lossy

/-- `opt_bytes_at`. -/
def Args.optBytesAt (idx : ℕ) (what : String) : Except CommandError (Option Bytes) :=
  if idx < a.argv.length then (a.bytesAt x idx what).map some else .ok none

/-- `opt_string_at`. -/
def Args.optStringAt (idx : ℕ) (what : String) : Except CommandError (Option Bytes) :=
  if idx < a.argv.length then (a.stringAt x idx what).map some else .ok none

/-- `parse_no_args`. -/
def parseNoArgs (cmd : Command) : Except CommandError Command := (a.arity 1 1).map fun _ => cmd

/-- `parse_one_arg`. -/
def parseOneArg (what : String) (make : Bytes → Command) : Except CommandError Command := do
  a.arity 2 2
  return make (← a.stringAt x 1 what)

/-- `parse_one_key`. -/
def parseOneKey (make : Bytes → Command) : Except CommandError Command := do
  a.arity 2 2
  return make (← a.bytesAt x 1 "key")

/-- `parse_cursor`: `0` starts the walk. -/
def parseCursor (make : Option Bytes → Command) : Except CommandError Command := do
  a.arity 0 2
  let cursor ← a.optBytesAt x 1 "cursor"
  return make (cursor.filter (· ≠ [ascii '0']))

/-- The loop of `parse_keys`. -/
def parseKeysFrom : ℕ → ℕ → Except CommandError (List Bytes)
  | _, 0 => .ok []
  | idx, count + 1 => do
    let key ← a.bytesAt x idx "key"
    return key :: (← parseKeysFrom (idx + 1) count)

/-- `parse_keys`. -/
def parseKeys : Except CommandError (List Bytes) := do
  a.arity 2 a.argv.length
  parseKeysFrom x a 1 (a.argv.length - 1)

/-- `Command::from_frame`. -/
def Command.fromFrame (frame : Frame) : Except CommandError Command := do
  let a ← Args.fromFrame x frame
  if a.name = utf8 "AUTH" then parseOneArg x a "password" .auth
  else if a.name = utf8 "CHECK" then parseOneKey x a .check
  else if a.name = utf8 "CSET" then
    a.arity 2 2
    return .cset (← a.bytesAt x 1 "value")
  else if a.name = utf8 "DBSIZE" then parseNoArgs a .dbsize
  else if a.name = utf8 "DEL" then return .del (← parseKeys x a)
  else if a.name = utf8 "ECHO" then
    a.arity 2 2
    return .echo (← a.bytesAt x 1 "message")
  else if a.name = utf8 "EXISTS" then parseOneKey x a .keyExists
  else if a.name = utf8 "FLUSH" then parseNoArgs a .flush
  else if a.name = utf8 "GET" then parseOneKey x a .get
  else if a.name = utf8 "KEYTIME" then parseOneKey x a .keytime
  else if a.name = utf8 "LENGTH" then parseOneKey x a .length
  else if a.name = utf8 "MGET" then return .mget (← parseKeys x a)
  else if a.name = utf8 "NSINFO" then parseOneArg x a "name" .nsinfo
  else if a.name = utf8 "NSLIST" then parseNoArgs a .nslist
  else if a.name = utf8 "NSNEW" then parseOneArg x a "name" .nsnew
  else if a.name = utf8 "NSSET" then
    a.arity 4 4
    return .nsset (← a.stringAt x 1 "namespace") (← a.stringAt x 2 "property") (← a.stringAt x 3 "value")
  else if a.name = utf8 "PING" then return .ping (← a.optStringAt x 1 "message")
  else if a.name = utf8 "RSCAN" then parseCursor x a .rscan
  else if a.name = utf8 "SCAN" then parseCursor x a .scan
  else if a.name = utf8 "SELECT" then
    a.arity 2 3
    return .select (← a.stringAt x 1 "namespace") (← a.optStringAt x 2 "password")
  else if a.name = utf8 "SET" then
    a.arity 3 a.argv.length
    return .set (← a.bytesAt x 1 "key") (← a.bytesAt x 2 "value")
  else if a.name = utf8 "TIME" then parseNoArgs a .time
  else .error (.unknownCommand a.name)

end Parsing

/-! ## Properties -/

/-- What an NSSET sets. -/
inductive Setting where
  | worm (on : Bool)
  | lock (on : Bool)
  | isPublic (on : Bool)
  | password (password : Option Bytes)
  | maxSize (limit : Option ℕ)
deriving DecidableEq

/-- `BoolPropertyValue::from_str`. -/
def parseBool (x : Text) (value : Bytes) : Except String Bool :=
  if value = utf8 "0" then .ok false
  else if value = utf8 "1" then .ok true
  else .error ("Invalid property value: " ++ x.shown value)

/-- `str::parse::<u64>`. -/
def parseU64 (value : Bytes) : Option ℕ :=
  let numeral := if value.head? = some (ascii '+') then value.tail else value
  if numeral = [] then none else (digits 0 numeral).filter (· < 2 ^ 64)

/-- `parse_max_size`: `0` for no limit. -/
def parseMaxSize (x : Text) (value : Bytes) : Except String (Option ℕ) :=
  match parseU64 (x.trim value) with
  | some 0 => .ok none
  | some bytes => .ok (some bytes)
  | none => .error ("Invalid property value: " ++ x.shown value ++ " (max_size is a number of bytes, 0 for no limit)")

/-- The property that an NSSET names, and its value. -/
def parseSetting (x : Text) (property value : Bytes) : Except String Setting :=
  if x.lower property = utf8 "worm" then (parseBool x value).map .worm
  else if x.lower property = utf8 "lock" then (parseBool x value).map .lock
  else if x.lower property = utf8 "public" then (parseBool x value).map .isPublic
  else if x.lower property = utf8 "password" then .ok (.password (if value = [] then none else some value))
  else if x.lower property = utf8 "max_size" then (parseMaxSize x value).map .maxSize
  else .error ("Unknown property: " ++ x.shown property)

/-- The row with the property set. -/
def Setting.onMeta (m : NamespaceMeta) : Setting → NamespaceMeta
  | worm on => { m with worm := on }
  | lock on => { m with locked := on }
  | isPublic on => { m with isPublic := on }
  | password p => { m with password := p }
  | maxSize limit => { m with maxSize := limit }

/-- The properties of an object with the property set; they hold no password. -/
def Setting.onProperties (p : NamespaceProperties) : Setting → NamespaceProperties
  | worm on => { p with worm := on }
  | lock on => { p with locked := on }
  | isPublic on => { p with isPublic := on }
  | password _ => p
  | maxSize limit => { p with maxSize := limit }

/-- `eq_ignore_ascii_case("key_mode")`. -/
def isKeyMode (property : Bytes) : Bool :=
  (property.map fun b => if 65 ≤ b.val ∧ b.val ≤ 90 then Fin.ofNat 256 (b.val + 32) else b) = utf8 "key_mode"

/-- `parse_key_mode`. -/
def parseKeyMode (x : Text) (value : Bytes) : Except String KeyMode :=
  if x.lower value = utf8 "userkey" then .ok .userKey
  else if x.lower value = utf8 "cas" then .ok .cas
  else if x.lower value = utf8 "sequential" then
    .error "the sequential key mode is not implemented; namespaces are userkey or cas"
  else .error ("unknown key mode: " ++ x.shown (x.lower value) ++ " (expected userkey or cas)")

/-- `key_mode_name`. -/
def keyModeName : KeyMode → String
  | .userKey => "userkey"
  | .sequential => "sequential"
  | .cas => "cas"

/-! ## Replies -/

/-- A `SimpleString`. -/
def simple (text : String) : Frame := .simpleString (utf8 text)

/-- `Frame::Error(format!("ERR {}", e))`. -/
def failure (c : RespConfig) (e : RespErr) : Frame := .error ("ERR " ++ e.text c)

/-- An optional value. -/
def bulkOrNull : Option Bytes → Frame
  | some value => .bulkString value
  | none => .null

/-- The reply of a result. -/
def replyWith {α : Type} (c : RespConfig) (f : α → Frame) : Except RespErr α → Frame
  | .ok a => f a
  | .error e => failure c e

/-- `SCAN_PAGE`. -/
def scanPage : ℕ := 10

/-- `scan_reply`: the last key of a full page is the cursor, `0` ends the walk. -/
def scanReply (keys : List Bytes) : Frame :=
  let nextCursor := if keys.length < scanPage then [ascii '0'] else (keys.getLast?).getD []
  .array [.bulkString nextCursor, .array (keys.map .bulkString)]

/-- `yes` or `no`. -/
def yesNo (b : Bool) : String := if b then "yes" else "no"

/-- The text of NSINFO. -/
def namespaceInfo (x : Text) (m : NamespaceMeta) (usage : ℕ) : String :=
  s!"# namespace\nname: {x.shown m.name}\npublic: {yesNo m.isPublic}\npassword: {yesNo m.password.isSome}\ndata_size_bytes: {usage}\ndata_limits_bytes: {m.maxSize.getD 0}\nmode: {keyModeName m.keyMode}\nworm: {yesNo m.worm}\nlocked: {yesNo m.locked}"

/-! ## The handler -/

section Handler

variable (c : RespConfig) (me : ℕ) (h : CommandHandler)

/-- `may_read`. -/
def mayRead : NodeProg Bool := (property me h.object (·.isPublic)).bind fun isPublic => .ret (isPublic || h.namespaceAuthenticated)

/-- The refusal of a read. -/
def readRefused : Frame := .error "ERR Authentication required for read operations"

/-- The refusal of a write. -/
def writeRefused : Frame := .error "ERR: Authentication required for write operations"

/-- `handle_get`. -/
def handleGet (key : Bytes) : NodeProg Frame :=
  (mayRead me h).bind fun may =>
    if may then (get c me h.object key).bind fun r => .ret (replyWith c bulkOrNull r) else .ret readRefused

/-- The values of an MGET: a key that fails is answered with null. -/
def getEach : List Bytes → NodeProg (List Frame)
  | [] => .ret []
  | key :: keys => (get c me h.object key).bind fun r => (getEach keys).bind fun values =>
      .ret ((match r with
        | .ok value => bulkOrNull value
        | .error _ => .null) :: values)

/-- `handle_mget`. -/
def handleMget (keys : List Bytes) : NodeProg Frame :=
  (mayRead me h).bind fun may =>
    if may then (getEach c me h keys).bind fun values => .ret (.array values) else .ret readRefused

/-- `ingest`, of the handler. -/
def handleIngest (claimed : Option Bytes) (value : Bytes) : NodeProg Frame :=
  (ingest c me h.object claimed value).bind fun r =>
    .ret (replyWith c (fun key => if claimed.isNone then .bulkString key else simple "OK") r)

/-- `handle_set`. -/
def handleSet (key value : Bytes) : NodeProg Frame :=
  if h.namespaceAuthenticated then
    (property me h.object (·.keyMode)).bind fun mode =>
      if mode = .cas then handleIngest c me h (if key = [] then none else some key) value
      else (set c me h.object key value).bind fun r => .ret (replyWith c (fun _ => simple "OK") r)
  else .ret writeRefused

/-- `handle_cset`. -/
def handleCset (value : Bytes) : NodeProg Frame :=
  if h.namespaceAuthenticated then
    (property me h.object (·.keyMode)).bind fun mode =>
      if mode = .cas then handleIngest c me h none value
      else .ret (.error "ERR CSET is only valid in a content-addressed namespace (NSSET <namespace> key_mode cas)")
  else .ret writeRefused

/-- The loop of `handle_del`. -/
def delEach (removed : ℕ) : List Bytes → NodeProg Frame
  | [] => .ret (.integer removed)
  | key :: keys => (del c me h.object key).bind fun
    | .ok true => delEach (removed + 1) keys
    | .ok false => delEach removed keys
    | .error e => .ret (failure c e)

/-- `handle_del`. -/
def handleDel (keys : List Bytes) : NodeProg Frame :=
  if h.namespaceAuthenticated then delEach c me h 0 keys else .ret writeRefused

/-- `handle_exists`. -/
def handleExists (key : Bytes) : NodeProg Frame :=
  (mayRead me h).bind fun may =>
    if may then (keyPresent me h.object key).bind fun r => .ret (replyWith c (fun b => .integer (if b then 1 else 0)) r)
    else .ret readRefused

/-- `handle_check`. -/
def handleCheck (key : Bytes) : NodeProg Frame :=
  (check c me h.object key).bind fun r => .ret (replyWith c (fun b => .integer (if b = some true then 1 else 0)) r)

/-- A number, or null. -/
def integerOrNull : Option ℕ → Frame
  | some n => .integer (asI64 n)
  | none => .null

/-- `handle_length`. -/
def handleLength (key : Bytes) : NodeProg Frame :=
  (length me h.object key).bind fun r => .ret (replyWith c integerOrNull r)

/-- `handle_keytime`. -/
def handleKeytime (key : Bytes) : NodeProg Frame :=
  (keytime me h.object key).bind fun r => .ret (replyWith c integerOrNull r)

/-- `handle_nsnew`. -/
def handleNsnew (name : Bytes) : NodeProg Frame :=
  if h.isAdmin then (createNamespace name).bind fun r => .ret (replyWith c (fun _ => simple "OK") r)
  else .ret (.error "ERR NSNEW command requires admin privileges")

/-- `handle_nsinfo`. -/
def handleNsinfo (name : Bytes) : NodeProg Frame :=
  (getNamespaceMeta name).bind fun
    | .error e => .ret (failure c e)
    | .ok m => (namespaceUsage c name).bind fun r =>
        .ret (replyWith c (fun usage => .bulkString (utf8 (namespaceInfo c.text m usage))) r)

/-- `handle_nslist`. -/
def handleNslist : NodeProg Frame := (namespaceNames c.fuel none).bind fun names => .ret (.array (names.map .bulkString))

/-- `handle_nsset_key_mode`. -/
def handleNssetKeyMode (name value : Bytes) : NodeProg Frame :=
  match parseKeyMode c.text value with
  | .error e => .ret (.error ("ERR " ++ e))
  | .ok mode => (setKeyMode name mode).bind fun
    | .error e => .ret (failure c e)
    | .ok _ => (updateAllInstances me name fun p => { p with keyMode := mode }).bind fun _ => .ret (simple "OK")

/-- `handle_nsset`. -/
def handleNsset (name property value : Bytes) : NodeProg Frame :=
  if h.isAdmin then
    if isKeyMode property then handleNssetKeyMode c me name value
    else (getNamespaceMeta name).bind fun
      | .error e => .ret (.error ("ERR Namespace not found: " ++ e.text c))
      | .ok m =>
        match parseSetting c.text property value with
        | .error e => .ret (.error ("ERR " ++ e))
        | .ok setting => (updateNamespaceMeta name (setting.onMeta m)).bind fun
          | .error e => .ret (.error ("ERR Failed to update namespace metadata: " ++ e.text c))
          | .ok _ => (updateAllInstances me name fun p => setting.onProperties p).bind fun _ => .ret (simple "OK")
  else .ret (.error "ERR NSSET command requires admin privileges")

/-- `handle_dbsize`. -/
def handleDbsize : NodeProg Frame := (numKeys me h.object).bind fun r => .ret (replyWith c (fun n => .integer (asI64 n)) r)

/-- `handle_scan`. -/
def handleScan (cursor : Option Bytes) : NodeProg Frame :=
  (scan me h.object cursor scanPage).bind fun r => .ret (replyWith c scanReply r)

/-- `handle_rscan`. -/
def handleRscan (cursor : Option Bytes) : NodeProg Frame :=
  (scanBackward me h.object cursor scanPage).bind fun r => .ret (replyWith c scanReply r)

/-- `flush`, of the namespace. -/
def flush : NodeProg (Except RespErr Unit) :=
  (property me h.object (·.namespaceName)).bind fun name =>
    if name = defaultNamespace then .ret (.error .cannotFlushDefault) else flushNamespace me name

/-- Whether a password is set, as far as the row can be read. -/
def hasPassword : Except RespErr NamespaceMeta → Bool
  | .ok m => m.password.isSome
  | .error _ => false

/-- The checks of `handle_flush` and the flush itself, with the guard of the properties. -/
def flushChecked : NodeProg Frame :=
  (look fun n => (n.object h.object).properties).bind fun props =>
    if props.isPublic then .ret (.error "ERR: FLUSH command is only allowed on private namespaces")
    else (getNamespaceMeta props.namespaceName).bind fun m =>
      if !hasPassword m then .ret (.error "ERR: FLUSH command is only allowed on password-protected namespaces")
      else if !h.namespaceAuthenticated then .ret (.error "ERR: Authentication required for FLUSH command")
      else (flush me h).bind fun r => .ret (replyWith c (fun _ => simple "OK") r)

/-- `handle_flush`: the guard is held to the end. -/
def handleFlush : NodeProg Frame :=
  holding me (.properties h.object) .read <|
    (update fun n => { n with flushing := h.object :: n.flushing }).bind fun _ => (flushChecked c me h).bind fun reply =>
      (update fun n => { n with flushing := n.flushing.erase h.object }).bind fun _ => .ret reply

/-- `handle_time`; the microseconds are the environment's. -/
def handleTime : NodeProg Frame :=
  Prog.step fun e n => some (.array [.bulkString (utf8 (toString e.now)), .bulkString (utf8 (toString (e.amount % 1000000)))], n)

/-- `execute`. -/
def execute : Command → NodeProg Frame
  | .get key => handleGet c me h key
  | .mget keys => handleMget c me h keys
  | .set key value => handleSet c me h key value
  | .cset value => handleCset c me h value
  | .ping message => .ret (message.elim (simple "PONG") .bulkString)
  | .echo message => .ret (.bulkString message)
  | .del keys => handleDel c me h keys
  | .keyExists key => handleExists c me h key
  | .check key => handleCheck c me h key
  | .length key => handleLength c me h key
  | .keytime key => handleKeytime c me h key
  | .nsnew name => handleNsnew c h name
  | .nsinfo name => handleNsinfo c name
  | .nslist => handleNslist c
  | .dbsize => handleDbsize c me h
  | .scan cursor => handleScan c me h cursor
  | .rscan cursor => handleRscan c me h cursor
  | .nsset name property value => handleNsset c me h name property value
  | .flush => handleFlush c me h
  | .time => handleTime
  | .select _ _ => .ret (.error "ERR SELECT should be handled at connection level")
  | .auth _ => .ret (.error "ERR AUTH should be handled at connection level")

end Handler

/-! ## The session -/

section Sessions

variable (c : RespConfig) (me : ℕ)

/-- `CommandHandler::new`: the row is read with the guard of the properties. -/
def CommandHandler.new (object : ℕ) (isAdmin : Bool) : NodeProg CommandHandler :=
  holding me (.properties object) .read <|
    (look fun n => (n.object object).properties.namespaceName).bind fun name => (getNamespaceMeta name).bind fun r =>
      .ret { object, isAdmin, namespaceAuthenticated := match r with
        | .ok m => m.password.isNone
        | .error _ => true }

/-- Note what a session has become. -/
def note (s : Session) : NodeProg Unit := update fun n => { n with sessions := n.sessions.insert me s }

/-- `namespace_password_accepted`. -/
def namespacePasswordAccepted (name : Bytes) (provided : Option Bytes) : NodeProg Bool :=
  (getNamespaceMeta name).bind fun
    | .ok m => .ret (m.password.isNone || provided = m.password)
    | .error _ => .ret false

/-- What SELECT says it granted. -/
def selected (isAuthenticated isPublic : Bool) : Frame :=
  if isAuthenticated then simple "OK"
  else if isPublic then simple "OK (read-only access)"
  else simple "OK (no access without the namespace password)"

/-- `select_namespace`: the connection's namespace is switched first. -/
def selectNamespace (s : Session) (name : Bytes) (password : Option Bytes) : NodeProg (Session × Frame) :=
  let switched := { s with connNamespace := name }
  (note me switched).bind fun _ => (getOrCreate me name).bind fun
    | .error e => .ret (switched, failure c e)
    | .ok o => (namespacePasswordAccepted name password).bind fun isAuthenticated =>
        (property me o (·.isPublic)).bind fun isPublic => (CommandHandler.new me o s.connAdmin).bind fun handler =>
          let bound := { switched with handler := { handler with namespaceAuthenticated := isAuthenticated } }
          (note me bound).bind fun _ => .ret (bound, selected isAuthenticated isPublic)

/-- `authenticate`: the rights are given first, then the handler is bound anew. -/
def authenticate (s : Session) (password : Bytes) : NodeProg (Session × Frame) :=
  match c.adminPassword with
  | none => .ret (s, simple "OK")
  | some adminPassword =>
    if password ≠ adminPassword then .ret (s, .error "ERR invalid password")
    else
      let admin := { s with connAdmin := true }
      (note me admin).bind fun _ => (getOrCreate me s.connNamespace).bind fun
        | .error e => .ret (admin, failure c e)
        | .ok o => (CommandHandler.new me o true).bind fun handler =>
            let bound :=
              { admin with handler := { handler with namespaceAuthenticated := s.handler.namespaceAuthenticated } }
            (note me bound).bind fun _ => .ret (bound, simple "OK")

/-- One command of a session. -/
def Session.command (s : Session) : Command → NodeProg (Session × Frame)
  | .select name password => selectNamespace c me s name password
  | .auth password => authenticate c me s password
  | cmd => (execute c me s.handler cmd).bind fun reply => .ret (s, reply)

/-- `dispatch`. -/
def Session.dispatch (s : Session) (frame : Frame) : NodeProg (Session × Frame) :=
  match Command.fromFrame c.text frame with
  | .ok cmd => s.command c me cmd
  | .error e => .ret (s, .error ("Error: " ++ e.text c.text))

/-- The frames a client sends, one after the other, and the replies. -/
def Session.serve : Session → List Frame → NodeProg (List Frame)
  | _, [] => .ret []
  | s, frame :: frames => (s.dispatch c me frame).bind fun r => (Session.serve r.1 frames).bind fun replies =>
      .ret (r.2 :: replies)

end Sessions

variable (c : RespConfig)

/-- `Session::new`. -/
def Session.new (me : ℕ) : NodeProg (Except RespErr Session) :=
  let isAdmin := c.adminPassword.isNone
  (createIfNotExists me defaultNamespace).andThen fun o => (CommandHandler.new me o isAdmin).bind fun handler =>
    let s : Session := { connNamespace := defaultNamespace, connAdmin := isAdmin, handler }
    (note me s).bind fun _ => .ret (.ok s)

/-- What a crash leaves, and what the server makes of it before it serves again. -/
def Node.reopen (n : Node) : Node := .opened (Front.resp.reopen n.store) n.headerVersion

/-! ## A server for runs on known inputs -/

/-- Texts that are ASCII throughout. -/
def asciiText : Text where
  lossy := id
  upper b := b.map fun x => if 97 ≤ x.val ∧ x.val ≤ 122 then Fin.ofNat 256 (x.val - 32) else x
  lower b := b.map fun x => if 65 ≤ x.val ∧ x.val ≤ 90 then Fin.ofNat 256 (x.val + 32) else x
  trim := id
  shown b := String.ofList (b.map fun x => Char.ofNat x.val)
  lossy_ascii _ _ := rfl
  upper_ascii _ _ := rfl
  lower_ascii _ _ := rfl
  trim_ascii _ _ _ := rfl

/-- A server over the store of `abcConfig`, with `secret` as its admin password. -/
def abcServer : RespConfig where
  store := abcConfig
  text := asciiText
  inlineMax := 1
  verifyOnRead := true
  valueKey _ := abcDigest
  adminPassword := some (utf8 "secret")
  errText _ := "I/O error"
  bodyErrText _ := "I/O error"
  fuel := 8

/-- A server that was started on an empty store. -/
def freshNode : Node := Node.reopen (.opened .empty 3)

/-- A command as a client sends it. -/
def request (words : List Bytes) : Frame := .array (words.map .bulkString)

end QssStorage.Respcas
