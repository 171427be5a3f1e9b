import Inmem.Core.Prog
import Inmem.L1Encoding.Glob
import Inmem.L3Store.Store

/-!
# Command dispatch

`crates/server/src/commands.rs`: from an argument vector to a reply. A command
is a program (`Cmd`) over the calls of the store, so that each call can be given
its own clock reading and other clients can run between two calls.

An argument vector is never empty: `dispatch` takes the command name and the
rest of the arguments. `CmdName` enumerates the names the dispatcher knows; a
match arm whose arity guard fails falls through to the unknown-command reply,
as in the source. No command builds a RESP3 double, so replies are `Reply Empty`.
-/
namespace Inmem.L4

open Inmem.Core Inmem.L1 Inmem.L1.Resp Inmem.L3 Inmem.Core.Decimal

/-- The fields of crates/server/src/config.rs:6-29 that the modelled functions read. -/
structure Config where
  shards : Nat
  maxmemory : Nat
  appendonly : Bool
  requirepass : Option Bytes
  replicaof : Option (Bytes × Nat)
  masterauth : Option Bytes
  deriving DecidableEq, Repr

/-- mirrors crates/server/src/commands.rs:12-17 -/
structure ConnState where
  resp3 : Bool
  name : Bytes
  id : Nat
  authenticated : Bool
  deriving DecidableEq, Repr

/-- mirrors crates/server/src/commands.rs:20-27 -/
def ConnState.new (id : Nat) (authenticated : Bool) : ConnState :=
  { resp3 := false, name := [], id, authenticated }

/-- mirrors crates/server/src/commands.rs:29-31 -/
def ConnState.internal : ConnState := ConnState.new 0 true

/-- mirrors crates/server/src/commands.rs:35-39 -/
structure Outcome where
  reply : Reply Empty
  quit : Bool
  persist : Bool

namespace Outcome

/-- mirrors crates/server/src/commands.rs:42-63 -/
def maybe (reply : Reply Empty) (dirty : Bool) : Outcome :=
  { reply, quit := false, persist := dirty }

def r (reply : Reply Empty) : Outcome := maybe reply false

def w (reply : Reply Empty) : Outcome := maybe reply true

end Outcome

/-- mirrors crates/server/src/commands.rs:66-68 -/
def err (msg : Bytes) : Reply Empty := .error (lit "ERR " ++ msg)

/-- mirrors crates/server/src/commands.rs:69-71 -/
def wrongArgs (cmd : String) : Outcome :=
  .r (.error (lit "ERR wrong number of arguments for '" ++ lit cmd ++ lit "' command"))

/-- mirrors crates/server/src/commands.rs:73-79 -/
def storeErr (e : StoreErr) : Reply Empty := if e = .wrongType then .error e.text else err e.text

def notInteger : Outcome := .r (err (lit "value is not an integer or out of range"))

/-- A command: a program over the calls of the store. -/
abbrev Cmd (σ : Type) := Prog (Call σ) Call.Res

/-- The commands the dispatcher knows. -/
inductive CmdName
  | ping | echo | hello | quit | select | auth | command | config | client | info | dbsize
  | flushall | flushdb
  | set | get | getset | setnx | setex | psetex | mset | mget | append | strlen | incr | decr
  | incrby | decrby
  | lpush | rpush | lpop | rpop | llen | lrange
  | hset | hmset | hget | hdel | hlen | hexists | hgetall | hkeys | hvals | hmget
  | sadd | srem | sismember | scard | smembers
  | zadd | zscore | zrem | zcard | zrange
  | del | unlink | exists | type | expire | pexpire | expireat | pexpireat | persist | ttl | pttl
  | keys | scan
  | save | bgsave
  deriving DecidableEq, Repr

namespace CmdName

def text : CmdName → Bytes
  | ping => lit "PING" | echo => lit "ECHO" | hello => lit "HELLO" | quit => lit "QUIT"
  | select => lit "SELECT"
  | auth => lit "AUTH" | command => lit "COMMAND" | config => lit "CONFIG" | client => lit "CLIENT"
  | info => lit "INFO" | dbsize => lit "DBSIZE" | flushall => lit "FLUSHALL"
  | flushdb => lit "FLUSHDB"
  | set => lit "SET" | get => lit "GET" | getset => lit "GETSET" | setnx => lit "SETNX"
  | setex => lit "SETEX"
  | psetex => lit "PSETEX" | mset => lit "MSET" | mget => lit "MGET" | append => lit "APPEND"
  | strlen => lit "STRLEN" | incr => lit "INCR" | decr => lit "DECR" | incrby => lit "INCRBY"
  | decrby => lit "DECRBY" | lpush => lit "LPUSH" | rpush => lit "RPUSH" | lpop => lit "LPOP"
  | rpop => lit "RPOP"
  | llen => lit "LLEN" | lrange => lit "LRANGE" | hset => lit "HSET" | hmset => lit "HMSET"
  | hget => lit "HGET"
  | hdel => lit "HDEL" | hlen => lit "HLEN" | hexists => lit "HEXISTS" | hgetall => lit "HGETALL"
  | hkeys => lit "HKEYS" | hvals => lit "HVALS" | hmget => lit "HMGET" | sadd => lit "SADD"
  | srem => lit "SREM"
  | sismember => lit "SISMEMBER" | scard => lit "SCARD" | smembers => lit "SMEMBERS"
  | zadd => lit "ZADD"
  | zscore => lit "ZSCORE" | zrem => lit "ZREM" | zcard => lit "ZCARD" | zrange => lit "ZRANGE"
  | del => lit "DEL"
  | unlink => lit "UNLINK" | CmdName.exists => lit "EXISTS" | type => lit "TYPE"
  | expire => lit "EXPIRE"
  | pexpire => lit "PEXPIRE" | expireat => lit "EXPIREAT" | pexpireat => lit "PEXPIREAT"
  | persist => lit "PERSIST"
  | ttl => lit "TTL" | pttl => lit "PTTL" | keys => lit "KEYS" | scan => lit "SCAN"
  | save => lit "SAVE"
  | bgsave => lit "BGSAVE"

def all : List CmdName :=
  [ping, echo, hello, quit, select, auth, command, config, client, info, dbsize, flushall, flushdb,
    set, get, getset, setnx, setex, psetex, mset, mget, append, strlen, incr, decr, incrby, decrby,
    lpush, rpush, lpop, rpop, llen, lrange, hset, hmset, hget, hdel, hlen, hexists, hgetall, hkeys,
    hvals, hmget, sadd, srem, sismember, scard, smembers, zadd, zscore, zrem, zcard, zrange, del,
    unlink, CmdName.exists, type, expire, pexpire, expireat, pexpireat, persist, ttl, pttl, keys,
    scan, save, bgsave]

/-- The command with this upper-case name. -/
def ofName (name : Bytes) : Option CmdName := all.find? fun c => c.text == name

end CmdName

/-- The upper-cased name, cut to the 24 bytes of the dispatcher's buffer.
mirrors crates/server/src/commands.rs:98-102 and crates/server/src/conn.rs:47-52 -/
def upperName (name : Bytes) : Bytes := upper (name.take 24)

/-- An option word: `String::from_utf8_lossy(a).to_ascii_uppercase()`. -/
def optionWord (a : Bytes) : Bytes := upper (fromUtf8Lossy a)

/-- `now + n.max(0) as u64 * unit`, in `u64`. -/
def deadlineAfter (now : Nat) (n : Int) (unit : Nat) : Nat := (now + n.toNat * unit) % 2 ^ 64

/-- The reply to a store operation: `ok` of its result, or its error. -/
def orErr {α : Type} (res : Except StoreErr α) (ok : α → Outcome) : Outcome :=
  match res with
  | .ok a => ok a
  | .error e => .r (storeErr e)

/-- mirrors crates/server/src/commands.rs:305-310 -/
def intOrErr (res : Except StoreErr Nat) : Outcome := orErr res fun n => .r (.int n)

def bulks (items : List Bytes) : Reply Empty := .array (items.map fun x => .bulk (some x))

/-- mirrors crates/server/src/commands.rs:298-301 -/
def unknown (name : Bytes) : Outcome :=
  .r (.error (lit "ERR unknown command '" ++ fromUtf8Lossy name ++ lit "'"))

/-! ## Connection and introspection -/

/-- mirrors crates/server/src/commands.rs:314-333 -/
def auth (cfg : Config) (st : ConnState) (args : List Bytes) : Outcome × ConnState :=
  let check (pass : Bytes) : Outcome × ConnState :=
    match cfg.requirepass with
    | none => (.r (err (lit "Client sent AUTH, but no password is set")), st)
    | some want =>
      if pass = want then (.r .ok, { st with authenticated := true })
      else (.r (.error (lit "WRONGPASS invalid username-password pair")), st)
  match args with
  | [pass] => check pass
  | [_, pass] => check pass
  | _ => (wrongArgs "auth", st)

/-- The map that `HELLO` answers, mirrors crates/server/src/commands.rs:343-353 -/
def helloMap (st : ConnState) : Reply Empty :=
  let m (k : String) (v : Reply Empty) : Reply Empty × Reply Empty := (.bulk (some (lit k)), v)
  .map [m "server" (.bulk (some (lit "inmem"))), m "version" (.bulk (some (lit "0.0.1"))),
    m "proto" (.int (if st.resp3 then 3 else 2)), m "id" (.int st.id),
    m "mode" (.bulk (some (lit "standalone"))), m "role" (.bulk (some (lit "master"))),
    m "modules" (.array [])]

/-- mirrors crates/server/src/commands.rs:335-354 -/
def hello (st : ConnState) (args : List Bytes) : Outcome × ConnState :=
  match args with
  | [] => (.r (helloMap st), st)
  | v :: _ =>
    match parseI64 v with
    | some 2 => (.r (helloMap { st with resp3 := false }), { st with resp3 := false })
    | some 3 => (.r (helloMap { st with resp3 := true }), { st with resp3 := true })
    | _ => (.r (.error (lit "NOPROTO unsupported protocol version")), st)

/-- mirrors crates/server/src/commands.rs:356-361 -/
def commandMeta (args : List Bytes) : Outcome :=
  match args with
  | sub :: _ => if eqCi sub (lit "count") then .r (.int 0) else .r (.array [])
  | [] => .r (.array [])

/-- One parameter of `CONFIG GET`, mirrors crates/server/src/commands.rs:366-382 -/
def configParam (cfg : Config) (param : Bytes) : List (Reply Empty) :=
  let key := lower (fromUtf8Lossy param)
  let val : Option Bytes :=
    if key = lit "maxmemory" then some (natText cfg.maxmemory)
    else if key = lit "maxmemory-policy" then some (lit "allkeys-lfu")
    else if key = lit "save" then some []
    else if key = lit "appendonly" then some (if cfg.appendonly then lit "yes" else lit "no")
    else none
  match val with
  | some v => [.bulk (some param), .bulk (some v)]
  | none => []

/-- mirrors crates/server/src/commands.rs:363-387 -/
def configCmd (cfg : Config) (args : List Bytes) : Outcome :=
  match args with
  | sub :: params =>
    if eqCi sub (lit "get") then .r (.array (params.flatMap (configParam cfg))) else .r .ok
  | [] => .r .ok

/-- mirrors crates/server/src/commands.rs:389-406 -/
def clientCmd (st : ConnState) (args : List Bytes) : Outcome × ConnState :=
  match args with
  | [] => (wrongArgs "client", st)
  | sub :: rest =>
    let sub := optionWord sub
    if sub = lit "SETNAME" ∧ rest.length = 1 then (.r .ok, { st with name := rest.headD [] })
    else if sub = lit "GETNAME" then (.r (.bulk (some st.name)), st)
    else if sub = lit "ID" then (.r (.int st.id), st)
    else if sub = lit "INFO" then
      (.r (.bulk
        (some (lit "id=" ++ natText st.id ++ lit " name=" ++ fromUtf8Lossy st.name ++ lit "\n"))),
        st)
    else (.r .ok, st)

/-- mirrors crates/server/src/commands.rs:408-421 -/
def infoText (cfg : Config) (keys shards : Nat) : Bytes :=
  lit "# Server\r\nredis_version:7.4.0-inmem-0.0.1\r\ninmem_version:0.0.1\r\nmode:standalone\r\n# Clients\r\nconnected_clients:1\r\n# Memory\r\nmaxmemory:"
    ++ natText cfg.maxmemory ++ lit "\r\nmaxmemory_policy:allkeys-lfu\r\n# Keyspace\r\ndb0:keys="
    ++ natText keys ++
      lit ",expires=0,avg_ttl=0\r\n# Replication\r\nrole:master\r\n# Stats\r\nshards:"
    ++ natText shards ++ lit "\r\n"

section
variable {σ : Type} [Score σ]

/-- One operation on one key. -/
def onKey (k : Bytes) (op : KeyOp σ) : Cmd σ op.Res := .call (.key k op) .pure

/-- One call. -/
def ask (c : Call σ) : Cmd σ c.Res := .call c .pure

/-- Run an operation for each key and count how often it answers yes. -/
def countKeys (op : KeyOp σ) (yes : op.Res → Bool) : List Bytes → Cmd σ Nat
  | [] => return 0
  | k :: ks => do
    let b ← onKey k op
    let n ← countKeys op yes ks
    return (if yes b then 1 else 0) + n

/-! ## Strings -/

/-- The option loop of `SET`: the options and whether `GET` was given.
mirrors crates/server/src/commands.rs:433-455 -/
def setOptions (now : Nat) : List Bytes → SetOptions → Bool → Except Outcome (SetOptions × Bool)
  | [], opts, get => .ok (opts, get)
  | [a], opts, get =>
    let opt := optionWord a
    if opt = lit "NX" then .ok ({ opts with nx := true }, get)
    else if opt = lit "XX" then .ok ({ opts with xx := true }, get)
    else if opt = lit "KEEPTTL" then .ok ({ opts with keepTtl := true }, get)
    else if opt = lit "GET" then .ok (opts, true)
    else if opt = lit "EX" ∨ opt = lit "PX" ∨ opt = lit "EXAT" ∨
      opt = lit "PXAT" then .error notInteger
    else .error (.r (err (lit "syntax error")))
  | a :: b :: rest, opts, get =>
    let opt := optionWord a
    if opt = lit "NX" then setOptions now (b :: rest) { opts with nx := true } get
    else if opt = lit "XX" then setOptions now (b :: rest) { opts with xx := true } get
    else if opt = lit "KEEPTTL" then setOptions now (b :: rest) { opts with keepTtl := true } get
    else if opt = lit "GET" then setOptions now (b :: rest) opts true
    else if opt = lit "EX" ∨ opt = lit "PX" ∨ opt = lit "EXAT" ∨ opt = lit "PXAT" then
      match parseI64 b with
      | none => .error notInteger
      | some n =>
        let at_ :=
          if opt = lit "EX" then deadlineAfter now n 1000
          else if opt = lit "PX" then deadlineAfter now n 1
          else if opt = lit "EXAT" then deadlineAfter 0 n 1000
          else deadlineAfter 0 n 1
        setOptions now rest { opts with expireAt := some at_ } get
    else .error (.r (err (lit "syntax error")))

/-- The part of `SET` after its options, mirrors crates/server/src/commands.rs:456-473 -/
def setWith (k v : Bytes) (opts : SetOptions) (wantGet : Bool) : Cmd σ Outcome :=
  if wantGet then do
    let old ← onKey k .get
    match old with
    | .error e => return .r (storeErr e)
    | .ok old =>
      let did ← onKey k (.set v opts)
      return .maybe (.bulk old) did
  else do
    let did ← onKey k (.set v opts)
    return .maybe (if did then .ok else .bulk none) did

/-- mirrors crates/server/src/commands.rs:424-473 -/
def setCmd (args : List Bytes) : Cmd σ Outcome :=
  match args with
  | k :: v :: rest => do
    let now ← ask .nowMs
    match setOptions now rest {} false with
    | .error o => return o
    | .ok (opts, wantGet) => setWith k v opts wantGet
  | _ => return wrongArgs "set"

/-- mirrors crates/server/src/commands.rs:135-144 -/
def getsetCmd (k v : Bytes) : Cmd σ Outcome := do
  let old ← onKey k .get
  match old with
  | .error e => return .r (storeErr e)
  | .ok old =>
    let _ ← onKey k (.set v {})
    return .w (.bulk old)

/-- mirrors crates/server/src/commands.rs:475-500 -/
def setexCmd (args : List Bytes) (ms : Bool) : Cmd σ Outcome :=
  match args with
  | [k, n, v] =>
    match parseI64 n with
    | none => return notInteger
    | some n =>
      if n ≤ 0 then return .r (err (lit "invalid expire time"))
      else do
        let now ← ask .nowMs
        let _ ← onKey k (.set v { expireAt := some (deadlineAfter now n (if ms then 1 else 1000)) })
        return .w .ok
  | _ => return wrongArgs (if ms then "psetex" else "setex")

/-- The loop of `MSET`, mirrors crates/server/src/commands.rs:161-163 -/
def msetLoop : List Bytes → Cmd σ Unit
  | k :: v :: rest => do
    let _ ← onKey k (.set v {})
    msetLoop rest
  | _ => return ()

/-- mirrors crates/server/src/commands.rs:157-165 -/
def msetCmd (args : List Bytes) : Cmd σ Outcome :=
  if args.length < 2 ∨ args.length % 2 = 1 then return wrongArgs "mset"
  else do
    msetLoop args
    return .w .ok

/-- mirrors crates/server/src/commands.rs:166-175; a wrong type reads as nil. -/
def mgetLoop : List Bytes → Cmd σ (List (Reply Empty))
  | [] => return []
  | k :: ks => do
    let v ← onKey k .get
    let rest ← mgetLoop ks
    return .bulk (v.toOption.getD none) :: rest

/-- mirrors crates/server/src/commands.rs:523-526 -/
def incrKey (k : Bytes) (delta : Int) : Cmd σ Outcome := do
  let res ← onKey k (.incrBy delta)
  return orErr res fun v => .w (.int v)

/-- mirrors crates/server/src/commands.rs:502-527 -/
def incrCmd (name : Bytes) (args : List Bytes) (fixed : Int) (by_ : Bool) : Cmd σ Outcome :=
  if by_ then
    match args with
    | [k, d] =>
      match parseI64 d with
      | none => return notInteger
      | some d =>
        if eqCi name (lit "decrby") then
          if InI64 (-d) then incrKey k (-d) else return .r (err (lit "decrement would overflow"))
        else incrKey k d
    | _ => return wrongArgs "incrby"
  else
    match args with
    | [k] => incrKey k fixed
    | _ => return wrongArgs "incr"

/-! ## Lists -/

/-- mirrors crates/server/src/commands.rs:531-540 -/
def pushCmd (args : List Bytes) (left : Bool) : Cmd σ Outcome :=
  match args with
  | k :: v :: vs => do
    let res ← onKey k (.push (v :: vs) left)
    return orErr res fun n => .w (.int n)
  | _ => return wrongArgs (if left then "lpush" else "rpush")

/-- The reply to a pop, mirrors crates/server/src/commands.rs:558-577 -/
def popReply (counted : Bool) (items : List Bytes) : Outcome :=
  let reply : Reply Empty :=
    if counted then (if items.isEmpty then .nullArray else bulks items) else .bulk items.head?
  .maybe reply !items.isEmpty

/-- mirrors crates/server/src/commands.rs:542-578 -/
def popCmd (args : List Bytes) (left : Bool) : Cmd σ Outcome :=
  match args with
  | [k] => do
    let res ← onKey k (.pop 1 left)
    return orErr res (popReply false)
  | [k, c] =>
    match parseI64 c with
    | some c =>
      if 0 ≤ c then do
        let res ← onKey k (.pop c.toNat left)
        return orErr res (popReply true)
      else return .r (err (lit "value is out of range, must be positive"))
    | none => return .r (err (lit "value is out of range, must be positive"))
  | _ => return wrongArgs (if left then "lpop" else "rpop")

/-- mirrors crates/server/src/commands.rs:580-593 -/
def lrangeCmd (k start stop : Bytes) : Cmd σ Outcome :=
  match parseI64 start, parseI64 stop with
  | some start, some stop => do
    let res ← onKey k (.lrange start stop)
    return orErr res fun items => .r (bulks items)
  | _, _ => return notInteger

/-! ## Hashes -/

/-- `chunks(2)` as pairs. -/
def pairsOf : List Bytes → List (Bytes × Bytes)
  | a :: b :: rest => (a, b) :: pairsOf rest
  | _ => []

/-- mirrors crates/server/src/commands.rs:597-613 -/
def hsetCmd (args : List Bytes) (hmset : Bool) : Cmd σ Outcome :=
  match args with
  | k :: rest =>
    if rest.length < 2 ∨ rest.length % 2 = 1
      then return wrongArgs (if hmset then "hmset" else "hset")
    else do
      let res ← onKey k (.hset (pairsOf rest))
      return orErr res fun n => .w (if hmset then .ok else .int n)
  | [] => return wrongArgs (if hmset then "hmset" else "hset")

/-- mirrors crates/server/src/commands.rs:615-641 -/
def hgetallCmd (st : ConnState) (k : Bytes) : Cmd σ Outcome := do
  let res ← onKey k .hgetall
  return orErr res fun pairs =>
    if st.resp3 then .r (.map (pairs.map fun p => (.bulk (some p.1), .bulk (some p.2))))
    else .r (.array (pairs.flatMap fun p => [.bulk (some p.1), .bulk (some p.2)]))

/-- mirrors crates/server/src/commands.rs:643-653 -/
def hkeysValsCmd (k : Bytes) (keys : Bool) : Cmd σ Outcome := do
  let res ← onKey k .hgetall
  return orErr res fun pairs => .r (bulks (pairs.map fun p => if keys then p.1 else p.2))

/-- The loop of `HMGET`, mirrors crates/server/src/commands.rs:656-662 -/
def hmgetLoop (k : Bytes) : List Bytes → Cmd σ (List (Reply Empty))
  | [] => return []
  | f :: fs => do
    let v ← onKey k (.hget f)
    let rest ← hmgetLoop k fs
    return .bulk (v.toOption.getD none) :: rest

/-! ## Sorted sets -/

/-- The score-member pairs of `ZADD`, `none` at a score that does not parse.
mirrors crates/server/src/commands.rs:672-678 -/
def zaddPairs : List Bytes → Option (List (σ × Bytes))
  | s :: m :: rest =>
    match Score.parse s with
    | none => none
    | some score => (zaddPairs rest).map fun ps => (score, m) :: ps
  | _ => some []

/-- mirrors crates/server/src/commands.rs:668-683 -/
def zaddCmd (args : List Bytes) : Cmd σ Outcome :=
  match args with
  | k :: rest =>
    if rest.length < 2 ∨ rest.length % 2 = 1 then return wrongArgs "zadd"
    else
      match zaddPairs rest with
      | none => return .r (err (lit "value is not a valid float"))
      | some pairs => do
        let res ← onKey k (.zadd pairs)
        return orErr res fun n => .w (.int n)
  | [] => return wrongArgs "zadd"

/-- mirrors crates/server/src/commands.rs:685-703 -/
def zrangeCmd (k start stop : Bytes) (rest : List Bytes) : Cmd σ Outcome :=
  match parseI64 start, parseI64 stop with
  | some start, some stop => do
    let withscores := rest.head?.any fun a => eqCi a (lit "withscores")
    let res ← onKey k (.zrange start stop)
    return orErr res fun items =>
      .r (.array (items.flatMap fun p =>
        if withscores then [.bulk (some p.1), .bulk (some (fmtScore p.2))] else [.bulk (some p.1)]))
  | _, _ => return notInteger

/-! ## Keyspace -/

/-- The flag test of `EXPIRE`: `none` is an unsupported flag.
mirrors crates/server/src/commands.rs:726-733 -/
def expireAllowed (flag : Bytes) (cur : Ttl) (now newAt : Nat) : Option Bool :=
  let f := optionWord flag
  if f = lit "NX" then some (match cur with | .noExpiry => true | _ => false)
  else if f = lit "XX" then some (match cur with | .millis _ => true | _ => false)
  else if f = lit "GT" then
    some (match cur with
      | .millis ms => newAt > (now + ms) % 2 ^ 64
      | _ => false)
  else if f = lit "LT" then
    some (match cur with
      | .noExpiry => true
      | .millis ms => newAt < (now + ms) % 2 ^ 64
      | .noKey => false)
  else none

/-- mirrors crates/server/src/commands.rs:707-741 -/
def expireCmd (args : List Bytes) (unit : Nat) (absolute : Bool) : Cmd σ Outcome :=
  match args with
  | k :: n :: rest =>
    match parseI64 n with
    | none => return notInteger
    | some n => do
      let live ← onKey k .exists
      if !live then return .r (.int 0)
      else
        let now ← ask .nowMs
        let newAt := deadlineAfter (if absolute then 0 else now) n unit
        match rest with
        | [] =>
          let _ ← onKey k (.expireAt (some newAt))
          return .w (.int 1)
        | flag :: _ =>
          let cur ← onKey k .pttl
          match expireAllowed flag cur now newAt with
          | none => return .r (err (lit "Unsupported option"))
          | some false => return .r (.int 0)
          | some true =>
            let _ ← onKey k (.expireAt (some newAt))
            return .w (.int 1)
  | _ => return wrongArgs "expire"

/-- mirrors crates/server/src/commands.rs:279-285 -/
def persistCmd (k : Bytes) : Cmd σ Outcome := do
  let cur ← onKey k .pttl
  match cur with
  | .millis _ =>
    let _ ← onKey k (.expireAt none)
    return .w (.int 1)
  | _ => return .r (.int 0)

/-- mirrors crates/server/src/commands.rs:743-757 -/
def ttlCmd (args : List Bytes) (seconds : Bool) : Cmd σ Outcome :=
  match args with
  | [k] => do
    let cur ← onKey k .pttl
    return .r (.int (match cur with
      | .noKey => -2
      | .noExpiry => -1
      | .millis ms => wrapI64 (if seconds then (ms + 999) / 1000 else ms)))
  | _ => return wrongArgs "ttl"

/-- mirrors crates/server/src/commands.rs:759-768 -/
def keysCmd (pat : Bytes) : Cmd σ Outcome := do
  let ks ← ask .keys
  return .r (bulks (ks.filter fun k => globMatch pat k))

/-- The option loop of `SCAN`, mirrors crates/server/src/commands.rs:771-783 -/
def scanPattern : List Bytes → Option Bytes → Option Bytes
  | [], pat => pat
  | [a], pat => if optionWord a = lit "MATCH" then none else pat
  | a :: b :: rest, pat =>
    let opt := optionWord a
    if opt = lit "MATCH" then scanPattern rest (some b)
    else if opt = lit "COUNT" ∨ opt = lit "TYPE" then scanPattern rest pat
    else scanPattern (b :: rest) pat

/-- mirrors crates/server/src/commands.rs:770-794 -/
def scanCmd (opts : List Bytes) : Cmd σ Outcome := do
  let pat := scanPattern opts none
  let ks ← ask .keys
  return .r
    (.array [.bulk (some (lit "0")),
      bulks (ks.filter fun k => (pat.map (globMatch · k)).getD true)])

/-! ## The dispatcher -/

/-- A command that leaves the connection state alone. -/
def keep (st : ConnState) (p : Cmd σ Outcome) : Cmd σ (Outcome × ConnState) := do
  let o ← p
  return (o, st)

/-- The commands that only talk to the store, mirrors crates/server/src/commands.rs:104-302 -/
def storeCmd (cfg : Config) (st : ConnState) (name : Bytes) (args : List Bytes) :
    CmdName → Cmd σ Outcome
  | .ping =>
    match args with
    | [] => return .r (.simple (lit "PONG"))
    | [m] => return .r (.bulk (some m))
    | _ => return wrongArgs "ping"
  | .echo =>
    match args with
    | [m] => return .r (.bulk (some m))
    | _ => return unknown name
  | .quit => return { reply := .ok, quit := true, persist := false }
  | .select => return .r .ok
  | .command => return commandMeta args
  | .config => return configCmd cfg args
  | .info => do
    let keys ← ask .dbsize
    let shards ← ask .shardCount
    return .r (.bulk (some (infoText cfg keys shards)))
  | .dbsize => do
    let n ← ask .dbsize
    return .r (.int n)
  | .flushall | .flushdb => do
    let _ ← ask .flushAll
    return .w .ok
  | .set => setCmd args
  | .get =>
    match args with
    | [k] => do
      let res ← onKey k .get
      return orErr res fun v => .r (.bulk v)
    | _ => return unknown name
  | .getset =>
    match args with
    | [k, v] => getsetCmd k v
    | _ => return unknown name
  | .setnx =>
    match args with
    | [k, v] => do
      let ok ← onKey k (.set v { nx := true })
      return .maybe (.int (if ok then 1 else 0)) ok
    | _ => return unknown name
  | .setex => setexCmd args false
  | .psetex => setexCmd args true
  | .mset => msetCmd args
  | .mget =>
    match args with
    | [] => return unknown name
    | ks => do
      let items ← mgetLoop ks
      return .r (.array items)
  | .append =>
    match args with
    | [k, v] => do
      let res ← onKey k (.append v)
      return orErr res fun n => .w (.int n)
    | _ => return unknown name
  | .strlen =>
    match args with
    | [k] => do
      let res ← onKey k .strlen
      return intOrErr res
    | _ => return unknown name
  | .incr => incrCmd name args 1 false
  | .decr => incrCmd name args (-1) false
  | .incrby => incrCmd name args 0 true
  | .decrby => incrCmd name args 0 true
  | .lpush => pushCmd args true
  | .rpush => pushCmd args false
  | .lpop => popCmd args true
  | .rpop => popCmd args false
  | .llen =>
    match args with
    | [k] => do
      let res ← onKey k .llen
      return intOrErr res
    | _ => return unknown name
  | .lrange =>
    match args with
    | [k, start, stop] => lrangeCmd k start stop
    | _ => return unknown name
  | .hset => hsetCmd args false
  | .hmset => hsetCmd args true
  | .hget =>
    match args with
    | [k, f] => do
      let res ← onKey k (.hget f)
      return orErr res fun v => .r (.bulk v)
    | _ => return unknown name
  | .hdel =>
    match args with
    | k :: f :: fs => do
      let res ← onKey k (.hdel (f :: fs))
      return orErr res fun n => .maybe (.int n) (0 < n)
    | _ => return unknown name
  | .hlen =>
    match args with
    | [k] => do
      let res ← onKey k .hlen
      return intOrErr res
    | _ => return unknown name
  | .hexists =>
    match args with
    | [k, f] => do
      let res ← onKey k (.hget f)
      return orErr res fun v => .r (.int (if v.isSome then 1 else 0))
    | _ => return unknown name
  | .hgetall =>
    match args with
    | [k] => hgetallCmd st k
    | _ => return unknown name
  | .hkeys =>
    match args with
    | [k] => hkeysValsCmd k true
    | _ => return unknown name
  | .hvals =>
    match args with
    | [k] => hkeysValsCmd k false
    | _ => return unknown name
  | .hmget =>
    match args with
    | k :: f :: fs => do
      let items ← hmgetLoop k (f :: fs)
      return .r (.array items)
    | _ => return unknown name
  | .sadd =>
    match args with
    | k :: m :: ms => do
      let res ← onKey k (.sadd (m :: ms))
      return orErr res fun n => .maybe (.int n) (0 < n)
    | _ => return unknown name
  | .srem =>
    match args with
    | k :: m :: ms => do
      let res ← onKey k (.srem (m :: ms))
      return orErr res fun n => .maybe (.int n) (0 < n)
    | _ => return unknown name
  | .sismember =>
    match args with
    | [k, m] => do
      let res ← onKey k (.sismember m)
      return orErr res fun b => .r (.int (if b then 1 else 0))
    | _ => return unknown name
  | .scard =>
    match args with
    | [k] => do
      let res ← onKey k .scard
      return intOrErr res
    | _ => return unknown name
  | .smembers =>
    match args with
    | [k] => do
      let res ← onKey k .smembers
      return orErr res fun ms => .r (bulks ms)
    | _ => return unknown name
  | .zadd => zaddCmd args
  | .zscore =>
    match args with
    | [k, m] => do
      let res ← onKey k (.zscore m)
      return orErr res fun s => .r (.bulk (s.map fmtScore))
    | _ => return unknown name
  | .zrem =>
    match args with
    | k :: m :: ms => do
      let res ← onKey k (.zrem (m :: ms))
      return orErr res fun n => .maybe (.int n) (0 < n)
    | _ => return unknown name
  | .zcard =>
    match args with
    | [k] => do
      let res ← onKey k .zcard
      return intOrErr res
    | _ => return unknown name
  | .zrange =>
    match args with
    | k :: start :: stop :: rest => zrangeCmd k start stop rest
    | _ => return unknown name
  | .del | .unlink =>
    match args with
    | [] => return unknown name
    | ks => do
      let n ← countKeys .del id ks
      return .maybe (.int n) (0 < n)
  | .exists =>
    match args with
    | [] => return unknown name
    | ks => do
      let n ← countKeys .exists id ks
      return .r (.int n)
  | .type =>
    match args with
    | [k] => do
      let t ← onKey k .typeOf
      return .r (.simple t.text)
    | _ => return unknown name
  | .expire => expireCmd args 1000 false
  | .pexpire => expireCmd args 1 false
  | .expireat => expireCmd args 1000 true
  | .pexpireat => expireCmd args 1 true
  | .persist =>
    match args with
    | [k] => persistCmd k
    | _ => return unknown name
  | .ttl => ttlCmd args true
  | .pttl => ttlCmd args false
  | .keys =>
    match args with
    | [pat] => keysCmd pat
    | _ => return unknown name
  | .scan =>
    match args with
    | _ :: opts => scanCmd opts
    | [] => return unknown name
  | .save | .bgsave => do
    let res ← ask .save
    match res with
    | .ok _ => return .r .ok
    | .error e => return .r (err (lit "snapshot failed: " ++ e))
  | .hello | .auth | .client => return unknown name

/-- mirrors crates/server/src/commands.rs:97-303 -/
def dispatch (cfg : Config) (st : ConnState) (name : Bytes) (args : List Bytes) :
    Cmd σ (Outcome × ConnState) :=
  match CmdName.ofName (upperName name) with
  | none => return (unknown name, st)
  | some .hello => return hello st args
  | some .auth => return auth cfg st args
  | some .client => return clientCmd st args
  | some c => keep st (storeCmd cfg st name args c)

end

end Inmem.L4
