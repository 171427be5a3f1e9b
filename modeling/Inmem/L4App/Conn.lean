import Inmem.L1Encoding.RespCodec
import Inmem.L4App.Commands

/-!
# One connection

`crates/server/src/conn.rs`: the loop that reads chunks, parses commands out of
the buffer, runs them and writes replies, and the durability step after each
write.

`Sys` is the store, the snapshot file and the number of calls made so far: call
number `i` takes its clock reading from `E i`. `Node` adds the append-only file
and the feeds of the registered replicas.

The output buffer is flushed in order before the loop blocks or returns, so a
connection's output is kept as one byte string.
-/
namespace Inmem.L4

open Inmem.Core Inmem.L1 Inmem.L1.Resp Inmem.L3 Inmem.Core.Decimal

/-- The surroundings of each call. -/
abbrev Surroundings := Nat → Env

structure Sys (σ : Type) [Score σ] where
  world : World σ
  tick : Nat

structure Node (σ : Type) [Score σ] where
  sys : Sys σ
  /-- the contents of the append-only file, if the server keeps one -/
  aof : Option Bytes
  /-- what has been sent to each registered replica -/
  replicas : List Bytes

section
variable {σ : Type} [Score σ]

def Sys.call (E : Surroundings) (c : Call σ) (s : Sys σ) : c.Res × Sys σ :=
  let r := c.exec (E s.tick) s.world
  (r.1, { world := r.2, tick := s.tick + 1 })

def Sys.exec {α : Type} (E : Surroundings) (p : Cmd σ α) (s : Sys σ) : α × Sys σ :=
  p.run (Sys.call E) s

theorem Sys.exec_pure {α : Type} (E : Surroundings) (a : α) (s : Sys σ) :
    s.exec E (.pure a) = (a, s) := rfl

theorem Sys.exec_call {α : Type} (E : Surroundings) (c : Call σ) (k : c.Res → Cmd σ α) (s : Sys σ) :
    s.exec E (.call c k) = (s.call E c).2.exec E (k (s.call E c).1) := rfl

def Node.exec {α : Type} (E : Surroundings) (p : Cmd σ α) (n : Node σ) : α × Node σ :=
  let r := n.sys.exec E p
  (r.1, { n with sys := r.2 })

/-- mirrors crates/server/src/conn.rs:197-199 -/
def isPreauthOk (name : Bytes) : Bool :=
  name == lit "AUTH" || name == lit "HELLO" || name == lit "QUIT" || name == lit "PING"

/-- mirrors crates/server/src/repl.rs:149-184 -/
def isWriteCommand (name : Bytes) : Bool :=
  [lit "SET", lit "SETNX", lit "SETEX", lit "PSETEX", lit "GETSET", lit "MSET", lit "APPEND",
    lit "INCR", lit "DECR", lit "INCRBY", lit "DECRBY", lit "DEL", lit "UNLINK", lit "EXPIRE",
    lit "PEXPIRE", lit "EXPIREAT", lit "PEXPIREAT", lit "PERSIST", lit "FLUSHALL", lit "FLUSHDB",
    lit "LPUSH", lit "RPUSH", lit "LPOP", lit "RPOP", lit "HSET", lit "HMSET", lit "HDEL",
    lit "SADD", lit "SREM", lit "ZADD", lit "ZREM"].contains name

/-- The command that subscribes a replica. -/
def isSync (name : Bytes) : Bool := upperName name == lit "SYNC" || upperName name == lit "PSYNC"

/-- mirrors crates/server/src/conn.rs:239-254 -/
def fastIncr (k : Bytes) (delta : Int) : Cmd σ (Bytes × Bool) := do
  let res ← onKey k (.incrBy delta)
  match res with
  | .ok v => return (writeInt v, true)
  | .error e => return (writeError (if e = .wrongType then e.text else lit "ERR " ++ e.text), false)

/-- The reply of the fast path and whether it was a write, `none` when it does
not serve the command. mirrors crates/server/src/conn.rs:204-236 -/
def serveFast (st : ConnState) (name : Bytes) (args : List Bytes) : Option (Cmd σ (Bytes × Bool)) :=
  let n := upperName name
  match args with
  | [] => if n = lit "PING" then some (return (writeSimple (lit "PONG"), false)) else none
  | [k] =>
    if n = lit "GET" then
      some do
        let r ← onKey k .readStr
        match r with
        | .str b => return (writeBulk b, false)
        | .none => return (writeNull st.resp3, false)
        | .wrongType => return (writeError StoreErr.wrongType.text, false)
    else if n = lit "INCR" then some (fastIncr k 1)
    else if n = lit "DECR" then some (fastIncr k (-1))
    else none
  | [k, v] =>
    if n = lit "SET" then
      some do
        let _ ← onKey k (.set v {})
        return (writeSimple (lit "OK"), true)
    else none
  | _ => none

/-- What running one command gives the connection. -/
structure Served where
  bytes : Bytes
  write : Bool
  quit : Bool
  st : ConnState

/-- Encode a reply; the server never sends a double. -/
def encodeReply (resp3 : Bool) (r : Reply Empty) : Bytes := r.encode Empty.elim resp3

/-- Fast path or dispatcher, mirrors crates/server/src/conn.rs:138-149 -/
def serveCmd (cfg : Config) (st : ConnState) (name : Bytes) (args : List Bytes) : Cmd σ Served :=
  match serveFast st name args with
  | some p => do
    let r ← p
    return { bytes := r.1, write := r.2, quit := false, st }
  | none => do
    let r ← dispatch cfg st name args
    return { bytes := encodeReply r.2.resp3 r.1.reply, write := r.1.persist, quit := r.1.quit,
             st := r.2 }

/-- mirrors crates/server/src/repl.rs:61-69 -/
def Node.propagate (n : Node σ) (bytes : Bytes) : Node σ :=
  { n with replicas := n.replicas.map (· ++ bytes) }

/-- mirrors crates/server/src/persistence.rs:35-41 -/
def Node.append (n : Node σ) (argv : List Bytes) : Node σ :=
  { n with aof := n.aof.map (· ++ encodeArgs argv) }

/-- The durability step after a write: the error of a failed append, and the node
afterwards. mirrors crates/server/src/conn.rs:151-165 -/
def Node.logWrite (E : Surroundings) (n : Node σ) (argv : List Bytes) : Option Bytes × Node σ :=
  let r : Option Bytes × Node σ :=
    match n.aof, (E n.sys.tick).ioError with
    | some _, none => (none, n.append argv)
    | some _, some e => (some e, n)
    | none, _ => (none, n)
  (r.1, r.2.propagate (encodeArgs argv))

inductive Status
  | open
  | closed
  /-- the connection has become a replica feed -/
  | passive
  deriving DecidableEq, Repr

/-- A connection at work. -/
structure Conn (σ : Type) [Score σ] where
  st : ConnState
  node : Node σ
  out : Bytes
  status : Status

/-- `raw`: the plaintext socket that `SYNC` needs. -/
structure Server where
  cfg : Config
  raw : Bool

/-- A command past the gates: it runs, and a write goes through the durability step.
mirrors crates/server/src/conn.rs:138-169 -/
def Conn.perform (srv : Server) (E : Surroundings) (c : Conn σ) (name : Bytes) (args : List Bytes) :
    Conn σ :=
  let r := c.node.exec E (serveCmd srv.cfg c.st name args)
  let l := if r.1.write then r.2.logWrite E (name :: args) else (none, r.2)
  { st := r.1.st
    node := l.2
    out := c.out ++ r.1.bytes ++ (match l.1 with
      | some e => writeError (lit "ERR aof write failed: " ++ e)
      | none => [])
    status := if r.1.quit || l.1.isSome then .closed else .open }

/-- One command, mirrors crates/server/src/conn.rs:94-169 -/
def Conn.command (srv : Server) (E : Surroundings) (c : Conn σ) (name : Bytes) (args : List Bytes) :
    Conn σ :=
  if isSync name then
    if srv.raw then
      let snapshot := c.node.sys.world.store.dumpCommands (E c.node.sys.tick)
      { c with node := { c.node with replicas := c.node.replicas ++ [snapshot],
                                     sys := { c.node.sys with tick := c.node.sys.tick + 1 } },
               out := c.out ++ snapshot, status := .passive }
    else
      { c with out := c.out ++ writeError (lit "ERR replication is not supported over TLS"),
               status := .closed }
  else if !c.st.authenticated && !isPreauthOk (upperName name) then
    { c with out := c.out ++ writeError (lit "NOAUTH Authentication required.") }
  else if srv.cfg.replicaof.isSome && isWriteCommand (upperName name) then
    { c with out := c.out ++
             writeError (lit "READONLY You can't write against a read only replica.") }
  else c.perform srv E name args

/-! ## The loop

`conn.rs` and `runtime_uring.rs` have the same loop; what is done for a command is a
parameter. -/

namespace Loop

variable (command : Conn σ → Bytes → List Bytes → Conn σ)

/-- The parse loop over the buffered bytes: the connection and the bytes left.
mirrors crates/server/src/conn.rs:79-174 -/
def drain : Nat → Bytes → Conn σ → Conn σ × Bytes
  | 0, buf, c => (c, buf)
  | f + 1, buf, c =>
    match parseCommandRanges buf with
    | .error e =>
      ({ c with out := c.out ++ writeError (lit "ERR Protocol error: " ++ e.text),
                status := .closed }, buf)
    | .ok none => (c, buf)
    | .ok (some (ranges, consumed)) =>
      match ranges.map (slice buf) with
      | [] => drain f (buf.drop consumed) c
      | name :: args =>
        let c := command c name args
        if c.status = .open then drain f (buf.drop consumed) c else (c, buf.drop consumed)

/-- The connection over the chunks that the socket delivers.
mirrors crates/server/src/conn.rs:70-182 -/
def run : List Bytes → Bytes → Conn σ → Conn σ
  | [], _, c => c
  | chunk :: chunks, inbuf, c =>
    let r := drain command (inbuf ++ chunk).length (inbuf ++ chunk) c
    if r.1.status = .open then run chunks r.2 r.1 else r.1

end Loop

/-- mirrors crates/server/src/conn.rs:70-182 -/
def Conn.run (srv : Server) (E : Surroundings) (chunks : List Bytes) (inbuf : Bytes) (c : Conn σ) :
    Conn σ :=
  Loop.run (Conn.command srv E) chunks inbuf c

/-- mirrors crates/server/src/conn.rs:63-68 -/
def Conn.accept (srv : Server) (id : Nat) (node : Node σ) : Conn σ :=
  { st := ConnState.new id srv.cfg.requirepass.isNone, node, out := [], status := .open }

end

end Inmem.L4
