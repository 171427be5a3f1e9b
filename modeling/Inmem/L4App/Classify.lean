import Inmem.L3Store.Unchanged
import Inmem.L4App.Effects
import Inmem.L4App.Session

/-!
# Commands that change the keyspace are classified as writes

Three lists have to agree: the arms of the dispatcher that write, the flag each
of them computes from the store's answers, and `is_write_command`, by which a
read-only replica turns commands away.

* `exec_unflagged`: on every store, bounded or not, a command that is not flagged as
  a write leaves the keyspace as it was;
* `servedWrite_classified`: a command that can write is on the list;
* `write_classified`: so every change is flagged and on the list, a read-only replica
  is never changed by a client, and every change reaches the append-only file or
  the client is told that it did not.
-/
namespace Inmem.L4

open Inmem.Core Inmem.L1 Inmem.L1.Resp Inmem.L3

variable {σ : Type} [Score σ]

/-! ## Names -/

theorem CmdName.text_of_ofName {n : Bytes} {c : CmdName} (h : CmdName.ofName n = some c) :
    c.text = n := by
  have hb : (c.text == n) = true := List.find?_some (p := fun c : CmdName => c.text == n) h
  exact eq_of_beq hb

/-- A name shorter than the dispatcher's buffer is not cut. -/
theorem upperName_short {name : Bytes} (h : (upperName name).length < 24) :
    upperName name = upper name := by
  rw [upperName, upper, List.length_map, List.length_take] at h
  rw [upperName, List.take_of_length_le (by omega)]

theorem writeOf_classified (name : Bytes) (args : List Bytes) {c : CmdName} {w : Write σ}
    (h : writeOf name args c = some w) : isWriteCommand c.text = true := by
  cases c with
  | flushall | flushdb | set | getset | setnx | setex | psetex | mset | append | incr | decr
  | incrby | decrby
  | lpush | rpush | lpop | rpop | hset | hmset | hdel | sadd | srem | zadd | zrem | del | unlink
  | expire | pexpire | expireat | pexpireat | persist => decide +kernel
  | _ => cases h

theorem writeCmd_classified {name : Bytes} {args : List Bytes} {w : Write σ}
    (h : writeCmd name args = some w) : isWriteCommand (upperName name) = true := by
  obtain ⟨c, hc, hw⟩ := Option.bind_eq_some_iff.1 h
  rw [← CmdName.text_of_ofName hc]
  exact writeOf_classified name args hw

/-- A command that can write is classified as a write. -/
theorem servedWrite_classified {name : Bytes} {args : List Bytes} {w : Write σ}
    (h : servedWrite name args = some w) : isWriteCommand (upperName name) = true := by
  rcases served_dispatched (σ := σ) name args with e | ⟨k, x, -, e⟩
  · exact writeCmd_classified (e.symm.trans h)
  · exact writeCmd_classified e

/-! ## Commands that are not flagged -/

/-- A program that announces its changes and ends without the flag has left the
keyspace as it was. -/
theorem exec_unflagged {α : Type} {p : Cmd σ α} {flag : α → Bool}
    (hp : p.Announces Call.changed flag) (E : Surroundings) {b : Nat} {s : Sys σ}
    (hs : s.world.store.Whole b) (hf : flag (s.exec E p).1 = false) {u : Nat}
    (hu : ∀ i, s.tick ≤ i → i < (s.exec E p).2.tick → E.clock i ≤ u) :
    (s.exec E p).2.world.store.raw.at u = s.world.store.raw.at u := by
  refine (Prog.announces_run (Sys.call E) (fun s' => s'.world.store.Whole b ∧ s.tick ≤ s'.tick ∧
    ∀ u, (∀ i, s.tick ≤ i → i < s'.tick → E.clock i ≤ u) →
    s'.world.store.raw.at u = s.world.store.raw.at u)
    ?_ hp ⟨hs, le_rfl, fun _ _ => rfl⟩ hf).2.2 u hu
  rintro c s' hc ⟨hw, ht, hsame⟩
  refine ⟨exec_whole _ c hw, Nat.le_succ_of_le ht, fun u hu => ?_⟩
  have hnow : E.clock s'.tick ≤ u := hu s'.tick ht (Nat.lt_succ_self _)
  exact (exec_unchanged _ c hw hc hnow).trans
    (hsame u fun i h1 h2 => hu i h1 (Nat.lt_succ_of_lt h2))

/-- A command without a write is not flagged. -/
theorem exec_unwritten {α : Type} {p : Cmd σ α} {flag : α → Bool} (hp : Runs p flag none)
    (E : Surroundings) (s : Sys σ) : flag (s.exec E p).1 = false :=
  (Prog.all_run (Sys.call E) (fun _ => True) (fun _ _ _ _ => trivial) hp (s := s) trivial).1

/-- What the connection loop serves: a change is flagged, and the command is on the list. -/
theorem serve_changed (cfg : Config) (st : ConnState) (name : Bytes) (args : List Bytes)
    (E : Surroundings) {b : Nat} {s : Sys σ} (hs : s.world.store.Whole b) {u : Nat}
    (hu : ∀ i, s.tick ≤ i → i < (s.exec E (serveCmd cfg st name args)).2.tick → E.clock i ≤ u)
    (hne : (s.exec E (serveCmd cfg st name args)).2.world.store.raw.at u ≠ s.world.store.raw.at u) :
    (s.exec E (serveCmd cfg st name args)).1.write = true ∧
      isWriteCommand (upperName name) = true := by
  have hruns : Runs (serveCmd cfg st name args : Cmd σ Served) Served.write
      (servedWrite name args) :=
    serveCmd_runs cfg st name args
  have hflag : (s.exec E (serveCmd cfg st name args)).1.write = true := by
    by_contra hf
    exact hne (exec_unflagged hruns.announces E hs (Bool.eq_false_iff.2 hf) hu)
  refine ⟨hflag, ?_⟩
  cases hw : (servedWrite name args : Option (Write σ)) with
  | some w => exact servedWrite_classified hw
  | none =>
    rw [hw] at hruns
    rw [exec_unwritten hruns] at hflag
    cases hflag

/-! ## The connection -/

section
variable {srv : Server} {E : Surroundings} {c : Conn σ} {name : Bytes} {args : List Bytes}

theorem logWrite_sys (n : Node σ) (argv : List Bytes) : (n.logWrite E argv).2.sys = n.sys := by
  unfold Node.logWrite
  cases n.aof with
  | none => rfl
  | some log => cases (E n.sys.tick).ioError <;> rfl

theorem perform_sys :
    (c.perform srv E name args).node.sys =
      (c.node.sys.exec E (serveCmd srv.cfg c.st name args)).2 := by
  unfold Conn.perform
  dsimp only
  split
  · exact logWrite_sys _ _
  · rfl

/-- The durability step of a write: the command is appended, or the client is told
that it was not and the connection closes. -/
theorem perform_logged (hw : (c.node.sys.exec E (serveCmd srv.cfg c.st name args)).1.write = true)
    {log : Bytes} (hlog : c.node.aof = some log) :
    (c.perform srv E name args).node.aof = some (log ++ encodeArgs (name :: args)) ∨
      ∃ e, (E (c.perform srv E name args).node.sys.tick).ioError = some e ∧
        (c.perform srv E name args).status = .closed ∧
        (c.perform srv E name args).out =
          c.out ++ (c.node.sys.exec E (serveCmd srv.cfg c.st name args)).1.bytes ++
          writeError (lit "ERR aof write failed: " ++ e) := by
  rw [perform_sys]
  have hw : (c.node.exec E (serveCmd srv.cfg c.st name args)).1.write = true := hw
  have hlog : (c.node.exec E (serveCmd srv.cfg c.st name args)).2.aof = some log := hlog
  unfold Conn.perform
  dsimp only
  rw [if_pos hw]
  unfold Node.logWrite
  dsimp only
  rw [hlog]
  cases hio : (E (c.node.exec E (serveCmd srv.cfg c.st name args)).2.sys.tick).ioError with
  | none => exact .inl (by simp [Node.append, Node.propagate, hlog])
  | some e => exact .inr ⟨e, hio, by simp, rfl⟩

end

/-- **Write classification.** On every store that calls can lead to, bounded or not,
for every connection state and argument vector: if running the command changes
the live keyspace, it is flagged as a write and `is_write_command` holds of its
name. So a client never changes the keyspace of a read-only replica, and a change
is appended to the append-only file, unless that fails and the client is told.
The keyspaces are compared at a time `u` that no reading of the command is after. -/
theorem write_classified (shards maxmemory : Nat) (router : Bytes → UInt64)
    (hasher : Nat → Nat → Bytes → UInt64) (file : Option Bytes) (run : List (Env × Call σ))
    (srv : Server) (E : Surroundings) (c : Conn σ)
    (hc : c.node.sys.world = runCalls run ⟨Store.new shards maxmemory router hasher, file⟩)
    (name : Bytes) (args : List Bytes) (u : Nat) :
    let before := c.node.sys.world.store.raw.at u
    let served := c.node.sys.exec E (serveCmd srv.cfg c.st name args)
    let c' := c.command srv E name args
    let after := c'.node.sys.world.store.raw.at u
    (∀ i, c.node.sys.tick ≤ i → i < served.2.tick → E.clock i ≤ u) →
      (served.2.world.store.raw.at u ≠ before →
        served.1.write = true ∧ isWriteCommand (upperName name) = true) ∧
        (srv.cfg.replicaof.isSome = true → after = before) ∧
        (after ≠ before → ∀ log, c.node.aof = some log →
          c'.node.aof = some (log ++ encodeArgs (name :: args)) ∨
            ∃ e, (E c'.node.sys.tick).ioError = some e ∧ c'.status = .closed ∧
              c'.out = c.out ++ served.1.bytes ++ writeError
                (lit "ERR aof write failed: " ++ e)) := by
  intro before served c' after hu
  have hs : c.node.sys.world.store.Whole _ :=
    hc ▸ runCalls_whole shards maxmemory router hasher file run
  have hserved : served.2.world.store.raw.at u ≠ before →
      served.1.write = true ∧ isWriteCommand (upperName name) = true :=
    serve_changed srv.cfg c.st name args E hs hu
  -- a command that changes something was performed, and no replica rejects it
  have hperformed : after ≠ before → c' = c.perform srv E name args ∧ served.1.write = true ∧
      srv.cfg.replicaof.isSome = false := by
    intro hne
    rcases command_cases srv E c name args with h | ⟨h, e⟩
    · exact absurd (by simp only [after, c', h.world, before]) hne
    · have hsys : c'.node.sys = served.2 := (congrArg (fun x => x.node.sys) e).trans perform_sys
      obtain ⟨hw, hl⟩ := hserved (by simpa only [after, hsys] using hne)
      exact ⟨e, hw, by simpa [hl] using h⟩
  refine ⟨hserved, fun hro => ?_, fun hne log hlog => ?_⟩
  · by_contra hne
    exact Bool.false_ne_true ((hperformed hne).2.2.symm.trans hro)
  · obtain ⟨e, hw, -⟩ := hperformed hne
    rw [e]
    exact perform_logged hw hlog

/-- A connection to a store of at most a thousand bytes that holds one string. -/
def boundedConn : Conn Int where
  st := ConnState.internal
  node := ⟨⟨runCalls [(Env.plain 1, .key (lit "k") (.set (lit "x") {}))]
    ⟨Store.new 1 1000 (fun _ => 0) (fun _ _ _ => 0), none⟩, 0⟩, some [], []⟩
  out := []
  status := .open

/-- An `APPEND` changes the string, so it is in the file. -/
theorem write_classified_append :
    (boundedConn.command ⟨⟨1, 1000, true, none, none, none⟩, false⟩ (fun _ => Env.plain 2)
      (lit "append")
      [lit "k", lit "y"]).node.aof = some (encodeArgs [lit "append", lit "k", lit "y"]) := by
  refine ((write_classified 1 1000 (fun _ => 0) (fun _ _ _ => 0) none _
    ⟨⟨1, 1000, true, none, none, none⟩, false⟩
    (fun _ => Env.plain 2) boundedConn rfl (lit "append")
      [lit "k", lit "y"] 2 fun _ _ _ => le_rfl).2.2 ?_ []
    rfl).resolve_right nofun
  intro h
  exact absurd (congrFun h (lit "k")) (by decide +kernel)

end Inmem.L4
