import Inmem.Core.Lts
import Inmem.L4App.Persistence
import Inmem.L4App.Session

/-!
# Connections at work side by side

Each connection runs in a thread of its own. A command is applied to the store under
the store's locks; the durability step that follows it (`crates/server/src/conn.rs`
151-165) holds none of them, and each of its parts can come long after the one
before it: the test whether anything consumes the write, the append under the lock of
the append-only file, the test for replicas, and the propagation under the
registry's lock. At the same time one connection may be serving `SYNC`: it dumps
the shards one by one, and then registers the replica.

`Cluster.step` makes one such move. `work` is what a write does next.
`apply_alone`: with no other move in between, the moves of one write make up
`Conn.command`.
-/
namespace Inmem.L5

open Inmem.Core Inmem.L1 Inmem.L1.Resp Inmem.L3 Inmem.L4

/-- What a write that has been applied does next; `sent` and `skipped` have nothing
left to do. -/
inductive Stage
  /-- test whether anything consumes the write -/
  | test
  | append
  /-- test for replicas -/
  | check
  | propagate
  /-- sent to the replica of the handshake -/
  | sent
  /-- done without -/
  | skipped
  deriving DecidableEq, Repr

/-- A write that has been applied. -/
structure Job where
  conn : Nat
  argv : Argv
  /-- the number of shards that the handshake had dumped by then -/
  seen : Nat
  stage : Stage

/-- The connection is still at it. -/
def Job.busy (j : Job) : Bool := j.stage != .sent && j.stage != .skipped

inductive Move
  /-- a connection applies its next command -/
  | apply (conn : Nat) (st : ConnState) (a : Argv)
  /-- a connection goes on with its write -/
  | advance (conn : Nat)
  /-- the handshake dumps its next shard -/
  | dump
  /-- the handshake sends the snapshot and registers the replica -/
  | register

/-- The server between two moves. -/
structure Cluster (σ : Type) [Score σ] where
  node : Node σ
  /-- the shards that the handshake has dumped -/
  dumped : List Bytes
  registered : Bool
  /-- the writes, in the order in which they were applied -/
  jobs : List Job

section
variable {σ : Type} [Score σ]

/-- mirrors crates/server/src/repl.rs:41-43 -/
def hasReplicas (n : Node σ) : Bool := !n.replicas.isEmpty

/-- A write goes on: the node and the next stage.
mirrors crates/server/src/conn.rs:153-165 -/
def work (c : Cluster σ) (j : Job) : Node σ × Stage :=
  match j.stage with
  | .test => (c.node, if c.node.aof.isSome || hasReplicas c.node then .append else .skipped)
  | .append => (c.node.append (j.argv.1 :: j.argv.2), .check)
  | .check => (c.node, if hasReplicas c.node then .propagate else .skipped)
  | .propagate => (c.node.propagate j.argv.encode, if c.registered then .sent else .skipped)
  | s => (c.node, s)

/-- The write that a connection is at, with those applied before and after it. -/
def current (c : Cluster σ) (i : Nat) : Option (List Job × Job × List Job) :=
  Lts.splitFirst (fun j => j.conn == i && j.busy) c.jobs

/-- A connection applies a command; if it was a write, the durability step follows.
mirrors crates/server/src/conn.rs:138-149 -/
def Cluster.apply (cfg : Config) (E : Surroundings) (c : Cluster σ) (i : Nat) (st : ConnState)
    (a : Argv) : Cluster σ :=
  let r := c.node.exec E (serveCmd cfg st a.1 a.2)
  { c with node := r.2
           jobs := if r.1.write then c.jobs ++
             [{ conn := i, argv := a, seen := c.dumped.length, stage := .test }] else c.jobs }

/-- One move. `D` is the time at which the handshake began its dump. Only one
connection serves `SYNC`; what it does with its own socket is immaterial.
mirrors crates/server/src/conn.rs:102-122, crates/core/src/store.rs:812-828 and
crates/server/src/repl.rs:51-58 -/
def Cluster.step (cfg : Config) (E : Surroundings) (D : Env) (c : Cluster σ) :
    Move → Option (Cluster σ)
  | .apply i st a =>
    if (current c i).isSome then none else some (c.apply cfg E i st a)
  | .advance i =>
    (current c i).map fun r =>
      let w := work c r.2.1
      { c with node := w.1, jobs := r.1 ++ { r.2.1 with stage := w.2 } :: r.2.2 }
  | .dump =>
    if c.registered then none
    else c.node.sys.world.store.shards[c.dumped.length]?.map fun sh =>
      { c with dumped := c.dumped ++ [(sh.dumpArgs D).flatMap encodeArgs] }
  | .register =>
    if c.registered || c.dumped.length != c.node.sys.world.store.shards.length then none
    else some { c with node := { c.node with replicas := c.node.replicas ++ [c.dumped.flatten] },
                       registered := true }

/-! ## One connection alone -/

/-- The connection has nothing left to do with these writes. -/
def Idle (i : Nat) (jobs : List Job) : Prop := ∀ j ∈ jobs, (j.conn == i && j.busy) = false

variable (cfg : Config) (E : Surroundings) (D : Env)

/-- The connection whose write came last goes on with it. -/
theorem advance_last {c : Cluster σ} {i : Nat} {jobs : List Job} {j : Job}
    (hc : c.jobs = jobs ++ [j]) (h : Idle i jobs) (hi : j.conn = i) (hb : j.busy = true) :
    c.step cfg E D (.advance i) =
      some { c with node := (work c j).1, jobs := jobs ++ [{ j with stage := (work c j).2 }] } := by
  have : current c i = some (jobs, j, []) := by
    rw [current, hc]
    exact Lts.splitFirst_append h (by simp [hi, hb]) []
  simp only [Cluster.step, this, Option.map_some]

/-- The durability step of one write, undisturbed. -/
theorem finish_alone {E : Surroundings} (hio : ∀ i, (E i).ioError = none) {c : Cluster σ} {i : Nat}
    {jobs : List Job} {j : Job} (hc : c.jobs = jobs ++ [j]) (h : Idle i jobs) (hi : j.conn = i)
    (hj : j.stage = .test) :
    ∃ n c', Lts.run (Cluster.step cfg E D) c (List.replicate n (.advance i)) = some c' ∧
      Idle i c'.jobs ∧
      c'.node = (c.node.logWrite E (j.argv.1 :: j.argv.2)).2 := by
  have hdone : ∀ s, ({ j with stage := s } : Job).busy = false →
      Idle i (jobs ++ [{ j with stage := s }]) := by
    intro s hs x hx
    rcases List.mem_append.1 hx with hx | hx
    · exact h x hx
    · rw [List.mem_singleton.1 hx, hs, Bool.and_false]
  have hbusy : j.busy = true := by simp [Job.busy, hj]
  have h1 := advance_last cfg E D hc h hi hbusy
  rw [Node.logWrite_eq hio]
  simp only [work, hj] at h1
  by_cases htest : (c.node.aof.isSome || hasReplicas c.node) = true
  · rw [if_pos htest] at h1
    have h2 := advance_last cfg E D (c := { c with jobs := jobs ++ [{ j with stage := .append }] })
      rfl h hi rfl
    simp only [work] at h2
    have h3 := advance_last cfg E D
      (c := { c with node := c.node.append (j.argv.1 :: j.argv.2),
                     jobs := jobs ++ [{ j with stage := .check }] }) rfl h hi rfl
    simp only [work] at h3
    by_cases hrep : hasReplicas c.node = true
    · rw [if_pos (show hasReplicas (c.node.append _) = true from hrep)] at h3
      have h4 := advance_last cfg E D
        (c := { c with node := c.node.append (j.argv.1 :: j.argv.2),
                       jobs := jobs ++ [{ j with stage := .propagate }] })
        rfl h hi rfl
      simp only [work] at h4
      refine ⟨4, _, (Lts.run_step h1 _).trans
        ((Lts.run_step h2 _).trans ((Lts.run_step h3 _).trans (Lts.run_step h4 []))), hdone _ ?_,
        rfl⟩
      cases c.registered <;> rfl
    · rw [if_neg (show ¬ hasReplicas (c.node.append _) = true from hrep)] at h3
      have hnil : c.node.replicas = [] := by simpa [hasReplicas] using hrep
      refine ⟨3, _, (Lts.run_step h1 _).trans ((Lts.run_step h2 _).trans (Lts.run_step h3 [])),
        hdone _ rfl, ?_⟩
      exact (Node.propagate_nil (n := c.node.append (j.argv.1 :: j.argv.2)) hnil _).symm
  · rw [if_neg htest] at h1
    simp only [Bool.or_eq_true, not_or, Bool.not_eq_true, Option.isSome_eq_false_iff,
      Option.isNone_iff_eq_none] at htest
    have hnil : c.node.replicas = [] := by simpa [hasReplicas] using htest.2
    refine ⟨1, _, Lts.run_step h1 [], hdone _ rfl, ?_⟩
    rw [Node.append_none htest.1, Node.propagate_nil hnil]

/-- **One write alone.** When a connection applies a command and then goes on without any
other move in between, the node is as `Conn.command` leaves it: the write, and the
durability step. -/
theorem apply_alone {E : Surroundings} {c : Cluster σ} {i : Nat} (hidle : Idle i c.jobs)
    (hio : ∀ i, (E i).ioError = none) (st : ConnState) (a : Argv) :
    ∃ n c', Lts.run (Cluster.step cfg E D) c (.apply i st a :: List.replicate n (.advance i)) =
      some c' ∧
      Idle i c'.jobs ∧
      c'.node =
        (if (c.node.exec E (serveCmd cfg st a.1 a.2)).1.write then
          ((c.node.exec E (serveCmd cfg st a.1 a.2)).2.logWrite E (a.1 :: a.2)).2
        else (c.node.exec E (serveCmd cfg st a.1 a.2)).2) := by
  have happly : c.step cfg E D (.apply i st a) = some (c.apply cfg E i st a) := by
    rw [Cluster.step, show current c i = none from Lts.splitFirst_none hidle]; rfl
  cases hw : (c.node.exec E (serveCmd cfg st a.1 a.2)).1.write with
  | false =>
    refine ⟨0, c.apply cfg E i st a, ?_, ?_, rfl⟩
    · rw [Lts.run, happly]; rfl
    · rw [Cluster.apply, hw]; exact hidle
  | true =>
    obtain ⟨n, c', h1, h2, h3⟩ := finish_alone cfg D hio (c := c.apply cfg E i st a)
      (by rw [Cluster.apply, hw]; rfl) hidle rfl rfl
    exact ⟨n, c', by rw [Lts.run, happly]; exact h1, h2, h3⟩

end

end Inmem.L5
