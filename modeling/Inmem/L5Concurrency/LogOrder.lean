import Inmem.L4App.Locality
import Inmem.L5Concurrency.Cluster

/-!
# The order of the log

Two connections can apply their writes in one order and log them in the other. The
replica is registered before the first write and no command sets a deadline.

* `Agrees`: the keyspace is what the log and the writes still to be logged add up to,
  and what the stream and the writes still to be sent add up to. `step_agrees`: a
  move keeps this when it overtakes no write on a shared key.
* `log_order`: in a run whose moves all keep that order, the append-only file and the
  stream both give the final keyspace once every write is done.
-/
namespace Inmem.L5

open Inmem.Core Inmem.L1 Inmem.L1.Resp Inmem.L3 Inmem.L4

/-- The write is still to be logged. -/
def Job.unlogged (j : Job) : Bool := j.stage == .test || j.stage == .append

/-- The commands still to be logged, and those still to be sent. -/
def unlogged (jobs : List Job) : List Argv := (jobs.filter Job.unlogged).map Job.argv

def unsent (jobs : List Job) : List Argv := (jobs.filter Job.busy).map Job.argv

theorem unlogged_append (js ks : List Job) : unlogged (js ++ ks) = unlogged js ++ unlogged ks := by
  simp [unlogged]

theorem unlogged_cons (j : Job) (js : List Job) :
    unlogged (j :: js) = if j.unlogged then j.argv :: unlogged js else unlogged js := by
  unfold unlogged
  rw [List.filter_cons]
  split <;> rfl

theorem unsent_append (js ks : List Job) : unsent (js ++ ks) = unsent js ++ unsent ks := by
  simp [unsent]

theorem unsent_cons (j : Job) (js : List Job) :
    unsent (j :: js) = if j.busy then j.argv :: unsent js else unsent js := by
  unfold unsent
  rw [List.filter_cons]
  split <;> rfl

section
variable {σ : Type} [Score σ]

/-- A write is logged, or sent, only when every write before it on a shared key has
been. -/
def InOrder (c : Cluster σ) : Move → Prop
  | .advance i => ∀ r ∈ current c i,
    (r.2.1.stage = .append → ∀ j ∈ r.1, j.unlogged = true →
      independent σ j.argv r.2.1.argv = true) ∧
      (r.2.1.stage = .propagate → ∀ j ∈ r.1, j.busy = true → independent σ j.argv r.2.1.argv = true)
  | _ => True

instance (c : Cluster σ) : ∀ m : Move, Decidable (InOrder c m)
  | .advance i => inferInstanceAs (Decidable (∀ r ∈ current c i,
      (r.2.1.stage = .append → ∀ j ∈ r.1, j.unlogged = true →
        independent σ j.argv r.2.1.argv = true) ∧
        (r.2.1.stage = .propagate → ∀ j ∈ r.1, j.busy = true →
          independent σ j.argv r.2.1.argv = true)))
  | .apply .. | .dump | .register => isTrue trivial

variable (σ) in
/-- The commands are within the parser's limits and set no deadline. -/
def Plain (cmds : List Argv) : Prop := ∀ a ∈ cmds, a.Fits ∧ a.ttlFree σ

variable (σ) in
def Move.Plain : Move → Prop
  | .apply _ _ a => a.Fits ∧ a.ttlFree σ
  | _ => True

instance : ∀ m : Move, Decidable (m.Plain σ)
  | .apply _ _ a => inferInstanceAs (Decidable (a.Fits ∧ a.ttlFree σ))
  | .advance _ | .dump | .register => isTrue trivial

/-- The keyspace agrees with the log and with the stream. -/
structure Agrees (c : Cluster σ) (logged sent : List Argv) : Prop where
  good : c.node.sys.world.store.Good
  timeless : c.node.sys.world.store.raw.Timeless
  registered : c.registered = true
  replicas : c.node.replicas ≠ []
  aof : c.node.aof = some (encodeAll logged)
  feeds : ∀ feed ∈ c.node.replicas, feed = encodeAll sent
  plainLog : Plain σ logged
  plainStream : Plain σ sent
  plainJobs : Plain σ (c.jobs.map Job.argv)
  log : c.node.sys.world.store.raw = viewOf (logged ++ unlogged c.jobs)
  stream : c.node.sys.world.store.raw = viewOf (sent ++ unsent c.jobs)

/-- Doing a command earlier than those it shares no key with. -/
theorem viewOf_pull {done pre post : List Argv} {a : Argv}
    (h : ∀ b ∈ pre, independent σ b a = true) :
    (viewOf (done ++ (pre ++ a :: post)) : View σ) = viewOf (done ++ [a] ++ (pre ++ post)) := by
  simp only [viewOf, List.foldl_append (l := done), List.append_assoc]
  exact Lts.foldl_pull (fun b hb v => afterCmd_comm (h b hb) v) post _

variable {cfg : Config} {E : Surroundings} {D : Env} {c : Cluster σ} {logged sent : List Argv}

theorem Plain.snoc {cmds : List Argv} (h : Plain σ cmds) {a : Argv} (ha : a.Fits ∧ a.ttlFree σ) :
    Plain σ (cmds ++ [a]) := by
  intro b hb
  rcases List.mem_append.1 hb with hb | hb
  · exact h b hb
  · exact List.mem_singleton.1 hb ▸ ha

theorem encodeAll_snoc (cmds : List Argv) (a : Argv) :
    encodeAll (cmds ++ [a]) = encodeAll cmds ++ a.encode := by
  simp [encodeAll]

/-- Applying a command. -/
theorem apply_agrees (h : Agrees c logged sent) (i : Nat) (st : ConnState) {a : Argv}
    (ha : a.Fits ∧ a.ttlFree σ) : Agrees (c.apply cfg E i st a) logged sent := by
  obtain ⟨h1, h2, h3⟩ := serve_timeless ha.2 cfg st E h.good h.timeless
  cases hw : (c.node.sys.exec E (serveCmd cfg st a.1 a.2)).1.write with
  | false =>
    rw [hw, if_neg (by simp)] at h3
    have hjobs : (c.apply cfg E i st a).jobs = c.jobs := if_neg (by simp [Node.exec, hw])
    exact { h with good := h1, timeless := h2, plainJobs := hjobs ▸ h.plainJobs,
                   log := hjobs ▸ h3.trans h.log, stream := hjobs ▸ h3.trans h.stream }
  | true =>
    rw [hw, if_pos rfl] at h3
    have hjobs : (c.apply cfg E i st a).jobs =
        c.jobs ++ [{ conn := i, argv := a, seen := c.dumped.length, stage := .test }] :=
      if_pos hw
    refine { h with good := h1, timeless := h2, plainJobs := ?_, log := ?_, stream := ?_ }
    · rw [hjobs, List.map_append]
      exact h.plainJobs.snoc ha
    · rw [hjobs, unlogged_append, unlogged_cons, if_pos (by rfl), ← List.append_assoc]
      exact h3.trans (h.log ▸ (viewOf_snoc _ a).symm)
    · rw [hjobs, unsent_append, unsent_cons, if_pos (by rfl), ← List.append_assoc]
      exact h3.trans (h.stream ▸ (viewOf_snoc _ a).symm)

/-- Going on with a write, in order. -/
theorem advance_agrees (h : Agrees c logged sent) {i : Nat} {pre post : List Job} {j : Job}
    (hcur : current c i = some (pre, j, post)) (hord : InOrder c (.advance i)) :
    ∃ logged' sent',
      Agrees { c with node := (work c j).1,
                      jobs := pre ++ { j with stage := (work c j).2 } :: post } logged' sent' := by
  obtain ⟨hjobs, hp⟩ := Lts.splitFirst_eq hcur
  have hbusy : j.busy = true := (Bool.and_eq_true_iff.1 hp).2
  have hplain : ∀ s, Plain σ ((pre ++ { j with stage := s } :: post).map Job.argv) := by
    have := h.plainJobs
    rw [hjobs] at this
    simpa only [List.map_append, List.map_cons] using fun _ => this
  have hj : j.argv.Fits ∧ j.argv.ttlFree σ :=
    h.plainJobs _ (List.mem_map_of_mem (by rw [hjobs]; simp))
  have hlog := h.log
  have hstream := h.stream
  rw [hjobs] at hlog hstream
  have hrep : hasReplicas c.node = true := by simpa [hasReplicas] using h.replicas
  obtain ⟨hord1, hord2⟩ := hord _ hcur
  cases hs : j.stage with
  | test =>
    have hwork : work c j = (c.node, .append) := by simp [work, hs, h.aof]
    rw [hwork]
    refine ⟨logged, sent, { h with plainJobs := hplain _, log := ?_, stream := ?_ }⟩
    · simpa [unlogged_append, unlogged_cons, Job.unlogged, hs] using hlog
    · simpa [unsent_append, unsent_cons, Job.busy, hs] using hstream
  | append =>
    have hwork : work c j = (c.node.append (j.argv.1 :: j.argv.2), .check) := by simp [work, hs]
    rw [hwork]
    refine ⟨logged ++ [j.argv], sent,
      { h with aof := ?_, plainLog := h.plainLog.snoc hj, plainJobs := hplain _, log := ?_,
               stream := ?_ }⟩
    · simp only [Node.append, h.aof, encodeAll_snoc]; rfl
    · rw [unlogged_append, unlogged_cons, if_pos (by simp [Job.unlogged, hs])] at hlog
      rw [unlogged_append, unlogged_cons, if_neg (by simp [Job.unlogged])]
      refine hlog.trans (viewOf_pull fun b hb => ?_)
      obtain ⟨x, hx, rfl⟩ := List.mem_map.1 hb
      exact hord1 hs x (List.mem_filter.1 hx).1 (List.mem_filter.1 hx).2
    · simpa [unsent_append, unsent_cons, Job.busy, hs] using hstream
  | check =>
    have hwork : work c j = (c.node, .propagate) := by simp [work, hs, hrep]
    rw [hwork]
    refine ⟨logged, sent, { h with plainJobs := hplain _, log := ?_, stream := ?_ }⟩
    · simpa [unlogged_append, unlogged_cons, Job.unlogged, hs] using hlog
    · simpa [unsent_append, unsent_cons, Job.busy, hs] using hstream
  | propagate =>
    have hwork : work c j = (c.node.propagate j.argv.encode, .sent) := by
      simp [work, hs, h.registered]
    rw [hwork]
    refine ⟨logged, sent ++ [j.argv],
      { h with replicas := ?_, feeds := ?_, plainStream := h.plainStream.snoc hj,
                                               plainJobs := hplain _, log := ?_, stream := ?_ }⟩
    · simpa [Node.propagate] using h.replicas
    · intro feed hf
      obtain ⟨old, hold, rfl⟩ := List.mem_map.1 hf
      rw [h.feeds old hold, encodeAll_snoc]
    · simpa [unlogged_append, unlogged_cons, Job.unlogged, hs] using hlog
    · rw [unsent_append, unsent_cons, if_pos hbusy] at hstream
      rw [unsent_append, unsent_cons, if_neg (by simp [Job.busy])]
      refine hstream.trans (viewOf_pull fun b hb => ?_)
      obtain ⟨x, hx, rfl⟩ := List.mem_map.1 hb
      exact hord2 hs x (List.mem_filter.1 hx).1 (List.mem_filter.1 hx).2
  | sent => simp [Job.busy, hs] at hbusy
  | skipped => simp [Job.busy, hs] at hbusy

/-- One move, in order. -/
theorem step_agrees {c' : Cluster σ} {m : Move} (h : ∃ logged sent, Agrees c logged sent)
    (hm : InOrder c m ∧ m.Plain σ) (hstep : c.step cfg E D m = some c') :
    ∃ logged sent, Agrees c' logged sent := by
  obtain ⟨logged, sent, h⟩ := h
  cases m with
  | apply i st a =>
    simp only [Cluster.step] at hstep
    split at hstep
    · cases hstep
    · exact Option.some.inj hstep ▸ ⟨logged, sent, apply_agrees h i st hm.2⟩
  | advance i =>
    obtain ⟨⟨pre, j, post⟩, hcur, rfl⟩ := Option.map_eq_some_iff.1 hstep
    exact advance_agrees h hcur hm.1
  | dump => simp [Cluster.step, h.registered] at hstep
  | register => simp [Cluster.step, h.registered] at hstep

/-- A server without files, to which `n + 1` replicas have connected. -/
def Cluster.fresh (cfg : Config) (router : Bytes → UInt64) (hasher : Nat → Nat → Bytes → UInt64)
    (E : Surroundings) (n : Nat) : Cluster σ :=
  { node := { (bootstrap cfg router hasher E
    ⟨none, none⟩ : Node σ) with replicas := List.replicate (n + 1) [] }
    dumped := [], registered := true, jobs := [] }

theorem fresh_agrees (happ : cfg.appendonly = true) (hmem : cfg.maxmemory = 0)
    (router : Bytes → UInt64) (hasher : Nat → Nat → Bytes → UInt64) (n : Nat) :
    Agrees (Cluster.fresh cfg router hasher E n : Cluster σ) [] [] := by
  have hraw : (Cluster.fresh cfg router hasher E n : Cluster σ).node.sys.world.store.raw =
      fun _ => none := by
    rw [Cluster.fresh, bootstrap_fresh, Sys.empty_raw]
  exact
    { good := by rw [Cluster.fresh, bootstrap_fresh]; exact Sys.empty_good hmem ..
      timeless := by rw [hraw]; exact View.timeless_none
      registered := rfl
      replicas := by simp [Cluster.fresh]
      aof := by simp [Cluster.fresh, bootstrap, happ, encodeAll]
      feeds := fun feed hf => (List.mem_replicate.1 hf).2
      plainLog := fun a ha => by cases ha
      plainStream := fun a ha => by cases ha
      plainJobs := fun a ha => by cases ha
      log := hraw
      stream := hraw }

/-- **Log order.** Connections apply, log and propagate their writes in any
interleaving in which a write is logged, and sent, only after the writes applied
before it on a shared key. Once every write is done, a start from the append-only file
and the replicas that apply their streams have the keyspace of the primary. -/
theorem log_order (happ : cfg.appendonly = true) (hmem : cfg.maxmemory = 0)
    (router : Bytes → UInt64) (hasher : Nat → Nat → Bytes → UInt64) (n : Nat) (moves : List Move)
    (hplain : ∀ m ∈ moves, m.Plain σ)
    (hord : Lts.Along (Cluster.step cfg E D) InOrder
      (Cluster.fresh cfg router hasher E n : Cluster σ) moves)
    (hrun : Lts.run (Cluster.step cfg E D) (Cluster.fresh cfg router hasher E n) moves = some c)
    (hdone : ∀ j ∈ c.jobs, j.busy = false) (cfg' : Config) (happ' : cfg'.appendonly = true)
    (hmem' : cfg'.maxmemory = 0) (router' : Bytes → UInt64) (hasher' : Nat → Nat → Bytes → UInt64)
    (E' : Surroundings) (snapshot' : Option Bytes) :
    (bootstrap cfg' router' hasher' E' ⟨c.node.aof, snapshot'⟩ : Node σ).sys.world.store.raw =
      c.node.sys.world.store.raw ∧
      ∀ feed ∈ c.node.replicas, ∀ chunks : List Bytes, chunks.flatten = feed →
        (syncOnce cfg' E' chunks
          (Sys.empty cfg' router' hasher' snapshot' : Sys σ)).world.store.raw =
          c.node.sys.world.store.raw := by
  obtain ⟨logged, sent, h⟩ := Lts.run_inv (I := fun c => ∃ logged sent, Agrees c logged sent)
    (fun _ _ _ h hm hs => step_agrees h hm hs) ⟨[], [], fresh_agrees happ hmem router hasher n⟩
      (hord.and_moves hplain) hrun
  have hunlogged : unlogged c.jobs = [] := by
    refine List.map_eq_nil_iff.2 (List.filter_eq_nil_iff.2 fun j hj hu => ?_)
    have := hdone j hj
    cases hs : j.stage <;> simp_all [Job.busy, Job.unlogged]
  have hunsent : unsent c.jobs = [] :=
    List.map_eq_nil_iff.2 (List.filter_eq_nil_iff.2 fun j hj => by simp [hdone j hj])
  have hlog := h.log
  have hstream := h.stream
  rw [hunlogged, List.append_nil] at hlog
  rw [hunsent, List.append_nil] at hstream
  constructor
  · have hrec : recovered cfg' ⟨some (encodeAll logged), snapshot'⟩ = logged := by
      simp [recovered, Disk.source, happ', frames_encodeAll logged fun a ha => (h.plainLog a ha).1]
    rw [bootstrap_sys, h.aof, hrec,
      (applyAll_empty hmem' _ _ _ _ fun a ha => (h.plainLog a ha).2).2.1, hlog]
  · intro feed hf chunks hchunks
    rw [syncOnce_frames cfg' E' chunks sent _ (fun a ha => (h.plainStream a ha).1)
      (hchunks.trans (h.feeds feed hf)),
      (applyAll_empty hmem' _ _ _ _ fun a ha => (h.plainStream a ha).2).2.1, hstream]

end

/-! ## Two writers -/

/-- A server with one replica, after these moves. -/
def afterMoves (moves : List Move) : Option (Cluster Int) :=
  Lts.run (Cluster.step loggingConfig (fun _ => Env.plain 0) (Env.plain 0))
    (Cluster.fresh loggingConfig (fun _ => 0) (fun _ _ _ => 0) (fun _ => Env.plain 0) 0) moves

/-- The string under a key. -/
def strAt (s : Sys Int) (k : Bytes) : Option Bytes := (recStr (s.world.store.raw k)).toOption.join

/-- A start from an append-only file. -/
def restarted (aof : Option Bytes) : Sys Int :=
  (bootstrap loggingConfig (fun _ => 0) (fun _ _ _ => 0) (fun _ => Env.plain 0)
    ⟨aof, none⟩ : Node Int).sys

/-- A fresh replica that applies a stream. -/
def streamed (feed : Bytes) : Sys Int :=
  syncOnce loggingConfig (fun _ => Env.plain 0) [feed]
    (Sys.empty loggingConfig (fun _ => 0) (fun _ _ _ => 0) none)

/-- Connection 1 sets `k`, connection 2 sets `key` to `b`, and the durability steps of 2 come
first. -/
def overtaking (key : Bytes) : List Move :=
  [.apply 1 (ConnState.new 1 true) (lit "SET", [lit "k", lit "a"]),
   .apply 2 (ConnState.new 2 true) (lit "SET", [key, lit "b"]),
   .advance 2, .advance 2, .advance 2, .advance 2, .advance 1, .advance 1, .advance 1, .advance 1]

/-- The server after writes on different keys. -/
def overtaken : Cluster Int := (afterMoves (overtaking (lit "j"))).get (by decide +kernel)

/-- On another key, overtaking does no harm. -/
theorem log_order_apart :
    (restarted overtaken.node.aof).world.store.raw = overtaken.node.sys.world.store.raw ∧
      ∀ feed ∈ overtaken.node.replicas, ∀ chunks : List Bytes, chunks.flatten = feed →
        (syncOnce loggingConfig (fun _ => Env.plain 0) chunks
          (Sys.empty loggingConfig (fun _ => 0) (fun _ _ _ => 0) none)).world.store.raw =
            overtaken.node.sys.world.store.raw :=
  log_order rfl rfl _ _ _ (overtaking (lit "j")) (by decide) (by decide +kernel)
    (Option.some_get _).symm
    (by decide +kernel) loggingConfig rfl rfl _ _ _ none

/-- On the same key, the log and the stream have the writes in the wrong order: the
primary ends with `b`, a restart and the replica with `a`. -/
theorem log_order_reversed :
    ∃ c, afterMoves (overtaking (lit "k")) = some c ∧ (∀ j ∈ c.jobs, j.busy = false) ∧
      strAt c.node.sys (lit "k") = some (lit "b") ∧
      strAt (restarted c.node.aof) (lit "k") = some (lit "a") ∧
      ∀ feed ∈ c.node.replicas, strAt (streamed feed) (lit "k") = some (lit "a") :=
  ⟨(afterMoves (overtaking (lit "k"))).get (by decide +kernel), (Option.some_get _).symm,
    by decide +kernel⟩

end Inmem.L5
