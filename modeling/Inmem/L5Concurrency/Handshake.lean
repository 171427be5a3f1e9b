import Inmem.L4App.Locality
import Inmem.L5Concurrency.Cluster

/-!
# The replication handshake

`SYNC` dumps the shards one by one and registers the replica only afterwards. A
write that is applied in between, to a shard that has already been dumped, is too late
for the snapshot: it reaches the replica only through the stream.

* `seen_iff_applied`: what it means that a write is in time for the dump of a shard.
* `sync_alone`: with no other move in between, the snapshot is that of the store.
* `feed_inv`: what the replica has been sent is the snapshot and then the writes
  that count as sent, each once.
* `no_write_lost`: once every write is done, each of them is in the snapshot or has been
  sent, if and only if in the course of the run every write that is too late for
  the snapshot passes both tests, and is propagated after the registration.
-/
namespace Inmem.L5

open Inmem.Core Inmem.L1 Inmem.L1.Resp Inmem.L3 Inmem.L4

section
variable {σ : Type} [Score σ] {cfg : Config} {E : Surroundings} {D : Env}

/-! ## The snapshot -/

/-- The write came before the dump of every shard that it concerns: all the keys it
names are in shards that had not been dumped by then. -/
def Cluster.contains (c : Cluster σ) (j : Job) : Bool :=
  match (writeCmd j.argv.1 j.argv.2 : Option (Write σ)).map Write.keys with
  | some (some ks) => ks.all fun k => j.seen ≤ c.node.sys.world.store.index k
  | some none => j.seen == 0
  | none => false

theorem exec_index (env : Env) (call : Call σ) (w : World σ) :
    (call.exec env w).2.store.index = w.store.index := by
  cases call with
  | save =>
    simp only [Call.exec]
    cases env.ioError <;> rfl
  | _ => rfl

/-- No move changes the shard that a key belongs to. -/
theorem step_index {c c' : Cluster σ} {m : Move} (h : c.step cfg E D m = some c') :
    c'.node.sys.world.store.index = c.node.sys.world.store.index := by
  cases m with
  | apply i st a =>
    simp only [Cluster.step] at h
    split at h
    · cases h
    · rw [← Option.some.inj h]
      exact (Prog.all_run (Sys.call E) (fun s => s.world.store.index = c.node.sys.world.store.index)
        (fun call s _ hs => (exec_index _ call s.world).trans hs)
          (serveCmd cfg st a.1 a.2).all_trivial rfl).2
  | advance i =>
    obtain ⟨⟨pre, j, post⟩, -, rfl⟩ := Option.map_eq_some_iff.1 h
    dsimp only [work]
    cases j.stage <;> rfl
  | dump =>
    simp only [Cluster.step] at h
    split at h
    · cases h
    · obtain ⟨sh, -, rfl⟩ := Option.map_eq_some_iff.1 h
      rfl
  | register =>
    simp only [Cluster.step] at h
    split at h
    · cases h
    · rw [← Option.some.inj h]

theorem contains_congr {c c' : Cluster σ}
    (h : c'.node.sys.world.store.index = c.node.sys.world.store.index) (j : Job) :
    c'.contains j = c.contains j := by
  simp only [Cluster.contains, h]

/-- A move applies at most one write, and leaves its mark on no other. -/
theorem step_seen {c c' : Cluster σ} {m : Move} (h : c.step cfg E D m = some c') :
    c.dumped.length ≤ c'.dumped.length ∧
      (c'.jobs.map Job.seen = c.jobs.map Job.seen ∨
        c'.jobs.map Job.seen = c.jobs.map Job.seen ++ [c.dumped.length]) := by
  cases m with
  | apply i st a =>
    simp only [Cluster.step] at h
    split at h
    · cases h
    · rw [← Option.some.inj h]
      refine ⟨le_rfl, ?_⟩
      simp only [Cluster.apply]
      split
      · exact .inr (List.map_append ..)
      · exact .inl rfl
  | advance i =>
    obtain ⟨⟨pre, j, post⟩, hcur, rfl⟩ := Option.map_eq_some_iff.1 h
    obtain ⟨hjobs, -⟩ := Lts.splitFirst_eq hcur
    refine ⟨le_rfl, .inl ?_⟩
    simp only [hjobs, List.map_append, List.map_cons]
  | dump =>
    simp only [Cluster.step] at h
    split at h
    · cases h
    · obtain ⟨sh, -, rfl⟩ := Option.map_eq_some_iff.1 h
      exact ⟨by simp, .inl rfl⟩
  | register =>
    simp only [Cluster.step] at h
    split at h
    · cases h
    · rw [← Option.some.inj h]
      exact ⟨le_rfl, .inl rfl⟩

/-- **What the snapshot holds.** In a run from before the first write, a write counts as
seen by the dump of a shard exactly when it had been applied by then. -/
theorem seen_iff_applied {c₀ c c₁ c' : Cluster σ} (hj : c₀.jobs = []) {before after : List Move}
    (h₀ : Lts.run (Cluster.step cfg E D) c₀ before = some c)
    (hdump : c.step cfg E D .dump = some c₁)
    (h₁ : Lts.run (Cluster.step cfg E D) c₁ after = some c') :
    ∃ later, c'.jobs.map Job.seen = c.jobs.map Job.seen ++ later ∧
      (∀ n ∈ c.jobs.map Job.seen, n ≤ c.dumped.length) ∧
      ∀ n ∈ later, c.dumped.length < n := by
  have hbefore : ∀ n ∈ c.jobs.map Job.seen, n ≤ c.dumped.length := by
    refine Lts.run_keeps (I := fun c => ∀ n ∈ c.jobs.map Job.seen, n ≤ c.dumped.length) ?_
      (by simp [hj]) h₀
    intro s m t hs hstep n hn
    obtain ⟨hle, hseen | hseen⟩ := step_seen hstep
    · exact (hs n (hseen ▸ hn)).trans hle
    · rw [hseen, List.mem_append, List.mem_singleton] at hn
      rcases hn with hn | rfl
      · exact (hs n hn).trans hle
      · exact hle
  have hlt : c.dumped.length < c₁.dumped.length ∧ c₁.jobs = c.jobs := by
    simp only [Cluster.step] at hdump
    split at hdump
    · cases hdump
    · obtain ⟨sh, -, rfl⟩ := Option.map_eq_some_iff.1 hdump
      exact ⟨by simp, rfl⟩
  obtain ⟨-, later, hl, hn⟩ := Lts.run_keeps
    (I := fun t => c.dumped.length < t.dumped.length ∧
      ∃ later, t.jobs.map Job.seen = c.jobs.map Job.seen ++ later ∧ ∀ n ∈ later,
      c.dumped.length < n)
    (by
      rintro s m t ⟨hs, later, hl, hn⟩ hstep
      obtain ⟨hle, hseen | hseen⟩ := step_seen hstep
      · exact ⟨hs.trans_le hle, later, hseen.trans hl, hn⟩
      · refine ⟨hs.trans_le hle, later ++ [s.dumped.length], by rw [hseen, hl, List.append_assoc],
        fun n hm => ?_⟩
        rcases List.mem_append.1 hm with hm | hm
        · exact hn n hm
        · rw [List.mem_singleton.1 hm]; exact hs)
    ⟨hlt.1, [], by rw [hlt.2, List.append_nil], fun n hm => by cases hm⟩ h₁
  exact ⟨later, hl, hbefore, hn⟩

/-- The dump without any other move in between. -/
theorem dump_alone {c : Cluster σ} (hd : c.dumped = []) (hr : c.registered = false) (n : Nat)
    (hn : n ≤ c.node.sys.world.store.shards.length) :
    Lts.run (Cluster.step cfg E D) c (List.replicate n .dump) =
      some { c with dumped := (c.node.sys.world.store.shards.take n).map fun sh =>
                    (sh.dumpArgs D).flatMap encodeArgs } := by
  induction n with
  | zero => rw [List.take_zero, List.map_nil, ← hd]; rfl
  | succ n ih =>
    have hlt : n < c.node.sys.world.store.shards.length := hn
    rw [List.replicate_succ', Lts.run_append, ih hlt.le]
    simp only [Option.bind_some, Lts.run, Cluster.step, hr, Bool.false_eq_true, if_false,
      List.length_map, List.length_take, Nat.min_eq_left hlt.le, List.getElem?_eq_getElem hlt,
      Option.map_some]
    rw [List.take_succ_eq_append_getElem hlt, List.map_append]
    rfl

/-- **A handshake alone.** With no other move in between, the replica is sent the
snapshot of the store. -/
theorem sync_alone {c : Cluster σ} (hd : c.dumped = []) (hr : c.registered = false) :
    ∃ c', Lts.run (Cluster.step cfg E D) c
        (List.replicate c.node.sys.world.store.shards.length .dump ++ [.register]) = some c' ∧
      c'.node =
        { c.node with replicas := c.node.replicas ++ [c.node.sys.world.store.dumpCommands D] } := by
  rw [Lts.run_append, dump_alone hd hr _ le_rfl]
  simp only [Option.bind_some, Lts.run, Cluster.step, hr, List.take_length, List.length_map,
    bne_self_eq_false, Bool.or_false, Bool.false_eq_true, if_false]
  refine ⟨_, rfl, ?_⟩
  rw [Store.dumpCommands, Store.dumpArgs, List.flatMap_assoc, List.flatMap_def]

/-! ## The stream -/

/-- The writes that count as sent. -/
def sentJobs (c : Cluster σ) : List Job := c.jobs.filter fun j => j.stage == .sent

/-- What the replica that registers as number `m` has been sent: nothing before its
registration, and then the snapshot followed by the writes that count as sent. -/
def Feeds (m : Nat) (c : Cluster σ) : Prop :=
  if c.registered then
    ∃ sent : List Job, sent.Perm (sentJobs c) ∧
      c.node.replicas[m]? = some (c.dumped.flatten ++ encodeAll (sent.map Job.argv))
  else c.node.replicas.length = m ∧ sentJobs c = []

theorem sentJobs_split {c : Cluster σ} {pre post : List Job} {j : Job}
    (h : c.jobs = pre ++ j :: post) :
    sentJobs c = (pre.filter fun j => j.stage == .sent) ++
      (if j.stage = .sent then j :: post.filter (fun j => j.stage == .sent)
        else post.filter fun j => j.stage == .sent) := by
  rw [sentJobs, h, List.filter_append, List.filter_cons]
  simp only [beq_iff_eq]

theorem Job.busy_iff (j : Job) : j.busy = true ↔ j.stage ≠ .sent ∧ j.stage ≠ .skipped := by
  simp [Job.busy]

/-- Only a propagation sends anything. -/
theorem work_stream (c : Cluster σ) {j : Job} (h : j.stage ≠ .propagate) (hs : j.stage ≠ .sent) :
    (work c j).1.replicas = c.node.replicas ∧ (work c j).2 ≠ .sent := by
  unfold work
  cases hj : j.stage with
  | test => exact ⟨rfl, by dsimp only; split <;> decide⟩
  | check => exact ⟨rfl, by dsimp only; split <;> decide⟩
  | propagate => exact absurd hj h
  | sent => exact absurd hj hs
  | append => exact ⟨rfl, nofun⟩
  | skipped => exact ⟨rfl, nofun⟩

/-- A write goes on. -/
theorem advance_feeds {m : Nat} {c : Cluster σ} {i : Nat} {pre post : List Job} {j : Job}
    (h : Feeds m c) (hcur : current c i = some (pre, j, post)) :
    Feeds m { c with node := (work c j).1,
                     jobs := pre ++ { j with stage := (work c j).2 } :: post } := by
  obtain ⟨hjobs, hp⟩ := Lts.splitFirst_eq hcur
  have hbusy := j.busy_iff.1 (Bool.and_eq_true_iff.1 hp).2
  have hold := sentJobs_split hjobs
  rw [if_neg hbusy.1] at hold
  have hnew :=
    sentJobs_split
      (c := { c with node := (work c j).1,
                     jobs := pre ++ { j with stage := (work c j).2 } :: post }) rfl
  by_cases hprop : j.stage = .propagate
  · have hwork : work c j = (c.node.propagate j.argv.encode, if c.registered then .sent
        else .skipped) := by
      simp only [work, hprop]
    rw [hwork] at hnew ⊢
    cases hreg : c.registered with
    | true =>
      simp only [Feeds, hreg, if_true] at h hnew ⊢
      obtain ⟨sent, hperm, hfeed⟩ := h
      refine ⟨sent ++ [{ j with stage := .sent }], ?_, ?_⟩
      · rw [hnew]
        rw [hold] at hperm
        refine (hperm.append_right _).trans ?_
        rw [List.append_assoc]
        exact (List.perm_append_singleton ..).append_left _
      · simp [Node.propagate, hfeed, encodeAll]
    | false =>
      simp only [Feeds, hreg, Bool.false_eq_true, if_false] at h hnew ⊢
      rw [hnew]
      exact ⟨by simpa [Node.propagate] using h.1, hold ▸ h.2⟩
  · obtain ⟨hrep, hns⟩ := work_stream c hprop hbusy.1
    rw [if_neg hns, ← hold] at hnew
    simp only [Feeds, hnew, hrep]
    exact h

/-- A move keeps the record of the stream. -/
theorem feed_inv {m : Nat} {c c' : Cluster σ} {mv : Move} (h : Feeds m c)
    (hstep : c.step cfg E D mv = some c') : Feeds m c' := by
  cases mv with
  | apply i st a =>
    simp only [Cluster.step] at hstep
    split at hstep
    · cases hstep
    · rw [← Option.some.inj hstep]
      have hsent : sentJobs (c.apply cfg E i st a) = sentJobs c := by
        simp only [sentJobs, Cluster.apply]
        split
        · rw [List.filter_append]; simp
        · rfl
      simp only [Feeds, hsent]
      exact h
  | advance i =>
    obtain ⟨⟨pre, j, post⟩, hcur, rfl⟩ := Option.map_eq_some_iff.1 hstep
    exact advance_feeds h hcur
  | dump =>
    simp only [Cluster.step] at hstep
    split at hstep
    · cases hstep
    · rename_i hr
      obtain ⟨sh, -, rfl⟩ := Option.map_eq_some_iff.1 hstep
      simp only [Feeds, hr] at h ⊢
      exact h
  | register =>
    simp only [Cluster.step] at hstep
    split at hstep
    · cases hstep
    · rename_i hr
      rw [← Option.some.inj hstep]
      simp only [Bool.or_eq_true, not_or, Bool.not_eq_true] at hr
      simp only [Feeds, hr.1] at h
      obtain ⟨hm, hs⟩ := h
      refine ⟨[], ?_, ?_⟩
      · exact (show sentJobs _ = [] from hs) ▸ List.Perm.refl []
      · simp [← hm, encodeAll]

/-! ## Losing a write -/

/-- What the write tests for is there; it is propagated after the registration. -/
def passes (c : Cluster σ) (j : Job) : Bool :=
  match j.stage with
  | .test => c.node.aof.isSome || hasReplicas c.node
  | .check => hasReplicas c.node
  | .propagate => c.registered
  | _ => true

/-- A write that is too late for the snapshot passes. -/
def Careful (c : Cluster σ) : Move → Prop
  | .advance i => ∀ r ∈ current c i, c.contains r.2.1 = false → passes c r.2.1 = true
  | _ => True

instance (c : Cluster σ) : ∀ m : Move, Decidable (Careful c m)
  | .advance i =>
    inferInstanceAs
      (Decidable (∀ r ∈ current c i, c.contains r.2.1 = false → passes c r.2.1 = true))
  | .apply .. | .dump | .register => isTrue trivial

/-- No write that is too late for the snapshot is done without being sent. -/
def NoneLost (c : Cluster σ) : Prop := ∀ j ∈ c.jobs, c.contains j = true ∨ j.stage ≠ .skipped

theorem work_skips (c : Cluster σ) {j : Job} (h : j.stage ≠ .skipped) :
    (work c j).2 ≠ .skipped ↔ passes c j = true := by
  unfold work passes
  cases hj : j.stage with
  | skipped => exact absurd hj h
  | append => simp
  | sent => simp
  | _ => simp only; split <;> simp_all

theorem noneLost_step {c c' : Cluster σ} {m : Move} (h : c.step cfg E D m = some c') :
    NoneLost c' ↔ NoneLost c ∧ Careful c m := by
  have hidx := step_index h
  simp only [NoneLost, contains_congr hidx]
  cases m with
  | apply i st a =>
    simp only [Cluster.step] at h
    split at h
    · cases h
    · rw [← Option.some.inj h]
      simp only [Careful, and_true, Cluster.apply]
      split
      · simp [or_imp, forall_and]
      · rfl
  | advance i =>
    obtain ⟨⟨pre, j, post⟩, hcur, rfl⟩ := Option.map_eq_some_iff.1 h
    obtain ⟨hjobs, hp⟩ := Lts.splitFirst_eq hcur
    have hbusy := j.busy_iff.1 (Bool.and_eq_true_iff.1 hp).2
    have hcont : c.contains { j with stage := (work c j).2 } = c.contains j := rfl
    have hcare : Careful c (.advance i) ↔ (c.contains j = true ∨ (work c j).2 ≠ .skipped) := by
      rw [work_skips c hbusy.2]
      simp only [Careful, hcur, Option.mem_some_iff, forall_eq', ← Bool.not_eq_true,
        Classical.or_iff_not_imp_left]
    simp only [hjobs, hcare, List.mem_append, List.mem_cons, or_imp, forall_and, forall_eq, hcont,
      hbusy.2, ne_eq, not_false_eq_true, or_true, true_and]
    tauto
  | dump =>
    simp only [Cluster.step] at h
    split at h
    · cases h
    · obtain ⟨sh, -, rfl⟩ := Option.map_eq_some_iff.1 h
      simp [Careful]
  | register =>
    simp only [Cluster.step] at h
    split at h
    · cases h
    · rw [← Option.some.inj h]
      simp [Careful]

/-- **No write is lost in the handshake**, provided it is careful. A replica connects
to a server at work; once it is registered and every write is done, it has been sent
the snapshot and then the writes that count as sent, and each write is contained in the
snapshot or sent, if and only if the run is careful. -/
theorem no_write_lost {c c' : Cluster σ} (hr : c.registered = false) (hj : c.jobs = [])
    (moves : List Move) (hrun : Lts.run (Cluster.step cfg E D) c moves = some c')
    (hreg : c'.registered = true) (hdone : ∀ j ∈ c'.jobs, j.busy = false) :
    ∃ sent : List Job, sent.Perm (sentJobs c') ∧
      c'.node.replicas[c.node.replicas.length]? =
        some (c'.dumped.flatten ++ encodeAll (sent.map Job.argv)) ∧
      ((∀ j ∈ c'.jobs, c'.contains j = true ∨ j ∈ sent) ↔
        Lts.Along (Cluster.step cfg E D) Careful c moves) := by
  have hfeeds : Feeds c.node.replicas.length c' := by
    refine Lts.run_keeps (I := Feeds c.node.replicas.length)
      (fun _ _ _ h hs => feed_inv h hs) ?_ hrun
    simp [Feeds, hr, sentJobs, hj]
  simp only [Feeds, hreg, if_true] at hfeeds
  obtain ⟨sent, hperm, hfeed⟩ := hfeeds
  refine ⟨sent, hperm, hfeed, ?_⟩
  have hlost := Lts.run_iff (I := NoneLost) (fun _ _ _ h => noneLost_step h) hrun
  have hstart : NoneLost c := fun j hm => by rw [hj] at hm; cases hm
  rw [← (and_iff_right hstart : _ ∧ Lts.Along (Cluster.step cfg E D) Careful c moves ↔ _), ← hlost]
  refine forall₂_congr fun j hm => or_congr_right ?_
  have hmem : j ∈ sent ↔ j.stage = .sent := by
    rw [hperm.mem_iff, sentJobs, List.mem_filter]
    simp [hm]
  have hnb : ¬ (j.stage ≠ .sent ∧ j.stage ≠ .skipped) := by rw [← j.busy_iff, hdone j hm]; simp
  rw [hmem]
  constructor
  · intro h; rw [h]; decide
  · intro h; by_contra hne; exact hnb ⟨hne, h⟩

end

/-! ## A write in between -/

/-- A server without an append-only file and without replicas, after these moves. -/
def handshakeAfter (moves : List Move) : Option (Cluster Int) :=
  Lts.run (Cluster.step { loggingConfig with appendonly := false } (fun _ => Env.plain 0)
    (Env.plain 0))
    { node := bootstrap { loggingConfig with appendonly := false } (fun _ => 0) (fun _ _ _ =>
      0) (fun _ => Env.plain 0)
        ⟨none, none⟩
      dumped := [], registered := false, jobs := [] } moves

/-- A write between the dump and the registration. -/
def lateWrite : Move := .apply 1 (ConnState.new 1 true) (lit "SET", [lit "k", lit "v"])

/-- Registered in time, the replica is sent the write. -/
def inTime : Cluster Int :=
  (handshakeAfter [.dump, lateWrite, .register, .advance 1, .advance 1, .advance 1, .advance 1]).get
    (by decide +kernel)

theorem late_write_sent :
    ∃ sent : List Job, sent.Perm (sentJobs inTime) ∧
      inTime.node.replicas[0]? = some (inTime.dumped.flatten ++ encodeAll (sent.map Job.argv)) ∧
      ∀ j ∈ inTime.jobs, inTime.contains j = true ∨ j ∈ sent := by
  have hrun :
      handshakeAfter [.dump, lateWrite, .register, .advance 1, .advance 1, .advance 1, .advance 1] =
        some inTime :=
    (Option.some_get _).symm
  obtain ⟨sent, h1, h2, h3⟩ :=
    no_write_lost (by rfl) (by rfl) _ hrun (by decide +kernel) (by decide +kernel)
  exact ⟨sent, h1, h2, h3.2 (by decide +kernel)⟩

/-- Tested before the registration, the write is lost: the replica has been sent nothing
at all, and the primary has the key. -/
theorem late_write_lost :
    ∃ c, handshakeAfter [.dump, lateWrite, .advance 1, .register] = some c ∧ c.registered = true ∧
      (∀ j ∈ c.jobs, j.busy = false ∧ c.contains j = false) ∧ c.node.replicas = [[]] ∧
      (c.node.sys.world.store.raw (lit "k")).isSome = true :=
  ⟨(handshakeAfter [.dump, lateWrite, .advance 1, .register]).get (by decide +kernel),
    (Option.some_get _).symm, by decide +kernel⟩

end Inmem.L5
