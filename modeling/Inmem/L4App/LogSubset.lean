import Inmem.L4App.Effects
import Inmem.L4App.Persistence

/-!
# The logged commands are enough

The connection loop logs a command only if it was flagged as a write. Of a whole
run it is enough to execute those: started at the tick they had in the run, each
is flagged again and the keyspace ends up the same.

* `run_alike`: a write does the same to keyspaces that look the same once the readings
  before it are over;
* `logged_suffices`: the run and the replay of what it logged, on stores with their own
  shards and hashers, end in the same live keyspace.
-/
namespace Inmem.L4

open Inmem.Core Inmem.L1 Inmem.L1.Resp Inmem.L3

variable {σ : Type} [Score σ]

/-- Serve commands one after the other; the logged ones, with the tick they started
at, and the state. -/
def serveAll (cfg : Config) (E : Surroundings) :
    List (ConnState × Argv) → Sys σ → List (Nat × Argv) × Sys σ
  | [], s => ([], s)
  | (st, a) :: rest, s =>
    let r := s.exec E (serveCmd cfg st a.1 a.2)
    let q := serveAll cfg E rest r.2
    (if r.1.write then (s.tick, a) :: q.1 else q.1, q.2)

/-- Dispatch logged commands, each at its tick, as `replay_file` does: whether each
was flagged, and the store. -/
def replayAll (cfg : Config) (E : Surroundings) :
    ConnState → List (Nat × Argv) → World σ → List Bool × World σ
  | _, [], w => ([], w)
  | st, (i, a) :: rest, w =>
    let r := (⟨w, i⟩ : Sys σ).exec E (dispatch cfg st a.1 a.2)
    let q := replayAll cfg E r.1.2 rest r.2.world
    (r.1.1.persist :: q.1, q.2)

theorem serveAll_good (cfg : Config) (E : Surroundings) (cmds : List (ConnState × Argv)) :
    ∀ {s : Sys σ}, s.world.store.Good → (serveAll cfg E cmds s).2.world.store.Good := by
  induction cmds with
  | nil => exact fun h => h
  | cons c cmds ih => exact fun h => ih (exec_keeps_good E _ h)

/-! ## One write on two keyspaces -/

/-- The keyspaces look the same to whoever looks no earlier than the first `n` readings. -/
def SameFrom (clock : Nat → Nat) (n : Nat) (v v' : View σ) : Prop :=
  ∀ u, (∀ i < n, clock i ≤ u) → v.at u = v'.at u

omit [Score σ] in
theorem SameFrom.mono {clock : Nat → Nat} {n m : Nat} (hnm : n ≤ m) {v v' : View σ}
    (h : SameFrom clock n v v') : SameFrom clock m v v' :=
  fun u hu => h u fun i hi => hu i (hi.trans_le hnm)

/-- A write does the same to keyspaces that look the same. -/
theorem run_alike {clock : Nat → Nat} (hmono : Monotone clock) (w : Write σ) {v v' : View σ}
    {n : Nat} (h : SameFrom clock n v v') :
    (w.run clock v n).1 = (w.run clock v' n).1 ∧ (w.run clock v n).2.2 = (w.run clock v' n).2.2 ∧
      SameFrom clock (w.run clock v n).2.2 (w.run clock v n).2.1 (w.run clock v' n).2.1 := by
  refine Prog.run_sim (viewCall clock) (viewCall clock)
    (fun s t => s.2 = t.2 ∧ SameFrom clock s.2 s.1 t.1) ?_ w.det
    (s := (v, n)) (t := (v', n)) ⟨rfl, h⟩
  rintro c ⟨x, i⟩ ⟨y, j⟩ - ⟨he, hxy⟩
  obtain rfl : i = j := he
  -- the call reads the clock no earlier than the calls before it
  obtain ⟨h1, h2⟩ := c.spec_congr (hxy (clock i) fun m hm => hmono hm.le)
  exact ⟨h1, rfl, fun u hu => View.at_mono (hu i (Nat.lt_succ_self i)) h2⟩

/-! ## The run and its replay -/

/-- The store looks like the replayed one. -/
structure Mirrors (E : Surroundings) (s : Sys σ) (w : World σ) : Prop where
  good : s.world.store.Good
  good' : w.store.Good
  same : SameFrom E.clock s.tick s.world.store.raw w.store.raw

variable {E E' : Surroundings}

/-- A command that is not logged leaves the store looking as it did; a logged one is
flagged again when it is dispatched at its tick, and the stores look alike again. -/
theorem mirrors_step (hmono : Monotone E.clock) (hclock : E'.clock = E.clock) (cfg cfg' : Config)
    (st st' : ConnState) (a : Argv) {s : Sys σ} {w : World σ} (h : Mirrors E s w) :
    let r := s.exec E (serveCmd cfg st a.1 a.2)
    let r' := (⟨w, s.tick⟩ : Sys σ).exec E' (dispatch cfg' st' a.1 a.2)
    (r.1.write = false → Mirrors E r.2 w) ∧
      (r.1.write = true → r'.1.1.persist = true ∧ Mirrors E r.2 r'.2.world) := by
  intro r r'
  obtain ⟨hg, ht, hcase⟩ := serve_cases cfg st a.1 a.2 E h.good
  rcases hcase with ⟨hf, hsame⟩ | ⟨hf, x, hx, hrun⟩
  · refine ⟨fun _ => ⟨hg, h.good', ?_⟩, fun hf' => absurd (hf.symm.trans hf') (by simp)⟩
    exact fun u hu => (hsame u hu).trans (h.same.mono ht u hu)
  refine ⟨fun hf' => absurd (hf.symm.trans hf') (by simp), fun _ => ?_⟩
  rcases served_dispatched (σ := σ) a.1 a.2 with hd | ⟨k, v, hm, hd⟩
  · obtain ⟨hg', hrun'⟩ := dispatch_write cfg' st' (hd ▸ hx) E' (s := ⟨w, s.tick⟩) h.good'
    rw [hclock] at hrun'
    obtain ⟨h1, -, h3⟩ := run_alike hmono x h.same
    rw [hrun, hrun'] at h1 h3
    exact ⟨h1.symm, hg, hg', h3⟩
  · -- a plain `SET` on the fast path, which does not read the clock first
    obtain rfl : x = .mset [(k, v)] := Option.some.inj (hx.symm.trans hm)
    obtain ⟨hg', hrun'⟩ := dispatch_write cfg' st' hd E' (s := ⟨w, s.tick⟩) h.good'
    rw [Write.mset_run] at hrun
    rw [Write.set_run_nil] at hrun'
    simp only [Prod.mk.injEq] at hrun hrun'
    refine ⟨hrun'.1.symm, hg, hg', fun u hu => ?_⟩
    rw [← hrun.2.1, ← hrun'.2.1]
    show (s.world.store.raw.put k _).at u = (w.store.raw.put k _).at u
    rw [View.put_at, View.put_at, h.same.mono ht u hu]

/-- A whole run. -/
theorem mirrors_run (hmono : Monotone E.clock) (hclock : E'.clock = E.clock) (cfg cfg' : Config)
    (cmds : List (ConnState × Argv)) :
    ∀ (s : Sys σ) (w : World σ) (st : ConnState), Mirrors E s w →
      (∀ b ∈ (replayAll cfg' E' st (serveAll cfg E cmds s).1 w).1, b = true) ∧
        Mirrors E (serveAll cfg E cmds s).2
          (replayAll cfg' E' st (serveAll cfg E cmds s).1 w).2 := by
  induction cmds with
  | nil => exact fun s w st h => ⟨nofun, h⟩
  | cons c cmds ih =>
    intro s w st h
    obtain ⟨hquiet, hlogged⟩ := mirrors_step hmono hclock cfg cfg' c.1 st c.2 h
    unfold serveAll
    dsimp only
    by_cases hw : (s.exec E (serveCmd cfg c.1 c.2.1 c.2.2)).1.write = true
    · obtain ⟨h1, h2⟩ := hlogged hw
      rw [if_pos hw]
      obtain ⟨h3, h4⟩ := ih _ _ _ h2
      exact ⟨List.forall_mem_cons.2 ⟨h1, h3⟩, h4⟩
    · rw [if_neg hw]
      exact ih _ _ _ (hquiet (Bool.eq_false_iff.2 hw))

/-- **The logged commands are enough.** A run of commands on an empty unbounded
store, with clock readings that do not decrease: dispatching only the logged ones,
each at the readings it had in the run, on another empty store flags every one of
them again and ends in the keyspace of the run, deadlines included, as seen at any
time no reading of the run is after. -/
theorem logged_suffices (cfg cfg' : Config) (shards shards' : Nat) (router router' : Bytes → UInt64)
    (hasher hasher' : Nat → Nat → Bytes → UInt64) (file file' : Option Bytes) (E E' : Surroundings)
    (hmono : Monotone E.clock) (hclock : E'.clock = E.clock) (start : Nat)
    (cmds : List (ConnState × Argv)) (st : ConnState) :
    let full := serveAll cfg E cmds (⟨⟨Store.new shards 0 router hasher, file⟩, start⟩ : Sys σ)
    let again := replayAll cfg' E' st full.1 ⟨Store.new shards' 0 router' hasher', file'⟩
    (∀ b ∈ again.1, b = true) ∧
      ∀ u, (∀ i < full.2.tick, E.clock i ≤ u) →
      again.2.store.raw.at u = full.2.world.store.raw.at u := by
  intro full again
  have hstart : Mirrors E (⟨⟨Store.new shards 0 router hasher, file⟩, start⟩ : Sys σ)
      ⟨Store.new shards' 0 router' hasher', file'⟩ :=
    ⟨new_good .., new_good .., fun u _ => by rw [new_raw, new_raw]⟩
  obtain ⟨h1, h2⟩ := mirrors_run hmono hclock cfg cfg' cmds _ _ st hstart
  exact ⟨h1, fun u hu => (h2.same u hu).symm⟩

/-- Five commands, of which the `SETNX` and the `GET` change nothing. -/
def fiveCommands : List (ConnState × Argv) :=
  [(ConnState.internal, lit "set", [lit "k", lit "1"]),
    (ConnState.internal, lit "setnx", [lit "k", lit "2"]),
    (ConnState.internal, lit "get", [lit "k"]),
    (ConnState.internal, lit "pexpire", [lit "k", lit "10"]),
    (ConnState.internal, lit "incr", [lit "k"])]

/-- The other three are flagged again and leave the keyspace of the run. -/
theorem logged_suffices_three :
    let full := serveAll loggingConfig (fun i => Env.plain i) fiveCommands
      (⟨⟨Store.new 1 0 (fun _ => 0) (fun _ _ _ => 0), none⟩, 0⟩ : Sys Int)
    let again := replayAll loggingConfig (fun i => Env.plain i) ConnState.internal full.1
      ⟨Store.new 1 0 (fun _ => 0) (fun _ _ _ => 0), none⟩
    again.1 = [true, true, true] ∧ again.2.store.raw.at 7 = full.2.world.store.raw.at 7 := by
  refine ⟨by decide +kernel, ?_⟩
  refine (logged_suffices loggingConfig loggingConfig 1 1 (fun _ => 0) (fun _ => 0) (fun _ _ _ => 0)
    (fun _ _ _ => 0)
    none none (fun i => Env.plain i) (fun i => Env.plain i)
      (fun _ _ h => h) rfl 0 fiveCommands ConnState.internal).2 7 ?_
  decide +kernel

end Inmem.L4
