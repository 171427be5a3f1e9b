import Inmem.L4App.Writes

/-!
# The effect of a command on the keyspace

`Write.run` is a write on the abstract keyspace, each call with its own clock
reading.

* `exec_write`: on the store, a command that writes does what `Write.run` does;
* `exec_quiet`: any other command leaves every key as it is, up to dropping
  what has expired by the readings it takes;
* `Runs.announces`: a command to which the store answered that something changed
  is logged, so that `Write.run_unlogged`: what is not logged changes nothing.
-/
namespace Inmem.L4

open Inmem.Core Inmem.L1 Inmem.L1.Resp Inmem.L3

section
variable {σ : Type}

/-! ## Writes only make calls that the keyspace answers -/

theorem setPairs_det (pairs : List (Bytes × Bytes)) :
    (setPairs pairs : Cmd σ Unit).All Call.Det fun _ => True := by
  induction pairs with
  | nil => trivial
  | cons p pairs ih => exact ⟨trivial, fun _ => ih⟩

theorem countDel_det (ks : List Bytes) :
    (countKeys .del id ks : Cmd σ Nat).All Call.Det fun _ => True := by
  induction ks with
  | nil => trivial
  | cons k ks ih => exact ⟨trivial, fun _ => ih.bind fun _ _ => trivial⟩

theorem setTail_det (k v : Bytes) (opts : SetOptions) (get : Bool) :
    (Write.setTail k v opts get : Cmd σ Bool).All Call.Det fun _ => True := by
  cases get with
  | false => exact ⟨trivial, fun _ => trivial⟩
  | true =>
    exact ⟨trivial, fun old => by cases old <;> first | trivial | exact ⟨trivial, fun _ => trivial⟩⟩

theorem expireTail_det (k : Bytes) (n : Int) (unit : Nat) (absolute : Bool) (flag : Option Bytes) :
    (Write.expireTail k n unit absolute flag : Cmd σ Bool).All Call.Det fun _ => True := by
  refine ⟨trivial, fun now => ?_⟩
  cases flag with
  | none => exact ⟨trivial, fun _ => trivial⟩
  | some flag =>
    exact ⟨trivial, fun cur => Prog.All.ite ⟨trivial, fun _ => trivial⟩ trivial⟩

theorem Write.det (w : Write σ) : w.prog.All Call.Det fun _ => True := by
  cases w with
  | flush => exact ⟨trivial, fun _ => trivial⟩
  | set k v words =>
    refine ⟨trivial, fun now => ?_⟩
    dsimp only [Prog.bind]
    split
    · trivial
    · exact setTail_det ..
  | setex => exact ⟨trivial, fun _ => ⟨trivial, fun _ => trivial⟩⟩
  | getset k v =>
    exact ⟨trivial, fun old => by cases old <;> first | trivial | exact ⟨trivial, fun _ => trivial⟩⟩
  | mset pairs => exact (setPairs_det pairs).bind fun _ _ => trivial
  | del ks => exact (countDel_det ks).bind fun _ _ => trivial
  | one k op h => exact ⟨det_of_modifies k h, fun _ => trivial⟩
  | expire k n unit absolute flag =>
    exact ⟨trivial, fun live => by cases live <;> first | trivial | exact expireTail_det ..⟩
  | persist k =>
    exact ⟨trivial, fun cur => by cases cur <;> first | trivial | exact ⟨trivial, fun _ => trivial⟩⟩

/-! ## Writes announce what they change -/

theorem countDel_announces (ks : List Bytes) :
    (countKeys .del id ks : Cmd σ Nat).Announces Call.changed fun n => 0 < n := by
  induction ks with
  | nil => trivial
  | cons k ks ih =>
    refine fun did => ⟨fun h => ?_, (Prog.announces_map _).2 (ih.mono fun n hn => ?_)⟩
    · have h : did = true := h
      refine (Prog.all_map _).2 ((Prog.all_trivial _).mono (fun _ _ => trivial) fun n _ => ?_)
      simp only [id_eq, h, if_true, decide_eq_true_eq]
      omega
    · simp only [decide_eq_true_eq] at hn ⊢
      omega

theorem setTail_announces (k v : Bytes) (opts : SetOptions) (get : Bool) :
    (Write.setTail k v opts get : Cmd σ Bool).Announces Call.changed id := by
  cases get with
  | false => exact fun did => ⟨fun h => h, trivial⟩
  | true =>
    refine fun old => ⟨nofun, ?_⟩
    cases old with
    | ok _ => exact fun did => ⟨fun h => h, trivial⟩
    | error _ => trivial

theorem expireTail_announces (k : Bytes) (n : Int) (unit : Nat) (absolute : Bool)
    (flag : Option Bytes) :
    (Write.expireTail k n unit absolute flag : Cmd σ Bool).Announces Call.changed id := by
  refine fun now => ⟨nofun, ?_⟩
  cases flag with
  | none => exact fun _ => ⟨fun _ => rfl, trivial⟩
  | some flag =>
    exact fun cur => ⟨nofun, Prog.Announces.ite (fun _ => ⟨fun _ => rfl, trivial⟩) trivial⟩

/-- Once the store has answered that it changed something, the write is logged. -/
theorem Write.announces (w : Write σ) : w.prog.Announces Call.changed id := by
  cases w with
  | flush => exact fun _ => ⟨fun _ => rfl, trivial⟩
  | set k v words =>
    refine fun now => ⟨nofun, ?_⟩
    dsimp only [Prog.bind]
    split
    · trivial
    · exact setTail_announces ..
  | setex => exact fun _ => ⟨nofun, fun _ => ⟨fun _ => rfl, trivial⟩⟩
  | getset k v =>
    refine fun old => ⟨nofun, ?_⟩
    cases old with
    | ok _ => exact fun _ => ⟨fun _ => rfl, trivial⟩
    | error _ => trivial
  | mset pairs =>
    exact Prog.All.announces_of_flag ((setPairs pairs).all_trivial.bind fun _ _ => rfl)
  | del ks => exact (Prog.announces_map _).2 (countDel_announces ks)
  | one k op hm => exact fun res => ⟨fun h => (changed_of_modifies hm res).symm.trans h, trivial⟩
  | expire k n unit absolute flag =>
    refine fun live => ⟨nofun, ?_⟩
    cases live with
    | false => trivial
    | true => exact expireTail_announces k n unit absolute flag
  | persist k =>
    refine fun cur => ⟨nofun, ?_⟩
    cases cur with
    | millis _ => exact fun _ => ⟨fun _ => rfl, trivial⟩
    | _ => trivial

/-- So is the command that runs it; a command without a write changes nothing. -/
theorem Runs.announces {α : Type} {p : Cmd σ α} {flag : α → Bool} {w : Option (Write σ)}
    (h : Runs p flag w) : p.Announces Call.changed flag := by
  cases w with
  | none => exact Prog.All.announces h fun c r hc => changed_of_read hc r
  | some w =>
    have h : flagged p flag = w.prog := h
    exact (Prog.announces_map flag).1 (h ▸ w.announces)

end

section
variable {σ : Type} [Score σ]

/-- The readings of the surroundings. -/
def Surroundings.clock (E : Surroundings) (i : Nat) : Nat := (E i).now

/-- One call on the abstract keyspace, at the reading of its tick. -/
def viewCall (clock : Nat → Nat) (c : Call σ) (s : View σ × Nat) : c.Res × (View σ × Nat) :=
  let r := c.spec (clock s.2) s.1
  (r.1, r.2, s.2 + 1)

/-- A write on the abstract keyspace: whether it is logged, the keyspace and the
tick afterwards. -/
def Write.run (clock : Nat → Nat) (w : Write σ) (v : View σ) (i : Nat) : Bool × (View σ × Nat) :=
  w.prog.run (viewCall clock) (v, i)

/-! ## On the store -/

/-- The store follows the keyspace. -/
structure Follows (s : Sys σ) (v : View σ × Nat) : Prop where
  good : s.world.store.Good
  raw : s.world.store.raw = v.1
  tick : s.tick = v.2

theorem exec_keeps_good {α : Type} (E : Surroundings) (p : Cmd σ α) {s : Sys σ}
    (hg : s.world.store.Good) : (s.exec E p).2.world.store.Good :=
  (Prog.all_run (Sys.call E) (fun s => s.world.store.Good)
    (fun c _ _ h => exec_good _ c h) p.all_trivial hg).2

theorem det_snapshot (env : Env) {c : Call σ} (h : c.Det) (w : World σ) :
    (c.exec env w).2.snapshot = w.snapshot := by
  cases c <;> first | rfl | exact h.elim

theorem call_follows (E : Surroundings) (c : Call σ) (s : Sys σ) (v : View σ × Nat) (hc : c.Det)
    (h : Follows s v) :
    (s.call E c).1 = (viewCall E.clock c v).1 ∧
      Follows (s.call E c).2 (viewCall E.clock c v).2 := by
  obtain ⟨v, i⟩ := v
  obtain ⟨hg, rfl, rfl⟩ := h
  exact ⟨exec_det _ c hg hc, exec_good _ c hg, exec_raw _ c hg (by rintro rfl; exact hc), rfl⟩

/-- A command that writes does to the store what its write does to the keyspace. -/
theorem exec_write {α : Type} {p : Cmd σ α} {flag : α → Bool} {w : Write σ}
    (hp : Runs p flag (some w)) (E : Surroundings) {s : Sys σ} (hg : s.world.store.Good) :
    flag (s.exec E p).1 = (w.run E.clock s.world.store.raw s.tick).1 ∧
      Follows (s.exec E p).2 (w.run E.clock s.world.store.raw s.tick).2 ∧
      (s.exec E p).2.world.snapshot = s.world.snapshot := by
  have hp : flagged p flag = w.prog := hp
  have hrun : (w.prog.run (Sys.call E) s) = (flag (s.exec E p).1, (s.exec E p).2) := by
    rw [← hp, flagged, Prog.run_bind]; rfl
  have hsim :=
    Prog.run_sim (Sys.call E) (viewCall E.clock) Follows
      (fun c s v hc h => call_follows E c s v hc h)
    w.det (s := s) (t := (s.world.store.raw, s.tick)) ⟨hg, rfl, rfl⟩
  have hsnap := Prog.all_run (Sys.call E) (fun s' => s'.world.snapshot = s.world.snapshot)
    (fun c s' hc h => (det_snapshot _ hc _).trans h) w.det (s := s) rfl
  rw [hrun] at hsim hsnap
  exact ⟨hsim.1, hsim.2, hsnap.2⟩

/-! ## Commands that only read -/

/-- A command that only reads is not logged and leaves the keyspace as it is. -/
theorem exec_quiet {α : Type} {p : Cmd σ α} {flag : α → Bool} (hp : Runs p flag none)
    (E : Surroundings) {s : Sys σ} (hg : s.world.store.Good) :
    flag (s.exec E p).1 = false ∧ s.tick ≤ (s.exec E p).2.tick ∧ (s.exec E p).2.world.store.Good ∧
      ∀ u, (∀ i < (s.exec E p).2.tick, E.clock i ≤ u) →
        (s.exec E p).2.world.store.raw.at u = s.world.store.raw.at u := by
  refine Prog.all_run (Sys.call E) (fun s' => s.tick ≤ s'.tick ∧ s'.world.store.Good ∧
    ∀ u, (∀ i < s'.tick, E.clock i ≤ u) → s'.world.store.raw.at u = s.world.store.raw.at u) ?_ hp
    ⟨le_rfl, hg, fun _ _ => rfl⟩
  rintro c s' hc ⟨ht, hg', hs⟩
  refine ⟨Nat.le_succ_of_le ht, exec_good _ c hg', fun u hu => ?_⟩
  have hu' : ∀ i < s'.tick, E.clock i ≤ u := fun i hi => hu i (Nat.lt_succ_of_lt hi)
  have hnow : (E s'.tick).now ≤ u := hu s'.tick (Nat.lt_succ_self _)
  show (c.exec (E s'.tick) s'.world).2.store.raw.at u = _
  rw [exec_raw _ c hg' (by rintro rfl; cases hc), read_at hc hnow, hs u hu']

/-! ## Running a write, call by call -/

theorem run_key {α : Type} (clock : Nat → Nat) (k : Bytes) (op : KeyOp σ) (f : op.Res → Cmd σ α)
    (v : View σ) (i : Nat) :
    (onKey k op >>= f).run (viewCall clock) (v, i) =
      (f (op.spec (clock i) (liveAt (clock i) (v k))).1).run (viewCall clock)
        (v.put k (op.spec (clock i) (liveAt (clock i) (v k))).2, i + 1) := rfl

theorem run_now {α : Type} (clock : Nat → Nat) (f : Nat → Cmd σ α) (v : View σ) (i : Nat) :
    (ask .nowMs >>= f).run (viewCall clock) (v, i) =
      (f (clock i)).run (viewCall clock) (v, i + 1) := rfl

/-- A plain `SET` overwrites whatever is there. -/
theorem set_plain (t : Nat) (x : Bytes) (r : Option (Rec σ)) :
    (KeyOp.set x {} : KeyOp σ).spec t r = (true, some ⟨.str x, none⟩) := by
  cases r <;> rfl

/-- Store strings without a deadline. -/
def putStrs (pairs : List (Bytes × Bytes)) (v : View σ) : View σ :=
  pairs.foldl (fun v p => v.put p.1 (some ⟨.str p.2, none⟩)) v

theorem setPairs_run (clock : Nat → Nat) (pairs : List (Bytes × Bytes)) : ∀ (v : View σ) (i : Nat),
    (setPairs pairs).run (viewCall clock) (v, i) = ((), putStrs pairs v, i + pairs.length) := by
  induction pairs with
  | nil => intro v i; rfl
  | cons p pairs ih =>
    intro v i
    rw [setPairs, run_key, set_plain, ih]
    simp [putStrs, Nat.add_comm, Nat.add_left_comm]

theorem setKey_run (clock : Nat → Nat) (k x : Bytes) (opts : SetOptions) (v : View σ) (i : Nat) :
    (onKey k (.set x opts) : Cmd σ Bool).run (viewCall clock) (v, i) =
      (opts.allows (liveAt (clock i) (v k)).isSome,
        v.put k (if opts.allows (liveAt (clock i) (v k)).isSome then
          some ⟨.str x, opts.deadline (liveAt (clock i) (v k))⟩
            else liveAt (clock i) (v k)), i + 1) := by
  show ((KeyOp.spec (clock i) (.set x opts) (liveAt (clock i) (v k))).1,
    v.put k (KeyOp.spec (clock i) (.set x opts) (liveAt (clock i) (v k))).2, i + 1) = _
  simp only [KeyOp.spec]
  split
  · rename_i h; rw [h]
  · rename_i h; rw [Bool.not_eq_true] at h; rw [h]

namespace Write

theorem set_run (clock : Nat → Nat) (k x : Bytes) (words : List Bytes) (v : View σ) (i : Nat) :
    (Write.set k x words : Write σ).run clock v i =
      match setOptions (clock i) words {} false with
      | .error _ => (false, v, i + 1)
      | .ok (opts, get) => (Write.setTail k x opts get).run (viewCall clock) (v, i + 1) := by
  rw [Write.run, Write.prog, run_now]
  cases setOptions (clock i) words {} false <;> rfl

/-- A plain `SET` through the dispatcher. -/
theorem set_run_nil (clock : Nat → Nat) (k x : Bytes) (v : View σ) (i : Nat) :
    (Write.set k x [] : Write σ).run clock v i = (true, v.put k (some ⟨.str x, none⟩), i + 2) := by
  rw [Write.set_run]
  show (onKey k (.set x {}) : Cmd σ Bool).run (viewCall clock) (v, i + 1) = _
  rw [setKey_run]
  cases liveAt (clock (i + 1)) (v k) <;> rfl

theorem mset_run (clock : Nat → Nat) (pairs : List (Bytes × Bytes)) (v : View σ) (i : Nat) :
    (Write.mset pairs : Write σ).run clock v i = (true, putStrs pairs v, i + pairs.length) := by
  rw [Write.run, Write.prog, Prog.run_bind, setPairs_run]; rfl

theorem one_run (clock : Nat → Nat) (k : Bytes) (op : KeyOp σ) (h : op.modifies = true) (v : View σ)
    (i : Nat) :
    (Write.one k op h).run clock v i =
      (op.dirty (op.spec (clock i) (liveAt (clock i) (v k))).1,
        v.put k (op.spec (clock i) (liveAt (clock i) (v k))).2, i + 1) := rfl

theorem expire_run (clock : Nat → Nat) (k : Bytes) (n : Int) (unit : Nat) (absolute : Bool)
    (flag : Option Bytes) (v : View σ) (i : Nat) :
    (Write.expire k n unit absolute flag : Write σ).run clock v i =
      if (liveAt (clock i) (v k)).isSome then
        (Write.expireTail k n unit absolute flag).run (viewCall clock)
          (v.put k (liveAt (clock i) (v k)), i + 1)
      else (false, v.put k (liveAt (clock i) (v k)), i + 1) := by
  rw [Write.run, Write.prog, run_key]
  exact Prog.run_ite _ _ _ _

theorem expireTail_run_plain (clock : Nat → Nat) (k : Bytes) (n : Int) (unit : Nat)
    (absolute : Bool) (v : View σ) (i : Nat) :
    (Write.expireTail k n unit absolute none).run (viewCall clock) (v, i) =
      (true, v.put k ((liveAt (clock (i + 1)) (v k)).map fun r =>
        { r with deadline := some (deadlineAfter (if absolute then 0 else clock i) n unit) }),
        i + 2) := rfl

theorem expireTail_run_flag (clock : Nat → Nat) (k : Bytes) (n : Int) (unit : Nat) (absolute : Bool)
    (flag : Bytes) (v : View σ) (i : Nat) :
    (Write.expireTail k n unit absolute (some flag)).run (viewCall clock) (v, i) =
      if expireAllowed flag (KeyOp.pttl.spec (clock (i + 1)) (liveAt (clock (i + 1)) (v k))).1
        (clock i)
          (deadlineAfter (if absolute then 0 else clock i) n unit) = some true then
        (true, v.put k ((liveAt (clock (i + 2)) (liveAt (clock (i + 1)) (v k))).map fun r =>
          { r with deadline := some (deadlineAfter (if absolute then 0 else clock i) n unit) }),
          i + 3)
      else (false, v.put k (liveAt (clock (i + 1)) (v k)), i + 2) := by
  rw [Write.expireTail, run_now, run_key]
  refine (Prog.run_ite _ _ _ _).trans (if_congr Iff.rfl ?_ rfl)
  rw [run_key, View.put_put, View.put_self]
  rfl

end Write

/-! ## Writes that are not logged -/

/-- A write that is not logged leaves the keyspace as it was. -/
theorem Write.run_unlogged {clock : Nat → Nat} (w : Write σ) {v : View σ} {i u : Nat}
    (hfull : ∀ k, RecFull (v k)) (h : (w.run clock v i).1 = false)
    (hu : ∀ n < (w.run clock v i).2.2, clock n ≤ u) : (w.run clock v i).2.1.at u = v.at u := by
  refine (Prog.announces_run (viewCall clock)
    (fun s => (∀ k, RecFull (s.1 k)) ∧ ∀ u, (∀ n < s.2, clock n ≤ u) → s.1.at u = v.at u)
    ?_ w.announces (s := (v, i)) ⟨hfull, fun _ _ => rfl⟩ h).2 u hu
  rintro c ⟨x, n⟩ hc ⟨hx, hsame⟩
  refine ⟨Call.spec_full c (clock n) hx, fun u hu => ?_⟩
  exact (unchanged_at (hu n (Nat.lt_succ_self n)) hx hc).trans
    (hsame u fun m hm => hu m (Nat.lt_succ_of_lt hm))

/-- A run only moves the clock on. -/
theorem Write.tick_le (clock : Nat → Nat) (w : Write σ) (v : View σ) (i : Nat) :
    i ≤ (w.run clock v i).2.2 :=
  (Prog.all_run (viewCall clock) (fun s => i ≤ s.2) (fun _ _ _ h => Nat.le_succ_of_le h) w.det
    (s := (v, i)) le_rfl).2

/-! ## The connection loop -/

/-- What the connection loop does for a command, logged or not. -/
theorem serve_cases (cfg : Config) (st : ConnState) (name : Bytes) (args : List Bytes)
    (E : Surroundings) {s : Sys σ} (hg : s.world.store.Good) :
    let r := s.exec E (serveCmd cfg st name args)
    r.2.world.store.Good ∧ s.tick ≤ r.2.tick ∧
      ((r.1.write = false ∧
          ∀ u, (∀ i < r.2.tick, E.clock i ≤ u) →
          r.2.world.store.raw.at u = s.world.store.raw.at u) ∨
        r.1.write = true ∧ ∃ w : Write σ, servedWrite name args = some w ∧
          w.run E.clock s.world.store.raw s.tick = (true, r.2.world.store.raw, r.2.tick)) := by
  intro r
  have hrun := serveCmd_runs (σ := σ) cfg st name args
  cases hw : (servedWrite name args : Option (Write σ)) with
  | none =>
    rw [hw] at hrun
    obtain ⟨h1, h2, h3, h4⟩ := exec_quiet hrun E hg
    exact ⟨h3, h2, .inl ⟨h1, h4⟩⟩
  | some w =>
    rw [hw] at hrun
    obtain ⟨h1, h2, -⟩ := exec_write hrun E hg
    have htick : r.2.tick = (w.run E.clock s.world.store.raw s.tick).2.2 := h2.tick
    have hraw : r.2.world.store.raw = (w.run E.clock s.world.store.raw s.tick).2.1 := h2.raw
    have hflag : r.1.write = (w.run E.clock s.world.store.raw s.tick).1 := h1
    refine ⟨h2.good, htick ▸ w.tick_le .., ?_⟩
    cases hl : (w.run E.clock s.world.store.raw s.tick).1 with
    | false =>
      refine .inl ⟨hflag.trans hl, fun u hu => ?_⟩
      rw [hraw]
      exact w.run_unlogged hg.full hl (htick ▸ hu)
    | true => exact .inr ⟨hflag.trans hl, w, rfl, by rw [htick, hraw, ← hl]⟩

/-- What the dispatcher does for a command that writes. -/
theorem dispatch_write (cfg : Config) (st : ConnState) {name : Bytes} {args : List Bytes}
    {w : Write σ} (hw : writeCmd name args = some w) (E : Surroundings) {s : Sys σ}
    (hg : s.world.store.Good) :
    let r := s.exec E (dispatch cfg st name args)
    r.2.world.store.Good ∧
      w.run E.clock s.world.store.raw s.tick = (r.1.1.persist, r.2.world.store.raw, r.2.tick) := by
  intro r
  have hrun := dispatch_runs (σ := σ) cfg st name args
  rw [hw] at hrun
  obtain ⟨h1, h2, -⟩ := exec_write hrun E hg
  exact ⟨h2.good, Prod.ext h1.symm (Prod.ext h2.raw.symm h2.tick.symm)⟩

end

end Inmem.L4
