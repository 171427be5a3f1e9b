import Inmem.L3Store.Restore
import Inmem.L4App.Effects
import Inmem.L4App.Persistence
import Inmem.L4App.Replies

/-!
# Loading a snapshot

A snapshot is a list of ordinary commands, replayed through the parser and the
dispatcher.

* `dumpCommands_eq`: the file is the log of `snapshotCmds`.
* `apply_restore`, `apply_snapshot`: what the commands of one record, and of a whole
  snapshot, do to a store: what is sent of each live key of the dumped store is
  restored over whatever is there, and no other key is touched.
* `snapshot_roundtrip`: in an empty store they give the dumped keyspace back, and none of
  them is answered with an error.
-/
namespace Inmem.L4

open Inmem.Core Inmem.L1 Inmem.L1.Resp Inmem.L3 Inmem.Core.Decimal

section
variable {σ : Type} [Score σ]

/-! ## The commands -/

/-- The command that recreates a value. -/
def restoreCmd (env : Env) (key : Bytes) : Val σ → Argv
  | .str v => (lit "SET", [key, v])
  | .list l => (lit "RPUSH", key :: l)
  | .hash h => (lit "HSET", key :: (env.hashOrder key h).flatMap fun p => [p.1, p.2])
  | .set s => (lit "SADD", key :: env.setOrder key s)
  | .zset z =>
    (lit "ZADD", key :: (rankList z).flatMap fun p => [fmtScore (ofLex p).1, (ofLex p).2])

/-- The command that sets a deadline. -/
def deadlineCmd (key : Bytes) (t : Nat) : Argv := (lit "PEXPIREAT", [key, natText t])

def restoreCmds (env : Env) (key : Bytes) (r : Rec σ) : List Argv :=
  restoreCmd env key r.val :: (r.deadline.map (deadlineCmd key)).toList

/-- The commands for what `R` has under these keys. -/
def viewCmds (env : Env) (R : View σ) (ks : List Bytes) : List Argv :=
  ks.flatMap fun k => (R k).elim [] (restoreCmds env k)

/-- The commands of a snapshot. -/
def snapshotCmds (env : Env) (s : Store σ) : List Argv :=
  viewCmds env (s.raw.at env.now) (s.keys env)

theorem recCmds_eq (env : Env) (key : Bytes) (r : Rec σ) :
    recCmds env key r = (restoreCmds env key r).map fun a => a.1 :: a.2 := by
  obtain ⟨v, d⟩ := r
  cases v <;> cases d <;> rfl

theorem dumpArgs_cmds {s : Store σ} (hr : s.Routed) (env : Env) :
    s.dumpArgs env = (snapshotCmds env s).map fun a => a.1 :: a.2 := by
  rw [Store.dumpArgs_eq hr, snapshotCmds, viewCmds, List.map_flatMap]
  refine List.flatMap_congr fun k _ => ?_
  show (s.raw.at env.now k).elim [] _ = _
  cases s.raw.at env.now k with
  | none => rfl
  | some r => exact recCmds_eq env k r

/-- A snapshot is the log of its commands. -/
theorem dumpCommands_eq {s : Store σ} (hr : s.Routed) (env : Env) :
    s.dumpCommands env = encodeAll (snapshotCmds env s) := by
  rw [Store.dumpCommands, dumpArgs_cmds hr, List.flatMap_map]
  rfl

/-- Every score is an integer of the `i64` range. -/
def WholeScores : Val σ → Prop
  | .zset z => ∀ p ∈ rankList z, ∃ n ∈ Score.toInt (ofLex p).1, InI64 n
  | _ => True

instance : ∀ v : Val σ, Decidable (WholeScores v)
  | .zset z =>
    inferInstanceAs (Decidable (∀ p ∈ rankList z, ∃ n ∈ Score.toInt (ofLex p).1, InI64 n))
  | .str _ | .list _ | .hash _ | .set _ => isTrue trivial

/-- The record's commands can be read back: the one that recreates the value is within
the parser's limits, the deadline fits an `i64`, and scores are integers that do. -/
structure Loadable (env : Env) (key : Bytes) (r : Rec σ) : Prop where
  fits : (restoreCmd env key r.val).Fits
  deadline : ∀ t ∈ r.deadline, (t : Int) ≤ i64Max
  scores : WholeScores r.val

instance (env : Env) (key : Bytes) (r : Rec σ) : Decidable (Loadable env key r) :=
  decidable_of_iff ((restoreCmd env key r.val).Fits ∧ (∀ t ∈ r.deadline, (t : Int) ≤ i64Max) ∧
    WholeScores r.val)
    ⟨fun h => ⟨h.1, h.2.1, h.2.2⟩, fun h => ⟨h.fits, h.deadline, h.scores⟩⟩

/-- The texts of the scores can be parsed. -/
def Legible : Val σ → Prop
  | .zset z => ∀ p ∈ rankList z, (Score.parse (fmtScore (ofLex p).1) : Option σ).isSome = true
  | _ => True

theorem WholeScores.legible {v : Val σ} (h : WholeScores v) : Legible v := by
  cases v with
  | zset z =>
    intro p hp
    obtain ⟨n, h1, h2⟩ := h p hp
    rw [parse_fmtScore h1 h2]
    rfl
  | _ => trivial

theorem WholeScores.sent {v : Val σ} (h : WholeScores v) : v.sent = v := by
  cases v with
  | zset z =>
    refine congrArg Val.zset (Finmap.ext_lookup fun m => ?_)
    rw [lookup_sentScores]
    cases hm : z.lookup m with
    | none => rfl
    | some s =>
      obtain ⟨n, h1, h2⟩ := h _ (mem_rankList.2 hm)
      exact congrArg some (readBack_int h1 h2)
  | _ => rfl

theorem Loadable.sent {env : Env} {key : Bytes} {r : Rec σ} (h : Loadable env key r) :
    r.sent = r := by
  rw [Rec.sent_accepted h.deadline, h.scores.sent]

/-- The commands of a snapshot of the store can be read back. -/
def Dumpable (env : Env) (s : Store σ) : Prop :=
  ∀ k r, s.raw.at env.now k = some r → Loadable env k r

/-- To say something of every live record it is enough to look at the listed keys. -/
theorem forall_live_iff {s : Store σ} (hr : s.Routed) {env : Env} {P : Bytes → Rec σ → Prop} :
    (∀ k r, s.raw.at env.now k = some r → P k r) ↔
      ∀ k ∈ s.keys env, ∀ r ∈ s.raw.at env.now k, P k r :=
  ⟨fun h k _ r hk => h k r hk, fun h k r hk =>
    h k ((Store.mem_keys hr env).2 (Option.isSome_of_eq_some hk)) r hk⟩

theorem dumpable_iff {s : Store σ} (hr : s.Routed) {env : Env} :
    Dumpable env s ↔ ∀ k ∈ s.keys env, ∀ r ∈ s.raw.at env.now k, Loadable env k r :=
  forall_live_iff hr

theorem restoreCmd_key (env : Env) (key : Bytes) (v : Val σ) : key ∈ (restoreCmd env key v).2 := by
  cases v <;> exact List.mem_cons_self

theorem deadlineCmd_fits {key : Bytes} {t : Nat} (hkey : (key.length : Int) ≤ MAX_BULK_LEN)
    (ht : (t : Int) ≤ i64Max) : (deadlineCmd key t).Fits := by
  have hlen : (natText t).length ≤ 19 := natText_length (by decide) (by unfold i64Max at ht; omega)
  refine ⟨show ((3 : Nat) : Int) ≤ MAX_ARRAY_LEN by decide, fun b hb => ?_⟩
  simp only [deadlineCmd, List.mem_cons, List.not_mem_nil, or_false] at hb
  rcases hb with rfl | rfl | rfl
  · decide
  · exact hkey
  · unfold MAX_BULK_LEN; omega

theorem Loadable.fits_all {env : Env} {key : Bytes} {r : Rec σ} (h : Loadable env key r) :
    ∀ a ∈ restoreCmds env key r, a.Fits := by
  intro a ha
  rcases List.mem_cons.1 ha with rfl | ha
  · exact h.fits
  · obtain ⟨t, ht, rfl⟩ := Option.map_eq_some_iff.1 (Option.mem_toList.1 ha)
    exact deadlineCmd_fits (h.fits.2 key (List.mem_cons_of_mem _ (restoreCmd_key env key r.val)))
      (h.deadline t ht)

theorem mem_snapshotCmds {env : Env} {s : Store σ} (hr : s.Routed) {k : Bytes} {r : Rec σ}
    (h : s.raw.at env.now k = some r) {a : Argv} (ha : a ∈ restoreCmds env k r) :
    a ∈ snapshotCmds env s :=
  List.mem_flatMap.2 ⟨k, (Store.mem_keys hr env).2 (Option.isSome_of_eq_some h),
    by rw [h]; exact ha⟩

theorem snapshotCmds_cases {env : Env} {s : Store σ} {a : Argv} (ha : a ∈ snapshotCmds env s) :
    ∃ k r, s.raw.at env.now k = some r ∧ a ∈ restoreCmds env k r := by
  obtain ⟨k, -, hk⟩ := List.mem_flatMap.1 ha
  cases hr : s.raw.at env.now k with
  | none => rw [hr] at hk; cases hk
  | some r => rw [hr] at hk; exact ⟨k, r, hr, hk⟩

/-! ## What they write -/

theorem pairsOf_flatMap (l : List (Bytes × Bytes)) :
    pairsOf (l.flatMap fun p => [p.1, p.2]) = l := by
  induction l with
  | nil => rfl
  | cons p l ih => simp only [List.flatMap_cons, List.cons_append, List.nil_append, pairsOf, ih]

theorem zaddPairs_flatMap (l : List (Ranked σ))
    (h : ∀ p ∈ l, (Score.parse (fmtScore (ofLex p).1) : Option σ).isSome = true) :
    zaddPairs (l.flatMap fun p => [fmtScore (ofLex p).1, (ofLex p).2]) =
      some (l.map Ranked.sent) := by
  induction l with
  | nil => rfl
  | cons p l ih =>
    obtain ⟨s, hs⟩ := Option.isSome_iff_exists.1 (h p List.mem_cons_self)
    have hsent : p.sent = (s, (ofLex p).2) := by rw [Ranked.sent, readBack, hs, Option.getD_some]
    simp only [List.flatMap_cons, List.cons_append, List.nil_append, zaddPairs, hs,
      ih fun q hq => h q (List.mem_cons_of_mem _ hq), Option.map_some, List.map_cons, hsent]

theorem length_flatMap_pair {A : Type} (f g : A → Bytes) (l : List A) :
    (l.flatMap fun p => [f p, g p]).length = 2 * l.length := by
  simp [List.length_flatMap, Nat.mul_comm]

def restoreWrite (env : Env) (key : Bytes) : Val σ → Write σ
  | .str v => .set key v []
  | v => .one key (v.restoreOp env key) (restoreOp_modifies env key v)

/-- The `ZADD` of all members of a sorted set. -/
theorem zaddWrite_ranked (key : Bytes) {z : Finmap fun _ : Bytes => σ} (hz : z ≠ ∅)
    (hl : Legible (.zset z)) :
    zaddWrite (key :: (rankList z).flatMap fun p => [fmtScore (ofLex p).1, (ofLex p).2]) =
      some (.one key (.zadd ((rankList z).map Ranked.sent)) rfl) := by
  have hlen :=
    length_flatMap_pair (fun p : Ranked σ => fmtScore (ofLex p).1) (fun p => (ofLex p).2)
      (rankList z)
  have hpos := List.length_pos_iff.2 (rankList_ne_nil hz)
  rw [zaddWrite, if_neg (by omega), zaddPairs_flatMap _ hl]
  rfl

theorem restoreCmd_write {env : Env} {key : Bytes} {v : Val σ} (hv : v.NonEmpty) (hl : Legible v) :
    writeCmd (restoreCmd env key v).1 (restoreCmd env key v).2 = some (restoreWrite env key v) := by
  cases v with
  | str b => rfl
  | list l =>
    cases l with
    | nil => exact absurd rfl hv
    | cons a l => rfl
  | hash h =>
    have hne : env.hashOrder key h ≠ [] := fun he =>
      hv (eq_empty_of_listed (fun f x hf => ⟨_, ((env.hash_listed key h).2 f x).2 hf⟩) he)
    have hlen := length_flatMap_pair Prod.fst Prod.snd (env.hashOrder key h)
    have hpos := List.length_pos_iff.2 hne
    show hsetWrite (key :: _) = _
    rw [hsetWrite, if_neg (by omega), pairsOf_flatMap]
    rfl
  | set s =>
    cases ho : env.setOrder key s with
    | nil =>
      refine absurd (Finset.eq_empty_of_forall_notMem fun m hm => ?_) hv
      have := ((env.set_listed key s).2 m).2 hm
      rw [ho] at this; cases this
    | cons a l =>
      show restWrite (key :: env.setOrder key s) _ (fun _ => rfl) =
        some (.one key (.sadd (env.setOrder key s)) rfl)
      simp only [ho, restWrite]
  | zset z => exact zaddWrite_ranked key hv hl

theorem deadlineCmd_write (key : Bytes) {t : Nat} (h : (t : Int) ≤ i64Max) :
    (writeCmd (deadlineCmd key t).1 (deadlineCmd key t).2 : Option (Write σ)) =
      some (.expire key t 1 true none) := by
  show (parseI64 (natText t)).map _ = _
  rw [parseI64_natText h]
  rfl

/-! ## What they do -/

theorem restoreWrite_run (env : Env) (key : Bytes) {v : Val σ} (hv : v.NonEmpty) (clock : Nat → Nat)
    (u : View σ) (i : Nat) :
    ∃ j, i ≤ j ∧
      ((restoreWrite env key v).run clock u i).2 =
        (u.put key (some (v.sent.over (liveAt (clock j) (u key)))), j + 1) ∧
      (liveAt (clock j) (u key) = none → ((restoreWrite env key v).run clock u i).1 = true) := by
  have hop := restoreOp_spec env key hv
  cases v with
  | str b =>
    refine ⟨i + 1, Nat.le_succ i, ?_⟩
    simp only [restoreWrite, Write.set_run_nil, implies_true, and_true]
    cases liveAt (clock (i + 1)) (u key) <;> rfl
  | _ =>
    refine ⟨i, le_rfl, ?_, fun hn => ?_⟩
    · simp only [restoreWrite, Write.one_run, hop]
    · simp only [restoreWrite, Write.one_run, hn]
      exact restoreOp_dirty env key hv _

theorem deadlineWrite_run (key : Bytes) {t : Nat} (ht : (t : Int) ≤ i64Max) (clock : Nat → Nat)
    (u : View σ) (i : Nat) :
    ∃ j, i ≤ j ∧
      ((Write.expire key t 1 true none : Write σ).run clock u i).2 =
        (u.put key
          ((liveAt (clock j) (liveAt (clock i) (u key))).map fun z =>
            { z with deadline := some t }), j + 1) ∧
      ((liveAt (clock i) (u key)).isSome = true →
        ((Write.expire key t 1 true none : Write σ).run clock u i).1 = true) := by
  have hd : deadlineAfter (if true then 0 else clock (i + 1)) t 1 = t := by
    simp only [deadlineAfter, if_true, i64Max] at ht ⊢
    omega
  rw [Write.expire_run]
  by_cases hl : (liveAt (clock i) (u key)).isSome = true
  · rw [if_pos hl, Write.expireTail_run_plain, hd, View.put_put, View.put_self]
    exact ⟨i + 2, by omega, rfl, fun _ => rfl⟩
  · rw [if_neg hl]
    have hnone : liveAt (clock i) (u key) = none := by simpa using hl
    refine ⟨i, le_rfl, ?_, fun h => absurd h hl⟩
    rw [hnone]
    rfl

/-- A dispatched command that writes. -/
theorem apply_write {a : Argv} {w : Write σ} (h : writeCmd a.1 a.2 = some w) (cfg : Config)
    (E : Surroundings) {p : ConnState × Sys σ} (hg : p.2.world.store.Good) :
    (p.2.exec E (dispatch cfg p.1 a.1 a.2)).1.1.persist =
      (w.run E.clock p.2.world.store.raw p.2.tick).1 ∧
      Follows (Sys.apply cfg E p a).2 (w.run E.clock p.2.world.store.raw p.2.tick).2 := by
  obtain ⟨hg', hrun⟩ := dispatch_write cfg p.1 h E hg
  rw [hrun]
  exact ⟨rfl, hg', rfl, rfl⟩

variable (cfg : Config) (E : Surroundings)

theorem applyAll_restore (env : Env) (key : Bytes) (v : Val σ) (p : ConnState × Sys σ) :
    Sys.applyAll cfg E (restoreCmds env key ⟨v, none⟩) p =
      Sys.apply cfg E p (restoreCmd env key v) := by
  rw [show restoreCmds env key ⟨v, none⟩ = [restoreCmd env key v] from rfl, Sys.applyAll_cons,
    Sys.applyAll_nil]

theorem applyAll_restore_deadline (env : Env) (key : Bytes) (v : Val σ) (t : Nat)
    (p : ConnState × Sys σ) :
    Sys.applyAll cfg E (restoreCmds env key ⟨v, some t⟩) p =
      Sys.apply cfg E (Sys.apply cfg E p (restoreCmd env key v)) (deadlineCmd key t) := by
  rw [show restoreCmds env key ⟨v, some t⟩ = [restoreCmd env key v, deadlineCmd key t] from rfl,
    Sys.applyAll_cons, Sys.applyAll_cons, Sys.applyAll_nil]

/-- The answers to a list of commands. -/
def answers : List Argv → ConnState × Sys σ → List Outcome
  | [], _ => []
  | a :: cmds, p =>
    (p.2.exec E (dispatch cfg p.1 a.1 a.2)).1.1 :: answers cmds (Sys.apply cfg E p a)

/-- The times that the calls from `i` up to `j` read. -/
def Surroundings.times (i j : Nat) : Set Nat := {t | ∃ n, i ≤ n ∧ n < j ∧ E.clock n = t}

theorem Surroundings.times_mono {i i' j j' : Nat} (hi : i' ≤ i) (hj : j ≤ j') :
    E.times i j ⊆ E.times i' j' :=
  fun _ ⟨n, h1, h2, e⟩ => ⟨n, hi.trans h1, h2.trans_le hj, e⟩

/-- A deadline beyond the `i64` range is refused, whatever is stored. -/
theorem deadlineCmd_refused (st : ConnState) (key : Bytes) {t : Nat} (h : i64Max < (t : Int)) :
    (dispatch cfg st (deadlineCmd key t).1 (deadlineCmd key t).2 : Cmd σ _) =
      .pure (notInteger, st) := by
  have hp : parseI64 (natText t) = none := by
    rw [← intText_natCast, parseI64, readInt_intText]
    exact Option.filter_eq_none_iff.2 fun z hz => by
      obtain rfl := Option.some.inj hz
      simp only [decide_eq_true_eq]
      exact fun hi => by have := hi.2; omega
  show keep st (expireCmd [key, natText t] 1 true) = _
  simp only [expireCmd, hp]
  rfl

theorem apply_refused (key : Bytes) {t : Nat} (h : i64Max < (t : Int)) (p : ConnState × Sys σ) :
    Sys.apply cfg E p (deadlineCmd key t) = p := by
  rw [Sys.apply, deadlineCmd_refused cfg p.1 key h, Sys.exec_pure]

/-- Records have been restored: what is sent of those that `R` gives under the keys `ks`,
each over what the key held; the other keys are as before. If none of these keys held
anything and no deadline is refused, every command counts as a write. -/
structure Restored (R : View σ) (ks : List Bytes) (before after : Sys σ) (given : List Outcome) :
    Prop where
  good : after.world.store.Good
  tick : before.tick ≤ after.tick
  other : ∀ k, (k ∈ ks → R k = none) → after.world.store.raw k = before.world.store.raw k
  self : ∀ k ∈ ks, ∀ r ∈ R k, ∃ t₁ ∈ E.times before.tick after.tick,
    ∃ t₂ ∈ E.times before.tick after.tick, ∃ t₃ ∈ E.times before.tick after.tick,
      after.world.store.raw k = r.sent.restore t₁ t₂ t₃ (before.world.store.raw k)
  writes : (∀ k ∈ ks, before.world.store.raw k = none) →
    (∀ k ∈ ks, ∀ r ∈ R k, Accepted r.deadline) → ∀ o ∈ given, o.persist = true

/-- The commands of one record. -/
theorem apply_restore {env : Env} {key : Bytes} {R : View σ} {r : Rec σ} (hr : R key = some r)
    (hv : r.val.NonEmpty) (hl : Legible r.val) {p : ConnState × Sys σ} (hg : p.2.world.store.Good) :
    Restored E R [key] p.2 (Sys.applyAll cfg E (restoreCmds env key r) p).2
      (answers cfg E (restoreCmds env key r) p) := by
  have hne : ∀ k, (k ∈ [key] → R k = none) → k ≠ key := fun k hk he => by
    have := hk (by simp [he]); rw [he, hr] at this; cases this
  have hself : ∀ k ∈ [key], ∀ r' ∈ R k, k = key ∧ r' = r := fun k hk r' hr' => by
    obtain rfl := List.mem_singleton.1 hk
    exact ⟨rfl, Option.some.inj (hr'.symm.trans hr)⟩
  obtain ⟨v, d⟩ := r
  have hw : writeCmd (restoreCmd env key v).1 (restoreCmd env key v).2 =
      some (restoreWrite env key v) :=
    restoreCmd_write hv hl
  obtain ⟨hf, h1⟩ := apply_write hw cfg E hg
  obtain ⟨j₁, hj₁, hrun, hflag⟩ := restoreWrite_run env key hv E.clock p.2.world.store.raw p.2.tick
  rw [hrun] at h1
  by_cases hd : ∃ t, d = some t ∧ (t : Int) ≤ i64Max
  · obtain ⟨t, rfl, ht⟩ := hd
    obtain ⟨hf', h2⟩ := apply_write (deadlineCmd_write key ht) cfg E h1.good
    obtain ⟨j₃, hj₃, hrun', hflag'⟩ := deadlineWrite_run (σ := σ) key ht E.clock
      (Sys.apply cfg E p (restoreCmd env key v)).2.world.store.raw
        (Sys.apply cfg E p (restoreCmd env key v)).2.tick
    rw [h1.raw, h1.tick] at hf' h2 hrun' hflag'
    simp only [View.put_put, View.put_self] at hrun' hflag'
    rw [hrun'] at h2
    rw [h1.tick] at hj₃
    rw [applyAll_restore_deadline]
    refine ⟨h2.good, ?_, fun k hk => ?_, fun k hk r' hr' => ?_, fun hn _ o ho => ?_⟩
    · exact ((hj₁.trans (Nat.le_succ j₁)).trans (hj₃.trans (Nat.le_succ j₃))).trans h2.tick.ge
    · exact (congrFun h2.raw k).trans (View.put_other _ _ (hne k hk))
    · obtain ⟨rfl, rfl⟩ := hself k hk r' hr'
      have hin : ∀ j, p.2.tick ≤ j → j ≤ j₃ →
          E.clock j ∈
            E.times p.2.tick
              (Sys.apply cfg E (Sys.apply cfg E p (restoreCmd env k v)) (deadlineCmd k t)).2.tick :=
        fun j h h' => ⟨j, h, (Nat.lt_succ_of_le h').trans_le h2.tick.ge, rfl⟩
      rw [Rec.sent_accepted (r := ⟨v, some t⟩) fun u hu => by cases hu; exact ht]
      exact ⟨_, hin j₁ hj₁ (by omega), _, hin (j₁ + 1) (by omega) hj₃, _, hin j₃ (by omega) le_rfl,
        (congrFun h2.raw k).trans (View.put_self ..)⟩
    · have hnone := hn key (by simp)
      rcases List.mem_cons.1 ho with rfl | ho
      · exact hf.trans (hflag (by rw [hnone]; rfl))
      · rw [List.mem_singleton.1 ho]
        refine hf'.trans (hflag' ?_)
        rw [hnone]
        rfl
  · -- no deadline, or one that is refused: only the first command does anything
    have hlate : ∀ t, d = some t → i64Max < (t : Int) :=
      fun t ht => Int.not_le.1 fun hle => hd ⟨t, ht, hle⟩
    have hone : Sys.applyAll cfg E (restoreCmds env key ⟨v, d⟩) p =
        Sys.apply cfg E p (restoreCmd env key v) := by
      cases hd : d with
      | none => exact applyAll_restore ..
      | some t => rw [applyAll_restore_deadline, apply_refused cfg E key (hlate t hd)]
    have hsent : Rec.sent ⟨v, d⟩ = ⟨v.sent, none⟩ := by
      cases hd : d with
      | none => rfl
      | some t => exact (Rec.sent_refused fun h => absurd (hlate t hd) (Int.not_lt.2 (h t rfl))).1
    rw [hone]
    refine ⟨h1.good, ?_, fun k hk => ?_, fun k hk r' hr' => ?_, fun hn hacc o ho => ?_⟩
    · exact (hj₁.trans (Nat.le_succ j₁)).trans h1.tick.ge
    · exact (congrFun h1.raw k).trans (View.put_other _ _ (hne k hk))
    · obtain ⟨rfl, rfl⟩ := hself k hk r' hr'
      have hin : E.clock j₁ ∈ E.times p.2.tick (Sys.apply cfg E p (restoreCmd env k v)).2.tick :=
        ⟨j₁, hj₁, (Nat.lt_succ_self j₁).trans_le h1.tick.ge, rfl⟩
      rw [hsent]
      exact ⟨_, hin, _, hin, _, hin, (congrFun h1.raw k).trans (View.put_self ..)⟩
    · have hnodate : d = none := Option.eq_none_iff_forall_ne_some.2 fun t ht =>
        absurd (hlate t ht) (Int.not_lt.2 (hacc key (by simp) _ hr t ht))
      rw [hnodate] at ho
      rw [List.mem_singleton.1 ho]
      exact hf.trans (hflag (by rw [hn key (by simp)]; rfl))

theorem answers_append (cmds cmds' : List Argv) : ∀ p : ConnState × Sys σ,
    answers cfg E (cmds ++ cmds') p =
      answers cfg E cmds p ++ answers cfg E cmds' (Sys.applyAll cfg E cmds p) := by
  induction cmds with
  | nil => intro p; rfl
  | cons a cmds ih => intro p; simp only [List.cons_append, answers, ih]; rfl

/-- The commands of a snapshot. -/
theorem apply_snapshot (env : Env) {R : View σ} (hfull : ∀ k, RecFull (R k))
    (hlegible : ∀ k r, R k = some r → Legible r.val) (ks : List Bytes) :
    ∀ {p : ConnState × Sys σ}, ks.Nodup → p.2.world.store.Good →
      Restored E R ks p.2 (Sys.applyAll cfg E (viewCmds env R ks) p).2
        (answers cfg E (viewCmds env R ks) p) := by
  induction ks with
  | nil =>
    intro p _ hg
    exact ⟨hg, le_rfl, fun _ _ => rfl, fun k hk => (by cases hk), fun _ _ o ho => (by cases ho)⟩
  | cons key ks ih =>
    intro p hn hg
    rw [List.nodup_cons] at hn
    rw [viewCmds, List.flatMap_cons, Sys.applyAll, List.foldl_append, answers_append]
    -- the first key, and then the rest
    have h1 : Restored E R [key] p.2
        (Sys.applyAll cfg E ((R key).elim [] (restoreCmds env key)) p).2
        (answers cfg E ((R key).elim [] (restoreCmds env key)) p) := by
      cases hr : R key with
      | none =>
        refine ⟨hg, le_rfl, fun _ _ => rfl, fun k hk r hr' => ?_, fun _ _ o ho => (by cases ho)⟩
        rw [List.mem_singleton.1 hk, hr] at hr'
        cases hr'
      | some r => exact apply_restore cfg E hr (hfull key r hr) (hlegible key r hr) hg
    have h2 := ih hn.2 h1.good
    have hkeep : ∀ k ≠ key,
        (Sys.applyAll cfg E ((R key).elim [] (restoreCmds env key)) p).2.world.store.raw k =
        p.2.world.store.raw k :=
          fun k hk => h1.other k fun hm => absurd (List.mem_singleton.1 hm) hk
    refine ⟨h2.good, h1.tick.trans h2.tick, fun k hk => ?_, fun k hk r hr => ?_,
      fun hnone hacc o ho => ?_⟩
    · have e1 := h1.other k fun hm => hk (List.mem_singleton.1 hm ▸ List.mem_cons_self)
      have e2 := h2.other k fun hm => hk (List.mem_cons_of_mem _ hm)
      exact e2.trans e1
    · rcases List.mem_cons.1 hk with rfl | hk
      · obtain ⟨t₁, h₁, t₂, h₂, t₃, h₃, e⟩ := h1.self k (by simp) r hr
        exact ⟨t₁, E.times_mono le_rfl h2.tick h₁, t₂, E.times_mono le_rfl h2.tick h₂, t₃,
          E.times_mono le_rfl h2.tick h₃, (h2.other k fun hm => absurd hm hn.1).trans e⟩
      · obtain ⟨t₁, h₁, t₂, h₂, t₃, h₃, e⟩ := h2.self k hk r hr
        refine ⟨t₁, E.times_mono h1.tick le_rfl h₁, t₂, E.times_mono h1.tick le_rfl h₂, t₃,
          E.times_mono h1.tick le_rfl h₃, e.trans ?_⟩
        rw [hkeep k fun he => hn.1 (he ▸ hk)]
    · rcases List.mem_append.1 ho with ho | ho
      · have hkey : ∀ k ∈ [key], k ∈ key :: ks :=
          fun k hk => List.mem_singleton.1 hk ▸ List.mem_cons_self
        exact h1.writes (fun k hk => hnone k (hkey k hk)) (fun k hk => hacc k (hkey k hk)) o ho
      · refine h2.writes (fun k hk => ?_) (fun k hk => hacc k (List.mem_cons_of_mem _ hk)) o ho
        rw [hkeep k fun he => hn.1 (he ▸ hk)]
        exact hnone k (List.mem_cons_of_mem _ hk)

variable {E} in
/-- Restored into an empty store, what is sent of the records is what it holds. -/
theorem Restored.raw_sent {R : View σ} {ks : List Bytes} {before after : Sys σ}
    {given : List Outcome} (h : Restored E R ks before after given)
    (hempty : before.world.store.raw = fun _ => none) (hks : ∀ k, (R k).isSome = true → k ∈ ks)
    (k : Bytes) : after.world.store.raw k = (R k).map Rec.sent := by
  cases hr : R k with
  | none =>
    rw [h.other k fun _ => hr, hempty]
    rfl
  | some r =>
    obtain ⟨t₁, -, t₂, -, t₃, -, e⟩ := h.self k (hks k (Option.isSome_of_eq_some hr)) r hr
    rw [e, restore_fresh (by rw [hempty]; rfl)]
    rfl

variable {E} in
/-- The records themselves, if they are sent as they are. -/
theorem Restored.raw_eq {R : View σ} {ks : List Bytes} {before after : Sys σ} {given : List Outcome}
    (h : Restored E R ks before after given) (hempty : before.world.store.raw = fun _ => none)
    (hks : ∀ k, (R k).isSome = true → k ∈ ks) (hsent : ∀ k r, R k = some r → r.sent = r) :
    after.world.store.raw = R := by
  funext k
  rw [h.raw_sent hempty hks k]
  cases hr : R k with
  | none => rfl
  | some r => exact congrArg some (hsent k r hr)

/-- The snapshot of a store. -/
theorem apply_dump {s : Store σ} (hs : s.Good) (env : Env)
    (hlegible : ∀ k r, s.raw.at env.now k = some r → Legible r.val) (p : ConnState × Sys σ)
    (hg : p.2.world.store.Good) :
    Restored E (s.raw.at env.now) (s.keys env) p.2 (Sys.applyAll cfg E (snapshotCmds env s) p).2
      (answers cfg E (snapshotCmds env s) p) :=
  apply_snapshot cfg E env (fun k => liveAt_full (hs.full k)) hlegible (s.keys env)
    (Store.keys_nodup hs.routed env) hg

theorem Dumpable.legible {env : Env} {s : Store σ} (h : Dumpable env s) :
    ∀ k r, s.raw.at env.now k = some r → Legible r.val := fun k r hr => (h k r hr).scores.legible

/-! ## Their answers -/

/-- An answer to a write is not an error. -/
def Clean (o : Outcome) : Prop := o.persist = true → ∀ e, o.reply ≠ .error e

/-- The dispatcher flags no error as a write. -/
theorem answers_clean (cmds : List Argv) :
    ∀ p : ConnState × Sys σ, ∀ o ∈ answers cfg E cmds p, Clean o := by
  induction cmds with
  | nil => intro p o ho; cases ho
  | cons a cmds ih =>
    intro p o ho
    rcases List.mem_cons.1 ho with rfl | ho
    · intro hpersist e he
      obtain ⟨⟨hshaped, -⟩, -⟩ := Prog.all_run (Sys.call E) (fun _ => True) (fun _ _ _ _ => trivial)
        (dispatch_shaped cfg p.1 a.1 a.2) (s := p.2) trivial
      have hno := (hshaped.sober (isError_iff.2 ⟨e, he⟩)).1
      exact Bool.false_ne_true (hno.symm.trans hpersist)
    · exact ih _ o ho

/-! ## The round trip -/

theorem snapshotCmds_fits {env : Env} {s : Store σ}
    (hload : Dumpable env s) : ∀ a ∈ snapshotCmds env s, a.Fits := by
  intro a ha
  obtain ⟨k, r, hr, ha⟩ := snapshotCmds_cases ha
  exact (hload k r hr).fits_all a ha

/-- **Round trip.** Any run of calls on an unbounded store, whose live records can be
read back when it is dumped; the dump, replayed into an empty store of any number of
shards at whatever time. Every command of the dump is applied and none is answered
with an error, and from the time of the dump on both stores have the same live
keyspace. -/
theorem snapshot_roundtrip (shards : Nat) (router : Bytes → UInt64)
    (hasher : Nat → Nat → Bytes → UInt64) (file : Option Bytes) (run : List (Env × Call σ))
    (env : Env) (hload : Dumpable env (runCalls run ⟨Store.new shards 0 router hasher, file⟩).store)
    (hmem : cfg.maxmemory = 0) (router' : Bytes → UInt64) (hasher' : Nat → Nat → Bytes → UInt64)
    (file' : Option Bytes) :
    let dumped := (runCalls run ⟨Store.new shards 0 router hasher, file⟩).store
    let empty : Sys σ := Sys.empty cfg router' hasher' file'
    (replayFile cfg E (dumped.dumpCommands env) empty).1 = (dumped.dumpArgs env).length ∧
      (∀ o ∈ answers cfg E (frames (dumped.dumpCommands env)) (ConnState.internal, empty), ∀ e,
        o.reply ≠ .error e) ∧
      ∀ T, env.now ≤ T →
        (replayFile cfg E (dumped.dumpCommands env) empty).2.world.store.raw.at T =
          dumped.raw.at T := by
  intro dumped empty
  have hg : dumped.Good := runCalls_good run (new_good shards router hasher)
  have hcmds : frames (dumped.dumpCommands env) = snapshotCmds env dumped := by
    rw [dumpCommands_eq hg.routed, frames_encodeAll _ (snapshotCmds_fits hload)]
  have hempty : empty.world.store.raw = fun _ => none := Sys.empty_raw ..
  have h :=
    apply_dump cfg E hg env hload.legible (ConnState.internal, empty)
      (Sys.empty_good hmem router' hasher' file')
  rw [replayFile_eq, hcmds]
  refine ⟨by rw [dumpArgs_cmds hg.routed, List.length_map], fun o ho => ?_, fun T hT => ?_⟩
  · exact answers_clean cfg E _ _ o ho
      (h.writes (fun k _ => congrFun hempty k) (fun k _ r hr => (hload k r hr).deadline) o ho)
  · rw [h.raw_eq hempty (fun k hk => (Store.mem_keys hg.routed env).2 hk) fun k r hr =>
      (hload k r hr).sent, View.at_at hT]

end

/-- A record of each type, one of them with a deadline. -/
def filling : List (Env × Call Int) :=
  [(Env.plain 0, .key (lit "s") (.set (lit "v") { expireAt := some 10 })),
    (Env.plain 1, .key (lit "l") (.push [lit "a", lit "b"] false)),
    (Env.plain 2, .key (lit "h") (.hset [(lit "f", lit "x")])),
    (Env.plain 3, .key (lit "m") (.sadd [lit "a"])),
    (Env.plain 4, .key (lit "z") (.zadd [(-2, lit "a")]))]

/-- It is dumped after five milliseconds, and loaded into two shards after twenty. -/
theorem snapshot_roundtrip_filling :
    let dumped := (runCalls filling ⟨Store.new 1 0 (fun _ => 0) (fun _ _ _ => 0), none⟩).store
    let cfg := { loggingConfig with shards := 2 }
    let replayed := replayFile cfg (fun _ => Env.plain 20) (dumped.dumpCommands (Env.plain 5))
      (Sys.empty cfg (fun _ => 0) (fun _ _ _ => 0) none)
    replayed.1 = 6 ∧ (replayed.2.world.store.raw.at 9 (lit "s")).isSome = true ∧
      replayed.2.world.store.raw.at 20 = dumped.raw.at 20 := by
  intro dumped cfg replayed
  have hgood : dumped.Good := runCalls_good filling (new_good ..)
  have hload : Dumpable (Env.plain 5) dumped := (dumpable_iff hgood.routed).2 (by decide +kernel)
  obtain ⟨h1, -, h3⟩ :=
    snapshot_roundtrip cfg (fun _ => Env.plain 20) 1 (fun _ => 0) (fun _ _ _ => 0) none filling
    (Env.plain 5) hload rfl (fun _ => 0) (fun _ _ _ => 0) none
  refine ⟨h1.trans (by decide +kernel), ?_, h3 20 (by decide)⟩
  rw [h3 9 (by decide)]
  decide +kernel

end Inmem.L4
