import Inmem.L4App.DumpLimits

/-!
# A replica that syncs again

On `SYNC` the primary sends a snapshot, and the replica applies it to the store
that it has: `sync_once` flushes nothing before. So a key that the primary does not
have stays, and a collection is added to whatever the key held. Nor does everything
arrive as it was: a score is read back from its text, and a deadline beyond the `i64`
range is refused.

* `sync_iff`: what a sync does, when the clock stands still.
* `sync_runs_out`: a record of the replica that runs out between the command that adds
  to it and the one that sets the deadline takes the primary's record along.
* `arrives_self`: a second snapshot of the same store is harmless but for lists, which
  it appends to themselves.
* `resync_iff`: hence when the replica has the primary's keyspace after every one of any
  number of syncs, whatever the clock does.
-/
namespace Inmem.L4

open Inmem.Core Inmem.L1 Inmem.L1.Resp Inmem.L3 Inmem.Core.Decimal

/-! ## What a snapshot replaces -/

section
variable {σ : Type} [Score σ] {S T : Nat} {D : Env} {p s : View σ}

/-- A snapshot of `p` taken in `D`, applied between `S` and `T`, replaces what `s` holds:
the live records of the primary arrive, and what the replica has beyond those is in the
snapshot too and runs out by `T`. -/
def Replaces (S T : Nat) (D : Env) (p s : View σ) : Prop := ∀ k,
  match p.at T k with
  | some r => r.arrives T (s.at S k)
  | none => s.at T k = none ∨ (p.at D.now k).isSome = true

omit [Score σ] in
/-- What is sent and runs out by `T` is sent with its deadline. (Up to the largest `i64`
this is so anyway, see `lapses_of_le`.) -/
def Lapses (T : Nat) (D : Env) (p : View σ) : Prop :=
  ∀ k, p.at T k = none → ∀ r ∈ p.at D.now k, Accepted r.deadline

/-- A replica that holds nothing is fine, if all is sent as it is. -/
theorem replaces_empty (h : ∀ k, ∀ r ∈ p.at T k, r.val.sent = r.val ∧ Accepted r.deadline) :
    Replaces S T D p fun _ => none := by
  intro k
  cases hr : p.at T k with
  | none => exact .inl rfl
  | some r => exact arrives_none.2 (h k r hr)

omit [Score σ] in
theorem expired_of_lapsed {k : Bytes} (hD : D.now ≤ T) (hr : p.at T k = none) {r : Rec σ}
    (hs : p.at D.now k = some r) : expired T r.deadline = true := by
  have hlater : liveAt T (p.at D.now k) = p.at T k := liveAt_liveAt hD _
  rw [hs, hr] at hlater
  by_contra hc
  rw [liveAt_some (Bool.eq_false_iff.2 hc)] at hlater
  cases hlater

omit [Score σ] in
theorem lapses_of_le (hD : D.now ≤ T) (hT : (T : Int) ≤ i64Max) : Lapses T D p := by
  intro k hr r hs t ht
  have hdead := expired_of_lapsed hD hr hs
  rw [Option.mem_def.1 ht] at hdead
  have hle : t ≤ T := of_decide_eq_true hdead
  omega

def isList : Val σ → Bool
  | .list _ => true
  | _ => false

omit [Score σ] in
theorem absorbs_self (r : Rec σ) : r.absorbs r ↔ isList r.val = false := by
  obtain ⟨v, d⟩ := r
  have hd : d = none ∨ d.isSome = true := by cases d <;> simp
  cases v <;> simp [Rec.absorbs, isList, hd]

/-- A record that is there already arrives again unless it is a list. -/
theorem arrives_self {r : Rec σ} {x : Option (Rec σ)} (hr : expired T r.deadline = false)
    (h : r.arrives T x) : r.arrives T (some r) ↔ isList r.val = false := by
  rw [← absorbs_self]
  obtain ⟨hv, hd⟩ := h
  constructor
  · rintro ⟨-, ⟨-, h⟩ | ⟨-, x', hx', h, -⟩⟩
    · exact (h r rfl).1
    · cases hx'; exact h
  · intro habs
    obtain ⟨hacc, -⟩ | ⟨hstr, -⟩ := hd
    · refine ⟨hv, .inl ⟨hacc, fun x' hx' => ?_⟩⟩
      cases hx'
      exact ⟨habs, .inr hr⟩
    · exact ⟨hv, .inr ⟨hstr, r, rfl, habs, rfl⟩⟩

end

/-! ## One sync -/

section
variable {σ : Type} [Score σ]

/-- A connection to the primary: when it takes the snapshot, and the chunks that the
replica reads. -/
structure Round where
  dump : Env
  chunks : List Bytes

/-- The primary sends the snapshot of `p`, no later than at `T`. -/
structure Round.Sends (T : Nat) (p : Store σ) (rd : Round) : Prop where
  chunks : rd.chunks.flatten = p.dumpCommands rd.dump
  now : rd.dump.now ≤ T

/-- The replica gets through the whole snapshot: its parser accepts every command. -/
def Round.Whole (p : Store σ) (rd : Round) : Prop :=
  ∀ a ∈ p.dumpArgs rd.dump, parseCommand (encodeArgs a) = .ok (some (a, (encodeArgs a).length))

/-- The commands of the snapshot are within the parser's limits. -/
def Round.Fits (p : Store σ) (rd : Round) : Prop := ∀ a ∈ snapshotCmds rd.dump p, a.Fits

theorem Round.whole_iff {p : Store σ} (hp : p.Routed) (rd : Round) : rd.Whole p ↔ rd.Fits p := by
  rw [Round.Whole, dumpArgs_cmds hp, Round.Fits]
  simp only [List.forall_mem_map, parse_encodeArgs_iff]
  rfl

/-- The snapshot that is sent is applied as a whole. -/
structure Round.Taken (T : Nat) (p : Store σ) (rd : Round) : Prop extends Round.Sends T p rd where
  fits : rd.Fits p

variable (cfg : Config) (E : Surroundings) {S T : Nat} {p : Store σ} {rd : Round} {s : Sys σ}

theorem sync_cmds (hp : p.Good) (hrd : rd.Taken T p) :
    syncOnce cfg E rd.chunks s =
      (Sys.applyAll cfg E (snapshotCmds rd.dump p) (ConnState.internal, s)).2 :=
  syncOnce_frames cfg E rd.chunks (snapshotCmds rd.dump p) s hrd.fits
    (hrd.chunks.trans (dumpCommands_eq hp.routed rd.dump))

theorem sync_restored [Readable σ] (hp : p.Good) (hs : s.world.store.Good) (hrd : rd.Taken T p) :
    Restored E (p.raw.at rd.dump.now) (p.keys rd.dump) s (syncOnce cfg E rd.chunks s)
      (answers cfg E (snapshotCmds rd.dump p) (ConnState.internal, s)) := by
  rw [sync_cmds cfg E hp hrd]
  exact apply_dump cfg E hp rd.dump (fun _ r _ => legible r.val) (ConnState.internal, s) hs

/-- What is live at `T` was sent. -/
theorem Round.Sends.live (hrd : rd.Sends T p) {k : Bytes} {r : Rec σ} (hr : p.raw.at T k = some r) :
    p.raw.at rd.dump.now k = some r := by
  obtain ⟨hraw, hlive⟩ := liveAt_eq_some.1 hr
  rw [View.at, hraw]
  exact liveAt_some (not_expired hrd.now hlive)

/-- A key that the snapshot has. -/
theorem sync_sent [Readable σ] (hp : p.Good) (hs : s.world.store.Good) (hrd : rd.Taken T p)
    {k : Bytes} {r : Rec σ} (hr : p.raw.at rd.dump.now k = some r) :
    ∃ t₁ ∈ E.times s.tick (syncOnce cfg E rd.chunks s).tick,
      ∃ t₂ ∈ E.times s.tick (syncOnce cfg E rd.chunks s).tick,
      ∃ t₃ ∈ E.times s.tick (syncOnce cfg E rd.chunks s).tick,
        (syncOnce cfg E rd.chunks s).world.store.raw k =
          r.sent.restore t₁ t₂ t₃ (s.world.store.raw k) :=
  (sync_restored cfg E hp hs hrd).self k
    ((Store.mem_keys hp.routed rd.dump).2 (Option.isSome_of_eq_some hr)) r hr

/-- A key that it does not have. -/
theorem sync_unsent [Readable σ] (hp : p.Good) (hs : s.world.store.Good) (hrd : rd.Taken T p)
    {k : Bytes} (hr : p.raw.at rd.dump.now k = none) :
    (syncOnce cfg E rd.chunks s).world.store.raw.at T k = s.world.store.raw.at T k := by
  rw [View.at, (sync_restored cfg E hp hs hrd).other k fun _ => hr]
  rfl

/-- With a clock that stands still. -/
theorem sync_iff [Readable σ] (hp : p.Good) (hs : s.world.store.Good) (hrd : rd.Taken T p)
    (htimes : ∀ t ∈ E.times s.tick (syncOnce cfg E rd.chunks s).tick, t = T) :
    (syncOnce cfg E rd.chunks s).world.store.raw.at T = p.raw.at T ↔
      Lapses T rd.dump p.raw ∧ Replaces T T rd.dump p.raw s.world.store.raw := by
  rw [funext_iff, Lapses, Replaces, ← forall_and]
  refine forall_congr' fun k => ?_
  cases hr : p.raw.at T k with
  | some r =>
    obtain ⟨t₁, h₁, t₂, h₂, t₃, h₃, e⟩ := sync_sent cfg E hp hs hrd (hrd.live hr)
    rw [View.at, e, arrives_iff (htimes t₂ h₂).le (htimes t₃ h₃).le (liveAt_eq_some.1 hr).2
      (hs.full k)
      (by rw [htimes t₁ h₁])]
    simp [View.at]
  | none =>
    cases hsent : p.raw.at rd.dump.now k with
    | none =>
      rw [sync_unsent cfg E hp hs hrd hsent]
      simp
    | some r =>
      -- sent, but run out by `T`
      obtain ⟨t₁, h₁, t₂, -, t₃, -, e⟩ := sync_sent cfg E hp hs hrd hsent
      rw [View.at, e, sent_dead_iff (expired_of_lapsed hrd.now hr hsent) (by rw [htimes t₁ h₁])]
      simp

/-- Whatever the clock does. -/
theorem sync_replaces [Readable σ] (hp : p.Good) (hs : s.world.store.Good) (hrd : rd.Taken T p)
    (htimes : ∀ t ∈ E.times s.tick (syncOnce cfg E rd.chunks s).tick, S ≤ t ∧ t ≤ T)
    (hlapses : Lapses T rd.dump p.raw) (h : Replaces S T rd.dump p.raw s.world.store.raw) :
    (syncOnce cfg E rd.chunks s).world.store.raw.at T = p.raw.at T := by
  funext k
  have hk := h k
  cases hr : p.raw.at T k with
  | some r =>
    rw [hr] at hk
    obtain ⟨t₁, h₁, t₂, h₂, t₃, h₃, e⟩ := sync_sent cfg E hp hs hrd (hrd.live hr)
    rw [View.at, e]
    exact arrives_restore (htimes t₁ h₁) (htimes t₂ h₂).2 (htimes t₃ h₃).2 (liveAt_eq_some.1 hr).2
      (hs.full k) hk
  | none =>
    rw [hr] at hk
    cases hsent : p.raw.at rd.dump.now k with
    | none =>
      rw [sync_unsent cfg E hp hs hrd hsent]
      simpa [hsent] using hk
    | some r =>
      obtain ⟨t₁, -, t₂, -, t₃, -, e⟩ := sync_sent cfg E hp hs hrd hsent
      have hdead := expired_of_lapsed hrd.now hr hsent
      rw [View.at, e, Rec.sent_accepted (hlapses k hr r hsent)]
      exact restore_dead hdead

/-! ## Running out meanwhile -/

variable {E} {E' : Surroundings}

theorem exec_tick {α : Type} (E : Surroundings) (p : Cmd σ α) :
    ∀ s : Sys σ, s.tick ≤ (s.exec E p).2.tick := by
  induction p with
  | pure a => exact fun s => le_rfl
  | call c k ih => exact fun s => (Nat.le_succ _).trans (ih _ (s.call E c).2)

/-- A program sees of the surroundings only what its calls do. -/
theorem exec_congr {α : Type} (p : Cmd σ α) : ∀ s : Sys σ,
    (∀ n, s.tick ≤ n → n < (s.exec E p).2.tick → E' n = E n) → s.exec E' p = s.exec E p := by
  induction p with
  | pure a =>
    intro s _
    rw [Sys.exec_pure, Sys.exec_pure]
  | call c k ih =>
    intro s h
    rw [Sys.exec_call] at h
    have hlt : s.tick < ((s.call E c).2.exec E (k (s.call E c).1)).2.tick :=
      exec_tick E (k (s.call E c).1) (s.call E c).2
    have hcall : s.call E' c = s.call E c := by simp only [Sys.call, h s.tick le_rfl hlt]
    rw [Sys.exec_call, Sys.exec_call, hcall]
    exact ih _ _ fun n hn => h n ((Nat.le_succ _).trans hn)

theorem applyAll_tick (cmds : List Argv) :
    ∀ q : ConnState × Sys σ, q.2.tick ≤ (Sys.applyAll cfg E cmds q).2.tick := by
  induction cmds with
  | nil => exact fun q => le_rfl
  | cons a cmds ih =>
    intro q
    have hone := exec_tick E (dispatch cfg q.1 a.1 a.2) q.2
    rw [← Sys.apply_snd] at hone
    rw [Sys.applyAll_cons]
    exact hone.trans (ih _)

theorem applyAll_congr (cmds : List Argv) : ∀ q : ConnState × Sys σ,
    (∀ n, n < (Sys.applyAll cfg E cmds q).2.tick → E' n = E n) →
    Sys.applyAll cfg E' cmds q = Sys.applyAll cfg E cmds q := by
  induction cmds with
  | nil =>
    intro q _
    rw [Sys.applyAll_nil, Sys.applyAll_nil]
  | cons a cmds ih =>
    intro q h
    rw [Sys.applyAll_cons] at h
    have hlater := applyAll_tick (E := E) cfg cmds (Sys.apply cfg E q a)
    rw [Sys.apply_snd] at hlater
    have hstep : Sys.apply cfg E' q a = Sys.apply cfg E q a := by
      simp only [Sys.apply, exec_congr (dispatch cfg q.1 a.1 a.2) q.2 fun n _ hn =>
        h n (hn.trans_le hlater)]
    rw [Sys.applyAll_cons, Sys.applyAll_cons, hstep]
    exact ih _ h

/-- The clock shows `S` before the call `m`, and `T` from then on. -/
def jump (S T m : Nat) : Surroundings := fun n => Env.plain (if n < m then S else T)

theorem jump_clock (S T m n : Nat) : (jump S T m).clock n = if n < m then S else T := rfl

theorem jump_mono (h : S ≤ T) (m : Nat) : Monotone (jump S T m).clock := by
  intro a b hab
  simp only [jump_clock]
  split_ifs <;> omega

/-- The deadline comes too late. -/
theorem deadline_too_late (E : Surroundings) {key : Bytes} {r : Rec σ} (hacc : Accepted r.deadline)
    {q : ConnState × Sys σ} (hq : q.2.world.store.Good) (hT : E.clock q.2.tick = T)
    (hout : liveAt T (q.2.world.store.raw key) = none) :
    (Sys.applyAll cfg E (r.deadline.map (deadlineCmd key)).toList q).2.world.store.Good ∧
      liveAt T
        ((Sys.applyAll cfg E (r.deadline.map (deadlineCmd key)).toList q).2.world.store.raw key) =
          none := by
  cases hd : r.deadline with
  | none => exact ⟨hq, hout⟩
  | some d =>
    have hfit := hacc d hd
    obtain ⟨-, h⟩ := apply_write (deadlineCmd_write key hfit) cfg E hq
    obtain ⟨j, -, hrun, -⟩ := deadlineWrite_run key hfit E.clock q.2.world.store.raw q.2.tick
    rw [hrun, hT, hout] at h
    rw [Option.map_some, Option.toList_some, Sys.applyAll_cons, Sys.applyAll_nil]
    refine ⟨h.good, ?_⟩
    rw [h.raw]
    exact congrArg (liveAt T) (View.put_self ..)

/-- The snapshot, cut at the commands of one of its records. -/
theorem snapshotCmds_split (hp : p.Good) {D : Env} {k : Bytes} {r : Rec σ}
    (hr : p.raw.at D.now k = some r) :
    ∃ ks₁ ks₂ : List Bytes, ks₁.Nodup ∧ ks₂.Nodup ∧ k ∉ ks₁ ∧ k ∉ ks₂ ∧
      snapshotCmds D p = viewCmds D (p.raw.at D.now) ks₁ ++ restoreCmds D k r ++ viewCmds D
        (p.raw.at D.now) ks₂ := by
  obtain ⟨ks₁, ks₂, hks⟩ :=
    List.append_of_mem ((Store.mem_keys hp.routed D).2 (Option.isSome_of_eq_some hr))
  have hn := hks ▸ Store.keys_nodup hp.routed D
  obtain ⟨hn₁, hn₂, hdisj⟩ := List.nodup_append.1 hn
  rw [List.nodup_cons] at hn₂
  refine ⟨ks₁, ks₂, hn₁, hn₂.2, fun hm => hdisj k hm k List.mem_cons_self rfl, hn₂.1, ?_⟩
  rw [snapshotCmds, hks, viewCmds, List.flatMap_append, List.flatMap_cons, hr, List.append_assoc]
  rfl

/-- A record of the replica runs out right after the primary's collection was added to it. -/
theorem sync_runs_out [Readable σ] (hp : p.Good) (hs : s.world.store.Good) (hrd : rd.Taken T p)
    {k : Bytes} {r x : Rec σ} (hr : p.raw.at T k = some r) (hacc : Accepted r.deadline)
    (hstr : r.val.isStr = false) (hx : s.world.store.raw.at S k = some x)
    (hout : expired T x.deadline = true) :
    ∃ m, (syncOnce cfg (jump S T m) rd.chunks s).world.store.raw.at T k = none := by
  have hR := hrd.live hr
  have hlegible : ∀ k r, p.raw.at rd.dump.now k = some r → Legible r.val :=
    fun _ r _ => legible r.val
  have hfull : ∀ k, RecFull (p.raw.at rd.dump.now k) := fun k => liveAt_full (hp.full k)
  obtain ⟨ks₁, ks₂, hn₁, hn₂, hk₁, hk₂, hcmds⟩ := snapshotCmds_split hp hR
  -- up to the command that recreates the value the clock shows `S`
  let still : Surroundings := fun _ => Env.plain S
  have h1 :=
    apply_snapshot cfg still rd.dump hfull hlegible ks₁ (p := (ConnState.internal, s)) hn₁ hs
  generalize viewCmds rd.dump (p.raw.at rd.dump.now) ks₁ = pre at hcmds h1
  obtain ⟨-, h2⟩ := apply_write (restoreCmd_write (hfull k r hR) (legible r.val)) cfg still h1.good
  obtain ⟨j, -, hrun, -⟩ := restoreWrite_run rd.dump k (hfull k r hR) still.clock
    (Sys.applyAll cfg still pre (ConnState.internal, s)).2.world.store.raw
    (Sys.applyAll cfg still pre (ConnState.internal, s)).2.tick
  have hold : liveAt (still.clock j)
      ((Sys.applyAll cfg still pre (ConnState.internal, s)).2.world.store.raw k) = some x := by
    rw [h1.other k fun hm => absurd hm hk₁]; exact hx
  rw [hrun, hold] at h2
  -- and from then on `T`
  let added := Sys.applyAll cfg still (pre ++ [restoreCmd rd.dump k r.val]) (ConnState.internal, s)
  have hadded : added = Sys.apply cfg still (Sys.applyAll cfg still pre (ConnState.internal, s))
      (restoreCmd rd.dump k r.val) :=
    List.foldl_append ..
  rw [← hadded] at h2
  let E := jump S T added.2.tick
  have hsame : Sys.applyAll cfg E (pre ++ [restoreCmd rd.dump k r.val]) (ConnState.internal, s) =
      added :=
    applyAll_congr cfg _ _ fun n hn => congrArg Env.plain (if_pos hn)
  have hgone : liveAt T (added.2.world.store.raw k) = none := by
    have hd : (r.val.sent.over (some x)).deadline = x.deadline :=
      over_deadline (r := r.sent) (sent_ne_str hstr)
    rw [h2.raw]
    show liveAt T ((View.put _ k _) k) = none
    rw [View.put_self]
    exact Option.filter_eq_none_iff.2 fun y hy => by cases hy; simp [hd, hout]
  obtain ⟨hg, hlate⟩ := deadline_too_late cfg E hacc h2.good (if_neg (lt_irrefl _)) hgone
  refine ⟨added.2.tick, ?_⟩
  have hcut : snapshotCmds rd.dump p =
      (pre ++ [restoreCmd rd.dump k r.val]) ++ (r.deadline.map (deadlineCmd k)).toList ++
      viewCmds rd.dump (p.raw.at rd.dump.now) ks₂ := by rw [hcmds]; simp [restoreCmds]
  rw [sync_cmds cfg _ hp hrd, hcut, Sys.applyAll, List.foldl_append, List.foldl_append]
  show liveAt T
    ((Sys.applyAll cfg E _ (Sys.applyAll cfg E _ (Sys.applyAll cfg E _ _))).2.world.store.raw k) =
      none
  rw [hsame,
    (apply_snapshot cfg E rd.dump hfull hlegible ks₂ hn₂ hg).other k fun hm => absurd hm hk₂]
  exact hlate

/-! ## Any number of syncs -/

variable (E)

/-- The replica connects again and again. -/
def resync (rds : List Round) (s : Sys σ) : Sys σ :=
  rds.foldl (fun s rd => syncOnce cfg E rd.chunks s) s

/-- After every one of the syncs the replica has the primary's keyspace. -/
def InSync (T : Nat) (p : View σ) : List Round → Sys σ → Prop
  | [], _ => True
  | rd :: rds, s =>
    (syncOnce cfg E rd.chunks s).world.store.raw.at T = p.at T ∧
      InSync T p rds (syncOnce cfg E rd.chunks s)

theorem resync_tick [Readable σ] (hp : p.Good) (rds : List Round) :
    ∀ {s : Sys σ}, s.world.store.Good →
    (∀ rd ∈ rds, rd.Taken T p) → s.tick ≤ (resync cfg E rds s).tick := by
  induction rds with
  | nil => exact fun _ _ => le_rfl
  | cons rd rds ih =>
    intro s hs hsend
    have h := sync_restored cfg E hp hs (hsend rd List.mem_cons_self)
    exact h.tick.trans (ih h.good fun x hx => hsend x (List.mem_cons_of_mem _ hx))

/-- A replica in sync stays so, if there are no lists, and what is live is sent as it is. -/
theorem resync_again [Readable σ] (hST : S ≤ T) (hp : p.Good)
    (hlists : ∀ k, ∀ r ∈ p.raw.at T k, r.arrives T (some r)) (rds : List Round) :
    ∀ {s : Sys σ}, s.world.store.Good → (∀ rd ∈ rds, rd.Taken T p ∧ Lapses T rd.dump p.raw) →
      (∀ t ∈ E.times s.tick (resync cfg E rds s).tick, S ≤ t ∧ t ≤ T) →
      s.world.store.raw.at T = p.raw.at T →
      InSync cfg E T p.raw rds s := by
  induction rds with
  | nil => exact fun _ _ _ _ => trivial
  | cons rd rds ih =>
    intro s hs hsend htimes hsync
    obtain ⟨hrd, hlapses⟩ := hsend rd List.mem_cons_self
    have hsend' : ∀ x ∈ rds, x.Taken T p ∧ Lapses T x.dump p.raw :=
      fun x hx => hsend x (List.mem_cons_of_mem _ hx)
    have hr := sync_restored cfg E hp hs hrd
    have hlater := resync_tick cfg E hp rds hr.good fun x hx => (hsend' x hx).1
    have hreplaces : Replaces S T rd.dump p.raw s.world.store.raw := by
      intro k
      cases hk : p.raw.at T k with
      | none => exact .inl ((congrFun hsync k).trans hk)
      | some r =>
        obtain ⟨hraw, hlive⟩ := liveAt_eq_some.1 ((congrFun hsync k).trans hk)
        have hS : s.world.store.raw.at S k = some r := by
          rw [View.at, hraw]
          exact liveAt_some (not_expired hST hlive)
        show r.arrives T _
        rw [hS]
        exact hlists k r hk
    have hone :=
      sync_replaces cfg E hp hs hrd (fun t ht =>
        htimes t (E.times_mono le_rfl hlater ht)) hlapses hreplaces
    exact ⟨hone, ih hr.good hsend' (fun t ht => htimes t (E.times_mono hr.tick le_rfl ht)) hone⟩

/-- What a replica in sync needs to stay so, already when the clock stands still. -/
theorem lapses_of_inSync [Readable σ] (hp : p.Good) (hT : ∀ i j, ∀ t ∈ E.times i j, t = T)
    (rds : List Round) :
    ∀ {s : Sys σ}, s.world.store.Good → (∀ rd ∈ rds, rd.Taken T p) → InSync cfg E T p.raw rds s →
      ∀ rd ∈ rds, Lapses T rd.dump p.raw := by
  induction rds with
  | nil => exact fun _ _ _ _ h => by cases h
  | cons rd rds ih =>
    intro s hs hsend hin x hx
    have hrd := hsend rd List.mem_cons_self
    rcases List.mem_cons.1 hx with rfl | hx
    · exact ((sync_iff cfg E hp hs hrd (hT _ _)).1 hin.1).1
    · exact ih (sync_restored cfg E hp hs hrd).good
        (fun y hy => hsend y (List.mem_cons_of_mem _ hy)) hin.2 x hx

theorem lists_of_inSync [Readable σ] (hp : p.Good) (hT : ∀ i j, ∀ t ∈ E.times i j, t = T)
    {rds : List Round} {s : Sys σ} (hs : s.world.store.Good) (hsend : ∀ rd ∈ rds, rd.Taken T p)
    (hsync : s.world.store.raw.at T = p.raw.at T) (hin : InSync cfg E T p.raw rds s) :
    rds = [] ∨ ∀ k, ∀ r ∈ p.raw.at T k, isList r.val = false := by
  cases rds with
  | nil => exact .inl rfl
  | cons rd rds =>
    have hreplaces := ((sync_iff cfg E hp hs (hsend rd List.mem_cons_self) (hT _ _)).1 hin.1).2
    refine .inr fun k r hr => ?_
    have hk := hreplaces k
    rw [hsync, Option.mem_def.1 hr] at hk
    exact (arrives_self (liveAt_eq_some.1 hr).2 hk).1 hk

/-- What replaces the replica's records when the clock stands still at `T` does so too when it
starts at `S`, unless one of them runs out on the way. -/
theorem Replaces.earlier {D : Env} {p s : View σ} (hST : S ≤ T) (h : Replaces T T D p s)
    (hout : ∀ k r x, p.at T k = some r → Accepted r.deadline → r.val.isStr = false →
      s.at S k = some x → expired T x.deadline = false) : Replaces S T D p s := by
  intro k
  have hk := h k
  cases hr : p.at T k with
  | none => rw [hr] at hk; exact hk
  | some r =>
    rw [hr] at hk
    show r.arrives T (s.at S k)
    cases hx : s.at S k with
    | none =>
      -- nothing then, and nothing since
      have hgone : liveAt T (s.at S k) = s.at T k := liveAt_liveAt hST _
      rw [hx] at hgone
      rwa [← hgone] at hk
    | some x =>
      obtain ⟨hraw, -⟩ := liveAt_eq_some.1 hx
      cases hdead : expired T x.deadline with
      | false =>
        rwa [View.at, hraw, liveAt_some hdead] at hk
      | true =>
        have hgone : s.at T k = none := by
          rw [View.at, hraw]
          exact Option.filter_eq_none_iff.2 fun y hy => by cases hy; simp [hdead]
        rw [hgone] at hk
        obtain ⟨hv, hacc⟩ := arrives_none.1 hk
        cases hstr : r.val.isStr with
        | true => exact ⟨hv, .inl ⟨hacc, fun x' _ => ⟨absorbs_str hstr x', .inl hstr⟩⟩⟩
        | false =>
          rw [hout k r x hr hacc hstr hx] at hdead
          cases hdead

/-- **Full resync.** Any replica and primary, without memory bounds; the replica
connects any number of times between `S` and `T`, and each time the primary sends it a
snapshot. Each time the replica gets through the whole of it, and whatever the clock does
meanwhile has the primary's keyspace afterwards, exactly when the snapshots are within the
parser's limits, what lapses meanwhile is sent with its deadline, the first snapshot replaces
what the replica held and, if there are more, the primary has no list. -/
theorem resync_iff [Readable σ] (hST : S ≤ T) (hp : p.Good) (hs : s.world.store.Good)
    {rds : List Round} (hsend : ∀ x ∈ rd :: rds, x.Sends T p) :
    ((∀ x ∈ rd :: rds, x.Whole p) ∧ ∀ E : Surroundings, Monotone E.clock →
        (∀ t ∈ E.times s.tick (resync cfg E (rd :: rds) s).tick, S ≤ t ∧ t ≤ T) →
        InSync cfg E T p.raw (rd :: rds) s) ↔
      (∀ x ∈ rd :: rds, x.Fits p ∧ Lapses T x.dump p.raw) ∧
      Replaces S T rd.dump p.raw s.world.store.raw ∧
        (rds = [] ∨ ∀ k, ∀ r ∈ p.raw.at T k, isList r.val = false) := by
  have htaken : (∀ x ∈ rd :: rds, x.Fits p) → ∀ x ∈ rd :: rds, x.Taken T p :=
    fun h x hx => ⟨hsend x hx, h x hx⟩
  constructor
  · rintro ⟨hwhole, h⟩
    have hfits : ∀ x ∈ rd :: rds, x.Fits p :=
      fun x hx => (Round.whole_iff hp.routed x).1 (hwhole x hx)
    have hrd := htaken hfits rd List.mem_cons_self
    -- a clock that stands still at `T`
    let E : Surroundings := jump S T 0
    have hT : ∀ i j, ∀ t ∈ E.times i j, t = T := by
      rintro i j t ⟨n, -, -, e⟩
      rw [← e, jump_clock, if_neg (Nat.not_lt_zero n)]
    have hin := h E (jump_mono hST 0) fun t ht => by rw [hT _ _ t ht]; exact ⟨hST, le_rfl⟩
    refine ⟨fun x hx => ⟨hfits x hx, lapses_of_inSync cfg E hp hT _ hs (htaken hfits) hin x hx⟩, ?_,
      lists_of_inSync cfg E hp hT (sync_restored cfg E hp hs hrd).good
        (fun x hx => htaken hfits x (List.mem_cons_of_mem _ hx)) hin.1 hin.2⟩
    refine ((sync_iff cfg E hp hs hrd (hT _ _)).1 hin.1).2.earlier hST fun k r x hr hacc hstr hx =>
      ?_
    -- a clock that jumps while the record is restored
    by_contra hout
    obtain ⟨m, hm⟩ := sync_runs_out cfg hp hs hrd hr hacc hstr hx (Bool.not_eq_false _ ▸ hout)
    have htimes : ∀ i j, ∀ t ∈ (jump S T m).times i j, S ≤ t ∧ t ≤ T := by
      rintro i j t ⟨n, -, -, e⟩
      rw [← e, jump_clock]
      split_ifs <;> omega
    rw [(h (jump S T m) (jump_mono hST m) (htimes _ _)).1, hr] at hm
    cases hm
  · rintro ⟨hall, hfirst, hmore⟩
    have htaken := htaken fun x hx => (hall x hx).1
    have hrd := htaken rd List.mem_cons_self
    have hsend' : ∀ x ∈ rds, x.Taken T p ∧ Lapses T x.dump p.raw := fun x hx =>
      ⟨htaken x (List.mem_cons_of_mem _ hx), (hall x (List.mem_cons_of_mem _ hx)).2⟩
    refine ⟨fun x hx => (Round.whole_iff hp.routed x).2 (hall x hx).1, fun E _ htimes => ?_⟩
    have hr := sync_restored cfg E hp hs hrd
    have hlater := resync_tick cfg E hp rds hr.good fun x hx => (hsend' x hx).1
    have hsync :=
      sync_replaces cfg E hp hs hrd (fun t ht => htimes t (E.times_mono le_rfl hlater ht))
      (hall rd List.mem_cons_self).2 hfirst
    refine ⟨hsync, ?_⟩
    rcases hmore with rfl | hlists
    · trivial
    · refine resync_again cfg E hST hp (fun k r hk => ?_) rds hr.good hsend'
        (fun t ht => htimes t (E.times_mono hr.tick le_rfl ht)) hsync
      have hk' := hfirst k
      rw [Option.mem_def.1 hk] at hk'
      exact (arrives_self (liveAt_eq_some.1 hk).2 hk').2 (hlists k r hk)

end

/-- A store filled by calls. -/
def holding (run : List (Env × Call Int)) : Store Int :=
  (runCalls run ⟨Store.new 1 0 (fun _ => 0) (fun _ _ _ => 0), none⟩).store

theorem holding_good (run : List (Env × Call Int)) : (holding run).Good :=
  runCalls_good run (new_good ..)

/-- A string with a deadline, and a set. -/
def noLists : Store Int :=
  holding [(Env.plain 0, .key (lit "s") (.set (lit "v") { expireAt := some 10 })),
    (Env.plain 1, .key (lit "m") (.sadd [lit "a"]))]

/-- An empty replica reads its snapshot twice. -/
theorem resync_noLists :
    InSync loggingConfig (fun _ => Env.plain 7) 7 noLists.raw
      [⟨Env.plain 5, [noLists.dumpCommands (Env.plain 5)]⟩,
        ⟨Env.plain 6, [noLists.dumpCommands (Env.plain 6)]⟩]
      (Sys.empty loggingConfig (fun _ => 0) (fun _ _ _ => 0) none) := by
  have hgood : noLists.Good := holding_good _
  have hempty :
      (Sys.empty loggingConfig (fun _ => 0) (fun _ _ _ => 0) none : Sys Int).world.store.raw =
        fun _ => none :=
    Sys.empty_raw ..
  have hall : ∀ k ∈ noLists.keys (Env.plain 7), ∀ r ∈ noLists.raw.at 7 k,
      (r.val.sent = r.val ∧ Accepted r.deadline) ∧ isList r.val = false := by decide +kernel
  have hlive : ∀ k, ∀ r ∈ noLists.raw.at 7 k,
      (r.val.sent = r.val ∧ Accepted r.deadline) ∧ isList r.val = false :=
    fun k r hr =>
      hall k ((Store.mem_keys hgood.routed (Env.plain 7)).2 (Option.isSome_of_eq_some hr)) r hr
  refine ((resync_iff loggingConfig (le_refl 7) hgood (Sys.empty_good rfl ..) ?_).2
    ⟨?_, ?_, .inr fun k r hr => (hlive k r hr).2⟩).2 (fun _ => Env.plain 7) monotone_const
      (fun t ht => ?_)
  · have h₁ : Round.Sends 7 noLists ⟨Env.plain 5, [noLists.dumpCommands (Env.plain 5)]⟩ :=
      ⟨List.append_nil _, by decide⟩
    have h₂ : Round.Sends 7 noLists ⟨Env.plain 6, [noLists.dumpCommands (Env.plain 6)]⟩ :=
      ⟨List.append_nil _, by decide⟩
    simp [h₁, h₂]
  · have h₁ : ∀ a ∈ snapshotCmds (Env.plain 5) noLists, a.Fits := by decide +kernel
    have h₂ : ∀ a ∈ snapshotCmds (Env.plain 6) noLists, a.Fits := by decide +kernel
    intro x hx
    rcases List.mem_pair.1 hx with rfl | rfl
    · exact ⟨h₁, lapses_of_le (by decide) (by decide)⟩
    · exact ⟨h₂, lapses_of_le (by decide) (by decide)⟩
  · rw [hempty]
    exact replaces_empty fun k r hr => (hlive k r hr).1
  · obtain ⟨n, -, -, e⟩ := ht
    exact ⟨e.le, e.ge⟩

/-- The primary has a list, the replica another key. -/
theorem resync_keeps_and_doubles :
    let primary := holding [(Env.plain 0, .key (lit "l") (.push [lit "a"] false))]
    let replica : Sys Int :=
      ⟨⟨holding [(Env.plain 0, .key (lit "old") (.set (lit "v") {}))], none⟩, 0⟩
    let sync := syncOnce loggingConfig (fun _ => Env.plain 0) [primary.dumpCommands (Env.plain 0)]
    -- the first sync brings the list and leaves the other key
    (sync replica).world.store.raw.at 0 (lit "l") = some ⟨.list [lit "a"], none⟩ ∧
      (sync replica).world.store.raw.at 0 (lit "old") = some ⟨.str (lit "v"), none⟩ ∧
      primary.raw.at 0 (lit "old") = none ∧
      -- the second one appends the list to itself
      primary.raw.at 0 (lit "l") = some ⟨.list [lit "a"], none⟩ ∧
      (sync (sync replica)).world.store.raw.at 0 (lit "l") =
        some ⟨.list [lit "a", lit "a"], none⟩ := by
  decide +kernel

end Inmem.L4
