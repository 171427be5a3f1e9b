import Inmem.L4App.LogSubset
import Inmem.L4App.Snapshot

/-!
# Which dumps can be loaded

The store bounds neither the size of a collection or string nor a deadline; the
parser that reads a dump back bounds the number and the length of the arguments,
and `PEXPIREAT` takes an `i64`.

* `WithinLimits`: the record is small enough, and its deadline early enough, for the
  commands that recreate it.
* `load_within_limits`: loaded into an empty store, each key is back with its deadline.
  (With which value is the matter of `Restore`; a score that is no integer, or too large,
  need not be written exactly.)
* `dump_loadable`: for every store that clients can build up, all of its dump is read and
  answered without an error, and brings every key back with its deadline, exactly
  when every live record is within the limits.
* `dump_drops_deadline`: a deadline that is not.
-/
namespace Inmem.L4

open Inmem.Core Inmem.L1 Inmem.L1.Resp Inmem.L3 Inmem.Core.Decimal

/-! ## Scores -/

/-- What the standard library documents of `f64`: a conversion to `i64` saturates, and
the text of an `i64` or of an `f64` reads back as some `f64`. -/
class Readable (σ : Type) [Score σ] : Prop where
  asI64_range : ∀ s : σ, InI64 (Score.asI64 s)
  parse_int : ∀ n, InI64 n → (Score.parse (intText n) : Option σ).isSome = true
  parse_display : ∀ s : σ, (Score.feq s (Score.trunc s) && Score.isFinite s) = false →
    (Score.parse (Score.display s) : Option σ).isSome = true
  display_length : ∀ s : σ, (Score.feq s (Score.trunc s) && Score.isFinite s) = false →
    ((Score.display s).length : Int) ≤ MAX_BULK_LEN

instance readableInt : Readable Int where
  asI64_range s := by
    show InI64 (max i64Min (min s i64Max))
    unfold InI64 i64Min i64Max
    omega
  parse_int n _ := by
    show (readInt (intText n)).isSome = true
    rw [readInt_intText]; rfl
  parse_display s h := by
    have : ((s == s) && true) = false := h
    simp at this
  display_length s h := by
    have : ((s == s) && true) = false := h
    simp at this

section
variable {σ : Type} [Score σ] [Readable σ]

theorem fmtScore_parse (s : σ) : (Score.parse (fmtScore s) : Option σ).isSome = true := by
  unfold fmtScore
  split
  · exact Readable.parse_int _ (Readable.asI64_range s)
  · rename_i h; exact Readable.parse_display s (Bool.eq_false_iff.2 h)

theorem fmtScore_length (s : σ) : ((fmtScore s).length : Int) ≤ MAX_BULK_LEN := by
  unfold fmtScore
  split
  · have hr := Readable.asI64_range s
    have hlen : (natText (Score.asI64 s).natAbs).length ≤ 19 :=
      natText_length (by decide) (by unfold InI64 i64Min i64Max at hr; omega)
    unfold intText MAX_BULK_LEN
    split
    · simp only [List.length_cons]; omega
    · omega
  · rename_i h; exact Readable.display_length s (Bool.eq_false_iff.2 h)

end

/-! ## The limits -/

section
variable {σ : Type} [Score σ]

theorem legible [Readable σ] (v : Val σ) : Legible v := by
  cases v with
  | zset z => exact fun p _ => fmtScore_parse (ofLex p).1
  | _ => trivial

/-- The byte strings in a value. -/
def Val.parts : Val σ → List Bytes
  | .str b => [b]
  | .list l => l
  | .hash h => (hashList h).flatMap fun p => [p.1, p.2]
  | .set s => setList s
  | .zset z => (rankList z).map fun p => (ofLex p).2

/-- How many arguments follow the key in the command that recreates a value: a
member of a sorted set comes with its score. -/
def Val.words : Val σ → Nat
  | .zset z => 2 * (rankList z).length
  | v => (Val.parts v).length

/-- The record is within what the parser and `PEXPIREAT` accept. -/
structure WithinLimits (key : Bytes) (r : Rec σ) : Prop where
  words : (Val.words r.val : Int) + 2 ≤ MAX_ARRAY_LEN
  key : (key.length : Int) ≤ MAX_BULK_LEN
  parts : ∀ b ∈ Val.parts r.val, (b.length : Int) ≤ MAX_BULK_LEN
  deadline : ∀ t ∈ r.deadline, (t : Int) ≤ i64Max

instance (key : Bytes) (r : Rec σ) : Decidable (WithinLimits key r) :=
  decidable_of_iff (((Val.words r.val : Int) + 2 ≤ MAX_ARRAY_LEN) ∧
    ((key.length : Int) ≤ MAX_BULK_LEN) ∧
      (∀ b ∈ Val.parts r.val, (b.length : Int) ≤ MAX_BULK_LEN) ∧ ∀ t ∈ r.deadline,
      (t : Int) ≤ i64Max)
    ⟨fun h => ⟨h.1, h.2.1, h.2.2.1, h.2.2.2⟩, fun h => ⟨h.words, h.key, h.parts, h.deadline⟩⟩

theorem restoreCmd_name (env : Env) (key : Bytes) (v : Val σ) :
    ((restoreCmd env key v).1.length : Int) ≤ MAX_BULK_LEN := by
  cases v with
  | str b => exact show ((lit "SET").length : Int) ≤ MAX_BULK_LEN by decide
  | list l => exact show ((lit "RPUSH").length : Int) ≤ MAX_BULK_LEN by decide
  | hash h => exact show ((lit "HSET").length : Int) ≤ MAX_BULK_LEN by decide
  | set s => exact show ((lit "SADD").length : Int) ≤ MAX_BULK_LEN by decide
  | zset z => exact show ((lit "ZADD").length : Int) ≤ MAX_BULK_LEN by decide

/-- What the command that recreates a value says after the key. -/
theorem restoreCmd_body [Readable σ] (env : Env) (key : Bytes) (v : Val σ) :
    ∃ body, (restoreCmd env key v).2 = key :: body ∧ body.length = Val.words v ∧
      ((∀ b ∈ body, (b.length : Int) ≤ MAX_BULK_LEN) ↔
        ∀ b ∈ Val.parts v, (b.length : Int) ≤ MAX_BULK_LEN) := by
  cases v with
  | str b => exact ⟨[b], rfl, rfl, Iff.rfl⟩
  | list l => exact ⟨l, rfl, rfl, Iff.rfl⟩
  | hash h =>
    have hperm := (Shard.hashOrder_perm env key h).flatMap_right fun p => [p.1, p.2]
    exact ⟨_, rfl, hperm.length_eq, forall_congr' fun b => by rw [hperm.mem_iff]; rfl⟩
  | set s =>
    have hperm := Shard.setOrder_perm env key s
    exact ⟨_, rfl, hperm.length_eq, forall_congr' fun b => by rw [hperm.mem_iff]; rfl⟩
  | zset z =>
    refine ⟨_, rfl, length_flatMap_pair (fun p : Ranked σ => fmtScore (ofLex p).1)
      (fun p => (ofLex p).2) _, ?_⟩
    constructor
    · intro h b hb
      obtain ⟨p, hp, rfl⟩ := List.mem_map.1 hb
      exact h _ (List.mem_flatMap.2 ⟨p, hp, by simp⟩)
    · intro h b hb
      obtain ⟨p, hp, hb⟩ := List.mem_flatMap.1 hb
      rcases List.mem_pair.1 hb with rfl | rfl
      · exact fmtScore_length _
      · exact h _ (List.mem_map.2 ⟨p, hp, rfl⟩)

/-- The command that recreates a value is one the parser accepts. -/
theorem restoreCmd_fits_iff [Readable σ] (env : Env) (key : Bytes) (v : Val σ) :
    (restoreCmd env key v).Fits ↔ (Val.words v : Int) + 2 ≤ MAX_ARRAY_LEN ∧
      (key.length : Int) ≤ MAX_BULK_LEN ∧
      ∀ b ∈ Val.parts v, (b.length : Int) ≤ MAX_BULK_LEN := by
  obtain ⟨body, hbody, hlen, hparts⟩ := restoreCmd_body env key v
  have hname := restoreCmd_name env key v
  rw [Argv.Fits, Resp.Fits, hbody, ← hparts, ← hlen]
  simp only [List.length_cons, List.forall_mem_cons, hname, true_and]
  constructor
  · rintro ⟨h1, h2⟩; exact ⟨by omega, h2⟩
  · rintro ⟨h1, h2⟩; exact ⟨by omega, h2⟩

/-- All commands of a record within the limits are accepted by the parser. -/
theorem WithinLimits.fits [Readable σ] {env : Env} {key : Bytes} {r : Rec σ}
    (h : WithinLimits key r) : ∀ a ∈ restoreCmds env key r, a.Fits := by
  intro a ha
  rcases List.mem_cons.1 ha with rfl | ha
  · exact (restoreCmd_fits_iff env key r.val).2 ⟨h.words, h.key, h.parts⟩
  · obtain ⟨t, ht, rfl⟩ := Option.map_eq_some_iff.1 (Option.mem_toList.1 ha)
    exact deadlineCmd_fits h.key (h.deadline t ht)

variable (cfg : Config) (E : Surroundings)

/-! ## The dump -/

/-- Every command of a list is answered, from some state. -/
theorem mem_answers (cmds : List Argv) {a : Argv} (ha : a ∈ cmds) : ∀ p : ConnState × Sys σ,
    ∃ q : ConnState × Sys σ, (q.2.exec E (dispatch cfg q.1 a.1 a.2)).1.1 ∈
      answers cfg E cmds p := by
  induction cmds with
  | nil => cases ha
  | cons b cmds ih =>
    intro p
    rcases List.mem_cons.1 ha with rfl | ha
    · exact ⟨p, List.mem_cons_self⟩
    · obtain ⟨q, hq⟩ := ih ha (Sys.apply cfg E p b)
      exact ⟨q, List.mem_cons_of_mem _ hq⟩

omit [Score σ] in
/-- Whether a record has expired depends on its deadline. -/
theorem live_deadline (t : Nat) (x : Option (Rec σ)) :
    (liveAt t x).map Rec.deadline = (x.map Rec.deadline).filter fun d => !expired t d := by
  cases x with
  | none => rfl
  | some r =>
    simp only [liveAt, Option.filter_some, Option.map_some]
    split <;> rfl

/-- The dump is read and answered without an error only if the records are within the limits. -/
theorem limits_of_loaded [Readable σ] {s : Store σ} (hr : s.Routed) {env : Env}
    (p : ConnState × Sys σ) (hparse : ∀ a ∈ snapshotCmds env s, a.Fits)
    (hok : ∀ o ∈ answers cfg E (snapshotCmds env s) p, ∀ e, o.reply ≠ .error e) {k : Bytes}
    {r : Rec σ} (h : s.raw.at env.now k = some r) : WithinLimits k r := by
  obtain ⟨h1, h2, h3⟩ :=
    (restoreCmd_fits_iff env k r.val).1 (hparse _ (mem_snapshotCmds hr h List.mem_cons_self))
  refine ⟨h1, h2, h3, fun t ht => ?_⟩
  by_contra hlt
  have hcmd : deadlineCmd k t ∈ snapshotCmds env s :=
    mem_snapshotCmds hr h
      (List.mem_cons_of_mem _ (by rw [Option.mem_def.1 ht]; exact List.mem_singleton_self _))
  obtain ⟨q, hq⟩ := mem_answers cfg E _ hcmd p
  rw [deadlineCmd_refused cfg q.1 k (Int.not_le.1 hlt)] at hq
  exact hok _ hq _ rfl

/-- The dump of a store whose live records are within the limits, loaded into an empty
store: every key is back with its deadline, and every command was a write. -/
theorem load_within_limits [Readable σ] {s : Store σ} (hg : s.Good) {env : Env}
    (hlim : ∀ k r, s.raw.at env.now k = some r → WithinLimits k r) {p : ConnState × Sys σ}
    (hp : p.2.world.store.Good) (hempty : p.2.world.store.raw = fun _ => none) :
    (∀ T, env.now ≤ T →
      ∀ k, ((Sys.applyAll cfg E (snapshotCmds env s) p).2.world.store.raw.at T k).map Rec.deadline =
        (s.raw.at T k).map Rec.deadline) ∧
      ∀ o ∈ answers cfg E (snapshotCmds env s) p, o.persist = true := by
  have hload := apply_dump cfg E hg env (fun _ r _ => legible r.val) p hp
  refine ⟨fun T hT k => ?_, hload.writes
    (fun k _ => congrFun hempty k) fun k _ r hr => (hlim k r hr).deadline⟩
  have hk : ((Sys.applyAll cfg E (snapshotCmds env s) p).2.world.store.raw k).map Rec.deadline =
      (s.raw.at env.now k).map Rec.deadline := by
    rw [hload.raw_sent hempty (fun k hk => (Store.mem_keys hg.routed env).2 hk)]
    cases hr : s.raw.at env.now k with
    | none => rfl
    | some r => rw [Option.map_some, Rec.sent_accepted (hlim k r hr).deadline]; rfl
  show (liveAt T _).map Rec.deadline = _
  rw [live_deadline, hk, ← live_deadline, ← View.at_at hT]
  rfl

/-- **Which dumps can be loaded.** Whatever commands clients send to an unbounded store,
and whenever it is dumped and the dump replayed into an empty one: every command of
the dump is accepted by the parser, none is answered with an error, all of them are
applied and every key is back with its deadline, if and only if every live record is
within the limits of the parser and of `PEXPIREAT`. -/
theorem dump_loadable [Readable σ] (cfg : Config) (shards : Nat) (router : Bytes → UInt64)
    (hasher : Nat → Nat → Bytes → UInt64) (file : Option Bytes) (E₀ : Surroundings) (start : Nat)
    (cmds : List (ConnState × Argv)) (env : Env) (cfg' : Config) (hmem : cfg'.maxmemory = 0)
    (router' : Bytes → UInt64) (hasher' : Nat → Nat → Bytes → UInt64) (file' : Option Bytes)
    (E : Surroundings) :
    let dumped :=
      (serveAll cfg E₀ cmds
        (⟨⟨Store.new shards 0 router hasher, file⟩, start⟩ : Sys σ)).2.world.store
    let empty : Sys σ := Sys.empty cfg' router' hasher' file'
    let replayed := replayFile cfg' E (dumped.dumpCommands env) empty
    ((∀ a ∈ dumped.dumpArgs env, parseCommand (encodeArgs a) =
      .ok (some (a, (encodeArgs a).length))) ∧
        (∀ o ∈ answers cfg' E (frames (dumped.dumpCommands env)) (ConnState.internal, empty), ∀ e,
          o.reply ≠ .error e) ∧
        replayed.1 = (dumped.dumpArgs env).length ∧
        ∀ T, env.now ≤ T → ∀ k, (replayed.2.world.store.raw.at T k).map Rec.deadline =
          (dumped.raw.at T k).map Rec.deadline) ↔
      ∀ k r, dumped.raw.at env.now k = some r → WithinLimits k r := by
  intro dumped empty replayed
  have hg : dumped.Good := serveAll_good cfg E₀ cmds (new_good shards router hasher)
  have hargs := dumpArgs_cmds hg.routed env
  have hempty : empty.world.store.raw = fun _ => none := Sys.empty_raw ..
  -- the parser accepts the commands exactly if they fit, and then it finds all of them
  have hparse :
      (∀ a ∈ dumped.dumpArgs env, parseCommand (encodeArgs a) =
        .ok (some (a, (encodeArgs a).length))) ↔
      ∀ a ∈ snapshotCmds env dumped, a.Fits := by
    rw [hargs]
    simp only [List.forall_mem_map, parse_encodeArgs_iff]
    rfl
  have hframes : (∀ a ∈ snapshotCmds env dumped, a.Fits) →
      frames (dumped.dumpCommands env) = snapshotCmds env dumped := fun h => by
    rw [dumpCommands_eq hg.routed, frames_encodeAll _ h]
  rw [hparse]
  constructor
  · rintro ⟨hfits, hok, -, -⟩ k r hk
    rw [hframes hfits] at hok
    exact limits_of_loaded cfg' E hg.routed _ hfits hok hk
  · intro hlim
    have hfits : ∀ a ∈ snapshotCmds env dumped, a.Fits := by
      intro a ha
      obtain ⟨k, r, hk, ha⟩ := snapshotCmds_cases ha
      exact (hlim k r hk).fits a ha
    obtain ⟨hdead, hwrites⟩ := load_within_limits cfg' E hg hlim (p := (ConnState.internal, empty))
      (Sys.empty_good hmem router' hasher' file') hempty
    refine ⟨hfits, ?_, ?_, ?_⟩
    · rw [hframes hfits]
      intro o ho
      exact answers_clean cfg' E _ _ o ho (hwrites o ho)
    · simp only [replayed, replayFile_eq]
      rw [hframes hfits, hargs, List.length_map]
    · simp only [replayed, replayFile_eq]
      rw [hframes hfits]
      exact hdead

end

/-- The largest `PX` there is, one millisecond after the epoch: the deadline is 2⁶³. -/
def farDeadline : List (ConnState × Argv) :=
  [(ConnState.new 1 true, lit "SET", [lit "k", lit "v", lit "PX", lit "9223372036854775807"])]

/-- The dump restores the key without its deadline. -/
theorem dump_drops_deadline :
    let dumped := (serveAll loggingConfig (fun _ => Env.plain 1) farDeadline
      (⟨⟨Store.new 1 0 (fun _ => 0) (fun _ _ _ => 0), none⟩, 0⟩ : Sys Int)).2.world.store
    let empty : Sys Int := Sys.empty loggingConfig (fun _ => 0) (fun _ _ _ => 0) none
    let dump := dumped.dumpCommands (Env.plain 2)
    let replayed := replayFile loggingConfig (fun _ => Env.plain 3) dump empty
    (answers loggingConfig (fun _ => Env.plain 3) (frames dump) (ConnState.internal, empty)).map
        (fun o => encodeReply false o.reply) =
      [lit "+OK\r\n", lit "-ERR value is not an integer or out of range\r\n"] ∧
      (dumped.raw.at 3 (lit "k")).map Rec.deadline = some (some 9223372036854775808) ∧
      (replayed.2.world.store.raw.at 3 (lit "k")).map Rec.deadline = some none := by
  decide +kernel

/-- A list with a deadline. -/
def shortList : List (ConnState × Argv) :=
  [(ConnState.new 1 true, lit "RPUSH", [lit "l", lit "a", lit "b"]),
    (ConnState.new 1 true, lit "PEXPIRE", [lit "l", lit "9"])]

/-- It is within the limits, so it is back. -/
theorem dump_loadable_list :
    let dumped := (serveAll loggingConfig (fun _ => Env.plain 1) shortList
      (⟨⟨Store.new 1 0 (fun _ => 0) (fun _ _ _ => 0), none⟩, 0⟩ : Sys Int)).2.world.store
    let replayed :=
      replayFile loggingConfig (fun _ => Env.plain 3) (dumped.dumpCommands (Env.plain 2))
      (Sys.empty loggingConfig (fun _ => 0) (fun _ _ _ => 0) none : Sys Int)
    ∀ k, (replayed.2.world.store.raw.at 5 k).map Rec.deadline =
      (dumped.raw.at 5 k).map Rec.deadline := by
  have hgood := serveAll_good loggingConfig (fun _ => Env.plain 1) shortList
    (s := (⟨⟨Store.new 1 0 (fun _ => 0) (fun _ _ _ => 0), none⟩, 0⟩ : Sys Int)) (new_good ..)
  refine ((dump_loadable (σ := Int) loggingConfig 1 (fun _ => 0) (fun _ _ _ => 0) none
    (fun _ => Env.plain 1) 0 shortList
    (Env.plain 2) loggingConfig rfl (fun _ => 0) (fun _ _ _ => 0) none
      (fun _ => Env.plain 3)).2 ?_).2.2.2 5 (by decide)
  exact (forall_live_iff hgood.routed).2 (by decide +kernel)

end Inmem.L4
