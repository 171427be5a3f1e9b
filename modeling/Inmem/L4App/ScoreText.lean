import Inmem.L4App.Deadlines
import Inmem.L4App.Snapshot

/-!
# The text of a score

`fmt_score` prints an integer score through `s as i64`, which saturates. `ZSCORE`,
`ZRANGE WITHSCORES` and the `ZADD` of a snapshot all use this text, and the last is
parsed again when the snapshot is loaded.

* `fmtScore_int`: what is printed for an integer.
* `zscore_reply`, `zrange_reply`: the replies of the two commands.
* `integer_scores_survive_iff`: the texts denote the stored scores, and the `ZADD`
  restores them, exactly if all of them are in the `i64` range.

The scores here are the integers.
-/
namespace Inmem.L4

open Inmem.Core Inmem.L1 Inmem.L1.Resp Inmem.L3 Inmem.Core.Decimal

/-! ## The text -/

/-- `s as i64` -/
def saturate (s : Int) : Int := max i64Min (min s i64Max)

theorem saturate_eq_iff {s : Int} : saturate s = s ↔ InI64 s := by
  unfold saturate InI64 i64Min i64Max
  omega

/-- The text is the numeral of the saturated score. -/
theorem fmtScore_int (s : Int) : fmtScore s = intText (saturate s) := by
  have hwhole : Score.feq s (Score.trunc s) = true := beq_self_eq_true s
  rw [fmtScore, hwhole]
  rfl

/-- It denotes the score exactly in the `i64` range. -/
theorem fmtScore_denotes {s : Int} : readInt (fmtScore s) = some s ↔ InI64 s := by
  rw [fmtScore_int, readInt_intText, Option.some.injEq, saturate_eq_iff]

/-! ## The replies -/

section
variable {σ : Type} [Score σ] {s : Sys σ} {k : Bytes} {z : Finmap fun _ : Bytes => σ}
    {d : Option Nat}

/-- `ZSCORE` on a sorted set replies with the text of the member's score. -/
theorem zscore_reply (cfg : Config) (st : ConnState) (E : Surroundings)
    (hk : s.raw.at (E.clock s.tick) k = some ⟨.zset z, d⟩) (m : Bytes) :
    (s.exec E (dispatch cfg st (lit "ZSCORE") [k, m])).1.1.reply =
      .bulk ((z.lookup m).map fmtScore) := by
  have hans : (s.call E (.key k (.zscore m))).1 = .ok (z.lookup m) := by
    rw [(calm_key k (.zscore m) ⟨rfl, trivial⟩ E s).1,
      show liveAt (E.clock s.tick) (s.raw k) = _ from hk]
    rfl
  have hname : CmdName.ofName (upperName (lit "ZSCORE")) = some .zscore := by decide
  rw [dispatch, hname]
  dsimp only [storeCmd, keep]
  rw [Prog.bind_assoc, exec_key, hans]
  rfl

/-- `ZRANGE WITHSCORES` on a sorted set lists members and texts of scores in turn. -/
theorem zrange_reply (cfg : Config) (st : ConnState) (E : Surroundings)
    (hk : s.raw.at (E.clock s.tick) k = some ⟨.zset z, d⟩) {start stop : Bytes} {i j : Int}
    (hi : parseI64 start = some i) (hj : parseI64 stop = some j) :
    (s.exec E (dispatch cfg st (lit "ZRANGE") [k, start, stop, lit "WITHSCORES"])).1.1.reply =
      .array ((rankRange (rankList z) i j).flatMap fun p => [.bulk (some p.1),
        .bulk (some (fmtScore p.2))]) := by
  have hans : (s.call E (.key k (.zrange i j))).1 = .ok (rankRange (rankList z) i j) := by
    rw [(calm_key k (.zrange i j) ⟨rfl, trivial⟩ E s).1,
      show liveAt (E.clock s.tick) (s.raw k) = _ from hk]
    rfl
  have hname : CmdName.ofName (upperName (lit "ZRANGE")) = some .zrange := by decide
  have hword : ([lit "WITHSCORES"].head?.any fun a => eqCi a (lit "withscores")) = true := by decide
  rw [dispatch, hname]
  dsimp only [storeCmd, keep]
  rw [zrangeCmd, hi, hj]
  dsimp only
  rw [Prog.bind_assoc, exec_key, hans, hword]
  rfl

end

section
variable {σ : Type} {l : List (Ranked σ)} {p : Bytes × σ}

theorem mem_cut {a b : Nat} (h : p ∈ ((l.drop a).take b).map Ranked.entry) :
    toLex (p.2, p.1) ∈ l := by
  obtain ⟨q, hq, rfl⟩ := List.mem_map.1 h
  exact List.mem_of_mem_drop (List.mem_of_mem_take hq)

/-- What `ZSet::range` lists is in the index. -/
theorem mem_rankRange {i j : Int} (h : p ∈ rankRange l i j) : toLex (p.2, p.1) ∈ l := by
  unfold rankRange at h
  dsimp only at h
  split_ifs at h <;> first | exact absurd h List.not_mem_nil | exact mem_cut h

end

/-! ## The scores -/

/-- The three uses of the text keep the scores of the sorted set `z` under the key `k`:
`ZSCORE` and `ZRANGE WITHSCORES` reply with numerals that denote them, and the command that
the snapshot has for the key restores them, and with them the order, where the key is not
there. -/
structure ScoresSurvive (cfg : Config) (st : ConnState) (E : Surroundings) (s : Sys Int) (k : Bytes)
    (z : Finmap fun _ : Bytes => Int) : Prop where
  zscore : ∀ m n, z.lookup m = some n →
    ∃ t, (s.exec E (dispatch cfg st (lit "ZSCORE") [k, m])).1.1.reply = .bulk (some t) ∧
    readInt t = some n
  zrange : ∀ start stop i j, parseI64 start = some i → parseI64 stop = some j →
    ∃ l : List (Bytes × Bytes),
      (s.exec E (dispatch cfg st (lit "ZRANGE") [k, start, stop, lit "WITHSCORES"])).1.1.reply =
        .array (l.flatMap fun p => [.bulk (some p.1), .bulk (some p.2)]) ∧
      ∀ p ∈ l, ∃ n, z.lookup p.1 = some n ∧ readInt p.2 = some n
  snapshot : ∀ (env : Env) (p : ConnState × Sys Int), p.2.world.store.Good → p.2.raw k = none →
    (Sys.apply cfg E p (restoreCmd env k (.zset z))).2.raw k = some ⟨.zset z, none⟩

/-- **Integer scores.** The scores of a sorted set survive being printed if and only if
all of them are in the `i64` range. -/
theorem integer_scores_survive_iff (cfg : Config) (st : ConnState) (E : Surroundings) (s : Sys Int)
    (k : Bytes) (z : Finmap fun _ : Bytes => Int) (d : Option Nat) (hz : z ≠ ∅)
    (hk : s.raw.at (E.clock s.tick) k = some ⟨.zset z, d⟩) :
    ScoresSurvive cfg st E s k z ↔ ∀ m n, z.lookup m = some n → InI64 n := by
  constructor
  · intro h m n hn
    obtain ⟨t, hreply, ht⟩ := h.zscore m n hn
    rw [zscore_reply cfg st E hk, hn] at hreply
    cases hreply
    exact fmtScore_denotes.1 ht
  · intro hrange
    refine ⟨fun m n hn => ?_, fun start stop i j hi hj => ?_, fun env p hg hnone => ?_⟩
    · refine ⟨fmtScore n, ?_, fmtScore_denotes.2 (hrange m n hn)⟩
      rw [zscore_reply cfg st E hk, hn]
      rfl
    · refine ⟨(rankRange (rankList z) i j).map fun p => (p.1, fmtScore p.2), ?_, fun q hq => ?_⟩
      · rw [zrange_reply cfg st E hk hi hj, List.flatMap_map]
      · obtain ⟨p, hp, rfl⟩ := List.mem_map.1 hq
        have hl := mem_rankList.1 (mem_rankRange hp)
        exact ⟨p.2, hl, fmtScore_denotes.2 (hrange p.1 p.2 hl)⟩
    · have hwhole : WholeScores (.zset z : Val Int) := by
        intro q hq
        exact ⟨(ofLex q).1, rfl, hrange _ _ (mem_rankList.1 hq)⟩
      have hcmd : writeCmd (restoreCmd env k (.zset z : Val Int)).1 (restoreCmd env k (.zset z)).2
          = some (restoreWrite env k (.zset z)) := restoreCmd_write hz hwhole.legible
      obtain ⟨-, hfollows⟩ := apply_write hcmd cfg E hg
      obtain ⟨j, -, hrun, -⟩ :=
        restoreWrite_run env k (v := .zset z) hz E.clock p.2.world.store.raw p.2.tick
      rw [hrun, hwhole.sent] at hfollows
      refine (congrFun hfollows.raw k).trans ((View.put_self ..).trans ?_)
      rw [show p.2.world.store.raw k = none from hnone]
      rfl

/-- A system with one sorted set, filled by `ZADD`. -/
def scored (args : List Bytes) : Sys Int := (ranAt 0 (lit "ZADD") (lit "z" :: args) emptySys).2

/-- The smallest score in the range and the largest that is a double. -/
def endScores : Finmap fun _ : Bytes => Int :=
  ((∅ : Finmap fun _ : Bytes => Int).insert (lit "a") 9223372036854774784).insert (lit "b")
    (-9223372036854775808)

theorem integer_scores_survive_ends :
    ScoresSurvive plainConfig ConnState.internal (fun _ => Env.plain 0)
      (scored [lit "9223372036854774784", lit "a", lit "-9223372036854775808", lit "b"])
        (lit "z") endScores := by
  refine (integer_scores_survive_iff plainConfig ConnState.internal (fun _ => Env.plain 0) _
    (lit "z") endScores none
    (by decide +kernel) (by decide +kernel)).2 fun m n hn => ?_
  unfold endScores at hn
  by_cases hb : m = lit "b"
  · rw [hb, Finmap.lookup_insert] at hn
    cases hn
    decide
  · rw [Finmap.lookup_insert_of_ne _ hb] at hn
    by_cases ha : m = lit "a"
    · rw [ha, Finmap.lookup_insert] at hn
      cases hn
      decide
    · rw [Finmap.lookup_insert_of_ne _ ha, Finmap.lookup_empty] at hn
      cases hn

/-- Two scores beyond the range print alike. So `ZSCORE` does not reply with the score,
and after the snapshot has been loaded the members are in the other order. -/
theorem big_scores_collapse :
    let stored := scored [lit "9223372036854775808", lit "b", lit "18446744073709551616", lit "a"]
    let loaded :=
      (replayFile loggingConfig (fun _ => Env.plain 0)
        (stored.world.store.dumpCommands (Env.plain 0))
      (Sys.empty loggingConfig (fun _ => 0) (fun _ _ _ => 0) none)).2
    encodeReply false (ranAt 0 (lit "ZSCORE") [lit "z", lit "b"] stored).1.1.reply =
      lit "$19\r\n9223372036854775807\r\n" ∧
      encodeReply false (ranAt 0 (lit "ZRANGE") [lit "z", lit "0", lit "-1"] stored).1.1.reply =
        lit "*2\r\n$1\r\nb\r\n$1\r\na\r\n" ∧
      encodeReply false (ranAt 0 (lit "ZRANGE") [lit "z", lit "0", lit "-1"] loaded).1.1.reply =
        lit "*2\r\n$1\r\na\r\n$1\r\nb\r\n" := by
  decide +kernel

end Inmem.L4
