import Inmem.L3Store.Refine

/-!
# What a snapshot contains

`dumpArgs_eq`: the commands of a snapshot are those of each live key, one key
after the other; which commands those are depends on the key's record only (and
on the iteration order of the hash types).
-/
namespace Inmem.L3

open Inmem.L1 Inmem.L1.Resp Inmem.Core.Decimal
open Inmem.L2 (FlatMap)

variable {σ : Type} [Score σ]

/-- `recreateArgs` on the abstract value. -/
def recArgs (env : Env) (key : Bytes) : Val σ → List Bytes
  | .str v => [lit "SET", key, v]
  | .list l => lit "RPUSH" :: key :: l
  | .hash h => lit "HSET" :: key :: (env.hashOrder key h).flatMap fun p => [p.1, p.2]
  | .set s => lit "SADD" :: key :: env.setOrder key s
  | .zset z =>
    lit "ZADD" :: key :: (rankList z).flatMap fun p => [fmtScore (ofLex p).1, (ofLex p).2]

theorem recreateArgs_abs (env : Env) (key : Bytes) (v : Value σ) :
    recreateArgs env key v = recArgs env key v.abs := by
  cases v with
  | zset z => simp [recreateArgs, recArgs, Value.abs, ZSet.sorted_eq]
  | _ => rfl

/-- The commands that recreate a record. -/
def recCmds (env : Env) (key : Bytes) (r : Rec σ) : List (List Bytes) :=
  recArgs env key r.val :: (r.deadline.map fun t => [lit "PEXPIREAT", key, natText t]).toList

theorem entryArgs_abs (env : Env) (key : Bytes) (e : Entry σ) :
    entryArgs env key e = (liveAt env.now (some e.abs)).elim [] (recCmds env key) := by
  simp only [entryArgs, liveAt, Option.filter_some, Entry.abs]
  by_cases h : expired env.now e.expireAt = true
  · simp [h]
  · simp only [h, Bool.false_eq_true, if_false, Bool.not_false, if_true, Option.elim_some, recCmds,
      recreateArgs_abs]
    cases e.expireAt <;> rfl

namespace Shard

theorem dumpArgs_eq (env : Env) (s : Shard σ) :
    s.dumpArgs env = (s.keys env.now).flatMap fun k => (liveAt env.now (s.raw k)).elim []
      (recCmds env k) := by
  have key : ∀ l : List (Bytes × Entry σ), (∀ p ∈ l, s.map.get p.1 = some p.2) →
      l.flatMap (fun p => entryArgs env p.1 p.2) =
        ((l.filter fun p => !expired env.now p.2.expireAt).map Prod.fst).flatMap fun k =>
          (liveAt env.now (s.raw k)).elim [] (recCmds env k) := by
    intro l
    induction l with
    | nil => intro _; rfl
    | cons p l ih =>
      intro h
      have hp : s.raw p.1 = some p.2.abs := by simp [raw, h p List.mem_cons_self]
      rw [List.flatMap_cons, ih fun q hq => h q (List.mem_cons_of_mem _ hq), entryArgs_abs, ← hp]
      by_cases he : expired env.now p.2.expireAt = true
      · rw [List.filter_cons_of_neg (by simp [he]), hp]
        simp [liveAt, Option.filter_some, Entry.abs, he]
      · rw [List.filter_cons_of_pos (by simp [he]), List.map_cons, List.flatMap_cons]
  exact key s.map.iter fun p hp => (FlatMap.mem_iter _).1 hp

end Shard

namespace Store

variable {s : Store σ}

/-- The commands of a snapshot, key by key. -/
theorem dumpArgs_eq (hr : s.Routed) (env : Env) :
    s.dumpArgs env = (s.keys env).flatMap fun k => (liveAt env.now (s.raw k)).elim []
      (recCmds env k) := by
  rw [dumpArgs, keys, List.flatMap_assoc]
  refine List.flatMap_congr fun sh hsh => ?_
  rw [Shard.dumpArgs_eq]
  refine List.flatMap_congr fun k hk => ?_
  obtain ⟨i, hi, rfl⟩ := List.getElem_of_mem hsh
  have := index_of_mem_keys hr hi hk
  subst this
  rfl

/-- A snapshot is empty exactly when no key is live. -/
theorem dumpCommands_eq_nil (hr : s.Routed) (env : Env) :
    s.dumpCommands env = [] ↔ s.raw.at env.now = fun _ => none := by
  rw [dumpCommands, dumpArgs_eq hr, List.flatMap_eq_nil_iff]
  constructor
  · intro h
    funext k
    cases hk : liveAt env.now (s.raw k) with
    | none => exact hk
    | some r =>
      have hm : recArgs env k r.val ∈ (s.keys env).flatMap fun k =>
          (liveAt env.now (s.raw k)).elim [] (recCmds env k) :=
        List.mem_flatMap.2 ⟨k, (mem_keys hr env).2 (by rw [hk]; rfl),
          by rw [hk]; exact List.mem_cons_self⟩
      cases (h _ hm : (_ :: _ : Bytes) = [])
  · intro h l hl
    obtain ⟨k, -, hk⟩ := List.mem_flatMap.1 hl
    have : liveAt env.now (s.raw k) = none := congrFun h k
    rw [this] at hk; cases hk

end Store

end Inmem.L3
