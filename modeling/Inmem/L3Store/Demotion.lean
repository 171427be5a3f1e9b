import Inmem.L2Machine.PolicyRun
import Inmem.L3Store.Accounting

/-!
# What an access does to the rank of a key

Under a memory limit an operation reports to the eviction policy that its key has been
used, and then may run an eviction pass. `KeyOp.own`, the operation with nothing in the
place of the pass, is its own effect. The operation is that, or a pass after it (`exec_own`).

* `own_pol`: to the policy of a live key the own effect is nothing, a touch, or a removal
  followed by an insertion (`KeyOp.reinserts`);
* `runCalls_policy`: what the operations of the policy keep holds of every shard that a
  run of calls leads to;
* `access_keeps_rank`: it never lowers the frequency of a key that stays live, nor moves
  it back to the small queue, unless it is one of those and the key had a rank to lose.

`INCR` and `APPEND` on a live string drop the entry and store a new one, so a counter in
use loses its frequency and its place in the main queue (`incr_demotes`).
-/
namespace Inmem.L3

open Inmem.L1 Inmem.Core.Decimal
open Inmem.L2 (FlatMap S3Fifo Meta Loc)

variable {σ : Type} [Score σ]

/-! ## Operations and their eviction pass -/

namespace Shard

/-- `s'` is `s₀`, or the budget check after it. -/
def Last (s₀ s' : Shard σ) : Prop := s' = s₀ ∨ s' = s₀.enforceBudget

variable {s : Shard σ} {key : Bytes} {now : Nat}

theorem set_last {value : Bytes} {opts : SetOptions} :
    Last (s.setM plainSub id key value opts now).2 (s.set key value opts now).2 := by
  simp only [set, setM, bind_id, pure_id]
  split
  · exact .inl rfl
  · split
    · exact .inl rfl
    · split
      · exact .inr rfl
      · exact .inr rfl

theorem replaceStr_last (bytes : Bytes) (existed : Bool) :
    s.replaceStrM plainSub enforceBudget key bytes existed =
      enforceBudget (s.replaceStrM plainSub id key bytes existed) := by
  cases existed <;> rfl

theorem incrBy_last {delta : Int} :
    Last (s.incrByM plainSub id key delta now).2 (s.incrBy key delta now).2 := by
  simp only [incrBy, incrByM, bind_id, pure_id]
  split
  · exact .inl rfl
  · split
    · exact .inr (replaceStr_last _ _)
    · exact .inl rfl

theorem append_last {suffix : Bytes} :
    Last (s.appendM plainSub id key suffix now).2 (s.append key suffix now).2 := by
  simp only [append, appendM, bind_id, pure_id]
  split
  · exact .inl rfl
  · exact .inr (replaceStr_last _ _)

theorem writeBack_last {C : Type} (col : Coll (Value σ) C) (c : C) :
    Last (s.writeBackM plainSub id col key c) (s.writeBackM plainSub enforceBudget col key c) := by
  simp only [writeBackM, bind_id, pure_id]
  split
  · exact .inl rfl
  · exact .inr rfl

theorem withCollection_last {C R : Type} (col : Coll (Value σ) C) (body : C → R × C) :
    Last (s.withCollectionM plainSub id col key now body).2
      (s.withCollection col key now body).2 := by
  simp only [withCollection, withCollectionM, bind_id, pure_id]
  split
  · exact .inl rfl
  · split
    · exact .inl rfl
    · exact writeBack_last col _

end Shard

namespace KeyOp

/-- The operation's own effect, before any eviction pass. -/
def own (env : Env) (key : Bytes) (op : KeyOp σ) (s : Shard σ) : Shard σ :=
  (op.execM plainSub id (fun f s => f s) env key s).2

/-- An operation is its own effect, with or without an eviction pass after it. -/
theorem exec_own (env : Env) (key : Bytes) (op : KeyOp σ) (s : Shard σ) :
    Shard.Last (op.own env key s) (op.exec env key s).2 := by
  cases op with
  | set value opts => exact Shard.set_last
  | incrBy delta => exact Shard.incrBy_last
  | append suffix => exact Shard.append_last
  | push | pop | hset | hdel | sadd | srem | zadd | zrem => exact Shard.withCollection_last _ _
  | _ => exact .inl rfl

omit [Score σ] in
/-- The operation drops the entry of a live key and stores a new one: `INCR` on a number
that it does not take out of range, and `APPEND` on a string. -/
def reinserts (op : KeyOp σ) (r : Rec σ) : Bool :=
  match op, r.val with
  | .incrBy delta, .str v =>
    match Shard.strInt v with
    | .ok n => InI64 (n + delta)
    | .error _ => false
  | .append _, .str _ => true
  | _, _ => false

end KeyOp

/-- From `p` to `p'` the key's frequency is not lowered and it does not go back to the
small queue. -/
def KeepsRank (p p' : S3Fifo) (k : Bytes) : Prop :=
  ∃ m m', p.metas.get k = some m ∧ p'.metas.get k = some m' ∧ m.freq ≤ m'.freq ∧
    (m.loc = .main → m'.loc = .main)

/-! ## The own effect -/

namespace Shard

variable {s : Shard σ} {k : Bytes} {e : Entry σ} {env : Env}

/-- What the own effect does to the policy of a live key: the key is entered anew, or
the policy is as before or touched, or the key is gone. -/
def PolEffect (s : Shard σ) (k : Bytes) (again : Bool) (s' : Shard σ) : Prop :=
  if again then s'.pol = (s.pol.remove k).insert k
  else s'.pol = s.pol ∨ s'.pol = s.pol.touch k ∨ s'.map.get k = none

theorem PolEffect.same {s' : Shard σ} (h : s'.pol = s.pol) : PolEffect s k false s' := .inl h

theorem PolEffect.touched {s' : Shard σ} (h : s'.pol = s.pol.touch k) : PolEffect s k false s' :=
  .inr (.inl h)

theorem touch_pol (hb : s.budget ≠ 0) : (s.touch k).pol = s.pol.touch k := by
  unfold touch
  rw [if_pos hb]

theorem replaceStr_pol (hb : s.budget ≠ 0) (hget : s.map.get k = some e) (v : Bytes) :
    (s.replaceStrM plainSub id k v true).pol = (s.pol.remove k).insert k := by
  simp only [replaceStrM, bind_id, dropKeyM_plain, if_true, id, putNew, dropKey_some hget,
    if_pos hb]

theorem set_pol (hb : s.budget ≠ 0) (hl : s.live k env.now = (true, s)) (value : Bytes)
    (opts : SetOptions) : PolEffect s k false (s.setM plainSub id k value opts env.now).2 := by
  simp only [setM, bind_id, pure_id, liveM_plain, hl, Bool.and_true, Bool.not_true, Bool.and_false,
    Bool.false_eq_true, if_false, if_true]
  split
  · exact .same rfl
  · exact .touched (touch_pol hb)

theorem incrBy_pol (hb : s.budget ≠ 0) (hl : s.live k env.now = (true, s))
    (hget : s.map.get k = some e) (delta : Int) :
    PolEffect s k ((KeyOp.incrBy delta).reinserts e.abs)
      (s.incrByM plainSub id k delta env.now).2 := by
  unfold KeyOp.reinserts
  simp only [incrByM, bind_id, pure_id, liveM_plain, hl, counter, if_true, value_of_get hget,
    Entry.abs]
  cases e.value with
  | str v =>
    simp only [Value.abs]
    cases strInt v with
    | error err => exact .same rfl
    | ok n =>
      simp only
      by_cases hn : InI64 (n + delta)
      · simp only [hn, if_true, decide_true]
        exact replaceStr_pol hb hget _
      · simp only [hn, if_false, decide_false]
        exact .same rfl
  | _ => exact .same rfl

theorem append_pol (hb : s.budget ≠ 0) (hl : s.live k env.now = (true, s))
    (hget : s.map.get k = some e) (suffix : Bytes) :
    PolEffect s k ((KeyOp.append suffix).reinserts e.abs)
      (s.appendM plainSub id k suffix env.now).2 := by
  unfold KeyOp.reinserts
  simp only [appendM, bind_id, pure_id, liveM_plain, hl, prior, if_true, value_of_get hget,
    Entry.abs]
  cases e.value with
  | str v => exact replaceStr_pol hb hget _
  | _ => exact .same rfl

theorem writeBack_pol {C : Type} (hb : s.budget ≠ 0) (col : Coll (Value σ) C) (c : C) :
    PolEffect s k false (s.writeBackM plainSub id col k c) := by
  simp only [writeBackM, bind_id, pure_id, dropKeyM_plain]
  split
  · exact .inr (.inr (by rw [dropKey_get, if_pos rfl]))
  · exact .touched (touch_pol hb)

theorem withCollection_pol {C R : Type} (hb : s.budget ≠ 0) (hl : s.live k env.now = (true, s))
    (hget : s.map.get k = some e) (col : Coll (Value σ) C) (body : C → R × C) :
    PolEffect s k false (s.withCollectionM plainSub id col k env.now body).2 := by
  simp only [withCollectionM, bind_id, pure_id, liveM_plain, hl, if_true, value_of_get hget]
  split
  · exact .same rfl
  · exact writeBack_pol hb col _

theorem readCollection_pol {R : Type} (hb : s.budget ≠ 0) (hl : s.live k env.now = (true, s))
    (f : Option (Value σ) → R) : PolEffect s k false (s.readCollection k env.now f).2 := by
  unfold readCollection
  simp only [hl, Bool.not_true, Bool.false_eq_true, if_false]
  exact .touched (touch_pol hb)

/-- What the own effect of an operation on a live key is to the policy. -/
theorem own_pol (hb : s.budget ≠ 0) (hl : s.live k env.now = (true, s))
    (hget : s.map.get k = some e) (op : KeyOp σ) :
    PolEffect s k (op.reinserts e.abs) (op.own env k s) := by
  cases op with
  | get =>
    show PolEffect s k false (s.get k env.now).2
    simp only [Shard.get, hl, Bool.not_true, Bool.false_eq_true, if_false]
    exact .touched (touch_pol hb)
  | readStr =>
    show PolEffect s k false (s.readStr k env.now).2
    simp only [readStr, hl, Bool.not_true, Bool.false_eq_true, if_false]
    exact .touched (touch_pol hb)
  | set value opts => exact set_pol hb hl value opts
  | del =>
    show PolEffect s k false (s.del k env.now).2
    simp only [del, delM, bind_id, liveM_plain, dropKeyM_plain, hl, Bool.not_true,
      Bool.false_eq_true, if_false]
    exact .inr (.inr (by rw [dropKey_get, if_pos rfl]))
  | «exists» => exact .same (congrArg (fun r => r.2.pol) hl)
  | typeOf =>
    show PolEffect s k false (s.typeOf k env.now).2
    simp only [typeOf, hl, Bool.not_true, Bool.false_eq_true, if_false]
    exact .same rfl
  | expireAt d =>
    show PolEffect s k false (s.expireAt k d env.now).2
    simp only [expireAt, hl, Bool.not_true, Bool.false_eq_true, if_false, hget]
    exact .same rfl
  | pttl =>
    show PolEffect s k false (s.pttl k env.now).2
    simp only [pttl, hl, Bool.not_true, Bool.false_eq_true, if_false]
    exact .same rfl
  | incrBy delta => exact incrBy_pol hb hl hget delta
  | append suffix => exact append_pol hb hl hget suffix
  | strlen =>
    show PolEffect s k false (s.strlen k env.now).2
    simp only [strlen, hl, Bool.not_true, Bool.false_eq_true, if_false]
    exact .same rfl
  | push | pop | hset | hdel | sadd | srem | zadd | zrem => exact withCollection_pol hb hl hget _ _
  | llen | lrange | hget | hlen | hgetall | sismember | scard | smembers | zscore | zcard
  | zrange =>
    exact readCollection_pol hb hl _

end Shard

/-! ## Ranks -/

section
variable {p : S3Fifo} {k : Bytes} {m : Meta}

theorem keepsRank_refl (hm : p.metas.get k = some m) : KeepsRank p p k := ⟨m, m, hm, hm, le_rfl, id⟩

/-- A touch raises the frequency, up to the cap. -/
theorem keepsRank_touch (hc : p.FreqCapped) (hm : p.metas.get k = some m) :
    KeepsRank p (p.touch k) k := by
  refine ⟨m, { m with freq := min (m.freq + 1) Inmem.L2.FREQ_MAX }, hm, ?_, ?_, id⟩
  · simp only [S3Fifo.touch, FlatMap.get_getMut, if_true, hm, Option.map_some]
  · exact Nat.le_min.2 ⟨Nat.le_succ _, hc k m hm⟩

/-- A tracked key is not a ghost, so it is entered anew at the bottom. -/
theorem reinserted (hi : p.Inv) (hm : p.metas.get k = some m) :
    ((p.remove k).insert k).metas.get k = some ⟨0, .small⟩ := by
  have hnone : p.ghostSet.get k = none := hi.ghosts k (by rw [S3Fifo.Tracks, hm]; rfl)
  unfold S3Fifo.insert
  simp only [FlatMap.remove_fst, S3Fifo.remove_ghost.2, hnone, Option.isSome_none,
    Bool.false_eq_true, if_false, FlatMap.get_insert, if_true]

theorem keepsRank_reinserted (hi : p.Inv) (hm : p.metas.get k = some m) :
    KeepsRank p ((p.remove k).insert k) k ↔ m = ⟨0, .small⟩ := by
  have hbottom := reinserted hi hm
  constructor
  · intro ⟨m₁, m₂, h₁, h₂, hf, hl⟩
    rw [hm] at h₁
    rw [hbottom] at h₂
    cases h₁
    cases h₂
    obtain ⟨f, l⟩ := m
    cases l with
    | small =>
      obtain rfl : f = 0 := Nat.le_zero.1 hf
      rfl
    | main => cases hl rfl
  · intro h
    exact ⟨m, ⟨0, .small⟩, hm, hbottom, h ▸ le_rfl, fun hl => by rw [h] at hl; cases hl⟩

end

/-! ## Reachable shards -/

/-- A property of the policy that its operations keep. -/
structure PolicyInv (P : S3Fifo → Prop) : Prop where
  new : ∀ metaHasher ghostHasher, P (.new metaHasher ghostHasher)
  insert : ∀ p k, P p → P (p.insert k)
  touch : ∀ p k, P p → P (p.touch k)
  remove : ∀ p k, P p → P (p.remove k)
  evictOne : ∀ p, P p → P p.evictOne.2

theorem policyInv_freqCapped : PolicyInv S3Fifo.FreqCapped where
  new := S3Fifo.new_freqCapped
  insert _ _ := S3Fifo.insert_freqCapped
  touch _ _ := S3Fifo.touch_freqCapped
  remove _ _ := S3Fifo.remove_freqCapped
  evictOne _ := S3Fifo.evictOne_freqCapped

section
variable {P : S3Fifo → Prop} (hP : PolicyInv P)
include hP

namespace Shard

variable {s s' : Shard σ} {k : Bytes}

theorem dropKey_policy (h : P s.pol) : P (s.dropKey k).2.pol := by
  cases hg : s.map.get k with
  | none => rw [dropKey_none hg]; exact h
  | some e =>
    rw [dropKey_some hg]
    dsimp only
    split
    · exact hP.remove _ _ h
    · exact h

theorem Move.policy (hm : Move k s s') (h : P s.pol) : P s'.pol := by
  cases hm with
  | drop => exact dropKey_policy hP h
  | put v d hg =>
    unfold putNew
    dsimp only
    split
    · exact hP.insert _ _ h
    · exact h
  | change e f hg => exact h
  | touch =>
    unfold Shard.touch
    split
    · exact hP.touch _ _ h
    · exact h

theorem enforceLoop_policy (f : Nat) : ∀ s : Shard σ, P s.pol → P (enforceLoop f s).pol := by
  induction f with
  | zero => exact fun s h => h
  | succ f ih =>
    intro s h
    rcases enforceLoop_cases f s with ⟨-, hloop⟩ | ⟨-, -, hloop⟩ | ⟨v, -, -, hloop⟩
    · rw [hloop]; exact h
    · rw [hloop]; exact hP.evictOne _ h
    · rw [hloop]; exact ih _ (dropKey_policy hP (hP.evictOne _ h))

theorem Effect.policy {r : Option (Rec σ)} (he : Effect s k r s') (h : P s.pol) : P s'.pol := by
  obtain ⟨s₁, hs, he⟩ := he
  have h₁ : P s₁.pol := by
    have hmoves := hs.moves
    clear hs he
    induction hmoves with
    | refl => exact h
    | tail _ hm ih => exact hm.policy hP ih
  rcases he with rfl | ⟨rfl, -⟩
  · by_cases hb : s₁.budget = 0
    · rw [enforceBudget_unbounded hb]; exact h₁
    · rw [enforceBudget_bounded hb]; exact enforceLoop_policy hP _ _ h₁
  · exact h₁

theorem dropKeys_policy (ks : List Bytes) :
    ∀ s : Shard σ, P s.pol → P (countFold dropKey ks s).2.pol := by
  induction ks with
  | nil => exact fun s h => h
  | cons k ks ih => exact fun s h => ih _ (dropKey_policy hP h)

end Shard

theorem exec_policy (env : Env) (c : Call σ) {w : World σ} (h : ∀ sh ∈ w.store.shards, P sh.pol) :
    ∀ sh ∈ (c.exec env w).2.store.shards, P sh.pol := by
  intro sh' hsh'
  obtain ⟨sh, hm, rfl | ⟨hasher, rfl⟩ | rfl | ⟨k, op, rfl⟩⟩ := exec_shards env c w hsh'
  · exact h _ hm
  · exact hP.new _ _
  · exact Shard.dropKeys_policy hP _ sh (h _ hm)
  · exact (Shard.exec_effect env k op sh).2.policy hP (h _ hm)

/-- It holds of the policy of every shard that a run of calls leads to. -/
theorem runCalls_policy (shards maxmemory : Nat) (router : Bytes → UInt64)
    (hasher : Nat → Nat → Bytes → UInt64) (file : Option Bytes) (run : List (Env × Call σ)) :
    ∀ sh ∈ (runCalls run ⟨Store.new shards maxmemory router hasher, file⟩).store.shards,
      P sh.pol := by
  refine runCalls_keeps (I := fun w : World σ => ∀ sh ∈ w.store.shards, P sh.pol)
    (fun env c _ h => exec_policy hP env c h) run fun sh hsh => ?_
  obtain ⟨i, -, rfl⟩ := List.mem_map.1 hsh
  exact hP.new _ _

end

/-- **Accesses and ranks.** In every shard with a budget that a run of calls leads to, and
for every operation on a live key that is still live after the operation's own effect:
the effect keeps the key's frequency and does not move it from the main queue to the
small one, exactly when the operation does not enter the key anew or the key is in the
small queue with frequency zero. -/
theorem access_keeps_rank (shards maxmemory : Nat) (router : Bytes → UInt64)
    (hasher : Nat → Nat → Bytes → UInt64) (file : Option Bytes) (run : List (Env × Call σ))
    {sh : Shard σ}
    (hsh : sh ∈ (runCalls run ⟨Store.new shards maxmemory router hasher, file⟩).store.shards)
    (hb : sh.budget ≠ 0) (env : Env) (key : Bytes) (op : KeyOp σ) {x : Rec σ}
    (hlive : liveAt env.now (sh.raw key) = some x)
    (hstays : (liveAt env.now ((op.own env key sh).raw key)).isSome = true) :
    KeepsRank sh.pol (op.own env key sh).pol key ↔
      (op.reinserts x = true → sh.pol.metas.get key = some ⟨0, .small⟩) := by
  have hkept := (runCalls_sound shards maxmemory router hasher file run).kept sh hsh
  have hcap := runCalls_policy policyInv_freqCapped shards maxmemory router hasher file run sh hsh
  rcases Shard.live_cases sh key env.now with ⟨s', -, hnone, -, -⟩ | ⟨e, hl, hsome, hget⟩
  · rw [hnone] at hlive; cases hlive
  rw [hsome] at hlive
  cases hlive
  obtain ⟨m, hm⟩ := Option.isSome_iff_exists.1 ((hkept.tracked hb key).2 (by rw [hget]; rfl))
  have hpol := Shard.own_pol hb hl hget op
  unfold Shard.PolEffect at hpol
  cases ha : op.reinserts e.abs with
  | true =>
    rw [ha, if_pos rfl] at hpol
    rw [hpol, keepsRank_reinserted (hkept.policy hb) hm, hm, Option.some.injEq]
    exact ⟨fun h _ => h, fun h => h rfl⟩
  | false =>
    rw [ha, if_neg Bool.false_ne_true] at hpol
    refine iff_of_true ?_ fun h => absurd h Bool.false_ne_true
    rcases hpol with h | h | h
    · rw [h]; exact keepsRank_refl hm
    · rw [h]; exact keepsRank_touch hcap hm
    · -- the key is gone, so it did not stay live
      rw [Shard.raw, h] at hstays
      cases hstays

/-- A key that has been set and read, in the one shard of a store. -/
def setRead : World Int :=
  runCalls [(Env.plain 0, .key (lit "k") (.set (lit "1") {})), (Env.plain 0, .key (lit "k") .get)]
    ⟨Store.new 1 100 (fun _ => 0) (fun _ _ _ => 0), none⟩

theorem access_keeps_rank_get :
    KeepsRank (setRead.store.shard (lit "k")).pol
      (KeyOp.own (Env.plain 0) (lit "k") .get (setRead.store.shard (lit "k"))).pol (lit "k") := by
  have hlive : (liveAt 0 ((setRead.store.shard (lit "k")).raw (lit "k"))).isSome = true := by
    decide +kernel
  obtain ⟨x, hx⟩ := Option.isSome_iff_exists.1 hlive
  exact (access_keeps_rank 1 100 (fun _ => 0) (fun _ _ _ => 0) none _ (Store.shard_mem _ _)
    (by decide +kernel)
    (Env.plain 0) (lit "k") .get hx (by decide +kernel)).2 fun h => by cases h

/-- A key that was evicted and set again, so is in the main queue. -/
def setAgain : World Int :=
  runCalls [(Env.plain 0, .key (lit "k") (.set (lit "1") {})),
    (Env.plain 0, .key (lit "j") (.set (lit "1") {})),
      (Env.plain 0, .key (lit "k") (.set (lit "1") {}))]
    ⟨Store.new 1 100 (fun _ => 0) (fun _ _ _ => 0), none⟩

/-- `INCR` of a key that has been read takes its frequency away, and `APPEND` to a key of
the main queue moves it back to the small queue; both stay live. -/
theorem incr_demotes :
    let s := setRead.store.shard (lit "k")
    let t := setAgain.store.shard (lit "k")
    let s' := KeyOp.own (Env.plain 0) (lit "k") (.incrBy 1) s
    let t' := KeyOp.own (Env.plain 0) (lit "k") (.append (lit "x")) t
    (s.budget ≠ 0 ∧ (liveAt 0 (s.raw (lit "k"))).isSome = true ∧
      (liveAt 0 (s'.raw (lit "k"))).isSome = true ∧
        s.pol.metas.get (lit "k") = some ⟨1, .small⟩ ∧
        s'.pol.metas.get (lit "k") = some ⟨0, .small⟩) ∧
      t.budget ≠ 0 ∧ (liveAt 0 (t.raw (lit "k"))).isSome = true ∧
      (liveAt 0 (t'.raw (lit "k"))).isSome = true ∧
        t.pol.metas.get (lit "k") = some ⟨0, .main⟩ ∧
        t'.pol.metas.get (lit "k") = some ⟨0, .small⟩ := by
  decide +kernel

end Inmem.L3
