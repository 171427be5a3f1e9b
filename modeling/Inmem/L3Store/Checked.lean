import Inmem.L3Store.Accounting

/-!
# No subtraction underflows

The store subtracts from its byte counts in `drop_key`, in the in-place update of
`set` and in `with_collection!`. Here the operations run with checked subtractions, as a
build with overflow checks runs them: `none` is the panic of a subtraction that would go
below zero.

* `KeyOp.execChecked_eq`: on an accounted shard no operation panics, and it does
  what the unchecked one does;
* `accounting_exact`: no call of any run panics, and after it every byte count is
  the sum over the stored entries.
-/
namespace Inmem.L3

open Inmem.L1 Inmem.Core.Decimal
open Inmem.L2 (FlatMap S3Fifo)

variable {σ : Type} [Score σ]

/-- `a - b` on `usize` with overflow checks. -/
def checkedSub (a b : Nat) : Option Nat := if b ≤ a then some (a - b) else none

theorem checkedSub_eq {a b : Nat} (h : b ≤ a) : checkedSub a b = some (a - b) := if_pos h

/-! ## Checked operations -/

/-- An operation with checked subtractions. -/
def KeyOp.execChecked (env : Env) (key : Bytes) :
    (op : KeyOp σ) → Shard σ → Option (op.Res × Shard σ) :=
  execM checkedSub (Shard.enforceBudgetM checkedSub)
    (fun f s => do
      let _ ← s.liveM checkedSub key env.now
      return f s)
    env key

/-- The loop of `purge_expired`, mirrors crates/core/src/store.rs:785-789 -/
def Shard.dropAllChecked : List Bytes → Shard σ → Option (Shard σ)
  | [], s => some s
  | k :: ks, s => do
    let r ← s.dropKeyM checkedSub k
    dropAllChecked ks r.2

/-- One call with checked subtractions; the calls that are not listed subtract nothing. -/
def Call.execChecked (env : Env) : (c : Call σ) → World σ → Option (c.Res × World σ)
  | .key k op, w => do
    let r ← op.execChecked env k (w.store.shard k)
    return (r.1,
      { w with store := w.store.setShards (w.store.shards.set
        (w.store.index k) r.2) List.length_set })
  | .purgeExpired, w => do
    let _ ← w.store.shards.mapM fun sh => Shard.dropAllChecked (sh.expiredKeys env.now) sh
    return Call.exec env .purgeExpired w
  | c, w => some (c.exec env w)

/-- A run of calls, `none` if one of them panics. -/
def runChecked : List (Env × Call σ) → World σ → Option (World σ)
  | [], w => some w
  | (env, c) :: run, w => do
    let r ← c.execChecked env w
    runChecked run r.2

/-! ## They do not panic -/

namespace Shard

variable {s : Shard σ} {k : Bytes} {now : Nat}

theorem dropKeyM_checked (h : s.bytes = s.map.weight footprint) :
    s.dropKeyM checkedSub k = some (s.dropKey k) := by
  cases hk : s.map.get k with
  | none =>
    rw [dropKey_none hk, dropKeyM, FlatMap.remove_fst, hk]
    rfl
  | some e =>
    have hle : keyOverhead k.length + e.value.bytes ≤ s.bytes := by
      have := s.map.share_le_weight footprint k
      rwa [FlatMap.share_some hk, ← h] at this
    simp only [dropKey_some hk, dropKeyM, FlatMap.remove_fst, hk, checkedSub_eq hle]
    rfl

theorem liveM_checked (hs : s.Kept) : s.liveM checkedSub k now = some (s.live k now) := by
  cases h : s.map.get k with
  | none =>
    rw [live_absent h, liveM, h]
    rfl
  | some e =>
    cases he : expired now e.expireAt with
    | true =>
      simp only [live_expired h he, liveM, h, he, if_true, dropKeyM_checked hs.exact]
      rfl
    | false =>
      simp only [live_present h he, liveM, h, he, Bool.false_eq_true, if_false]
      rfl

theorem live_kept (hs : s.Kept) : (s.live k now).2.Kept := by
  rcases live_cases s k now with ⟨s', hl, -, -, hu⟩ | ⟨e, hl, -⟩
  · rw [hl]; exact hu.kept hs
  · rw [hl]; exact hs

theorem enforceLoopM_checked (f : Nat) : ∀ s : Shard σ, s.Kept → s.budget ≠ 0 →
    enforceLoopM checkedSub f s = some (enforceLoop f s) := by
  induction f with
  | zero => intro s _ _; rfl
  | succ f ih =>
    intro s hs hb
    rw [enforceLoopM]
    rcases enforceLoop_cases f s with ⟨hle, hloop⟩ | ⟨hover, hv, hloop⟩ | ⟨v, hover, hv, hloop⟩
    · rw [hloop, if_neg (Nat.not_lt.2 hle)]
      rfl
    · simp only [hloop, if_pos hover, hv]
      rfl
    · have hdrop := dropKeyM_checked (s := { s with pol := s.pol.evictOne.2 }) (k := v) hs.exact
      simp only [hloop, if_pos hover, hv, hdrop]
      exact ih _ (evict_kept hs hb hv).1 (by rw [dropKey_budget]; exact hb)

theorem enforceBudgetM_checked (hs : s.Kept) :
    s.enforceBudgetM checkedSub = some s.enforceBudget := by
  rw [enforceBudgetM]
  by_cases hb : s.budget = 0
  · rw [enforceBudget_unbounded hb, if_pos hb]
    rfl
  · rw [enforceBudget_bounded hb, if_neg hb]
    exact enforceLoopM_checked _ s hs hb

theorem setM_checked (hs : s.Kept) (value : Bytes) (opts : SetOptions) :
    s.setM checkedSub (enforceBudgetM checkedSub) k value opts now =
      some (s.set k value opts now) := by
  simp only [set, setM, bind_id, pure_id, liveM_plain, plainSub, liveM_checked hs,
    Option.bind_eq_bind, Option.bind_some]
  rcases live_cases s k now with ⟨s', hl, -, hget, hu⟩ | ⟨e, hl, -, hget⟩
  · have hput := putNew_kept (hu.kept hs) hget (.str value) opts.expireAt
    simp only [hl, Bool.and_false, Bool.false_eq_true, if_false, Bool.not_false, Bool.and_true,
      Option.pure_def, Option.bind_some, enforceBudgetM_checked hput]
    split <;> rfl
  · have hle : e.value.bytes ≤ s.bytes + value.length := by
      have := footprint_le hs hget
      simp only [footprint] at this
      omega
    have hc := change_kept hs hget fun _ =>
      (⟨.str value, if opts.keepTtl = true then e.expireAt else opts.expireAt⟩ : Entry σ)
    have ht := enforceBudgetM_checked (touch_kept (k := k) hc)
    simp only [hl, Bool.and_true, Bool.not_true, Bool.and_false, Bool.false_eq_true, if_false,
      if_true, valueBytes_of_get hget, deadline_of_get hget, checkedSub_eq hle, Option.pure_def,
      Option.bind_some]
    split
    · rfl
    · exact congrArg (fun o => Option.bind o fun a => some (true, a)) ht

theorem delM_checked (hs : s.Kept) : s.delM checkedSub k now = some (s.del k now) := by
  simp only [del, delM, bind_id, pure_id, liveM_plain, dropKeyM_plain, liveM_checked hs,
    Option.bind_eq_bind, Option.bind_some, dropKeyM_checked (live_kept hs).exact]
  split <;> rfl

theorem replaceStrM_checked (hs : s.Kept) {existed : Bool} (he : existed = (s.map.get k).isSome)
    (b : Bytes) : s.replaceStrM checkedSub (enforceBudgetM checkedSub) k b existed =
      some (s.replaceStrM plainSub enforceBudget k b existed) := by
  simp only [replaceStrM, bind_id, dropKeyM_plain]
  cases hg : s.map.get k with
  | none =>
    rw [hg] at he
    subst he
    exact enforceBudgetM_checked (putNew_kept hs hg ..)
  | some e =>
    rw [hg] at he
    subst he
    simp only [Option.isSome_some, if_true, dropKeyM_checked hs.exact, Option.bind_eq_bind,
      Option.bind_some]
    exact enforceBudgetM_checked (putNew_kept (dropKey_kept hs) (by simp [dropKey_get]) ..)

/-- After the expiry check the flag says whether the key is stored. -/
theorem live_flag (s : Shard σ) (k : Bytes) (now : Nat) :
    (s.live k now).1 = ((s.live k now).2.map.get k).isSome := by
  rcases live_cases s k now with ⟨s', hl, -, hget, -⟩ | ⟨e, hl, -, hget⟩
  · rw [hl, hget]; rfl
  · rw [hl, hget]; rfl

theorem incrByM_checked (hs : s.Kept) (delta : Int) :
    s.incrByM checkedSub (enforceBudgetM checkedSub) k delta now =
      some (s.incrBy k delta now) := by
  simp only [incrBy, incrByM, bind_id, pure_id, liveM_plain, liveM_checked hs,
    Option.bind_eq_bind, Option.bind_some, replaceStrM_checked (live_kept hs) (live_flag s k now)]
  cases (s.live k now).2.counter k (s.live k now).1 with
  | error e => rfl
  | ok cur => dsimp only; split <;> rfl

theorem appendM_checked (hs : s.Kept) (suffix : Bytes) :
    s.appendM checkedSub (enforceBudgetM checkedSub) k suffix now =
      some (s.append k suffix now) := by
  simp only [append, appendM, bind_id, pure_id, liveM_plain, liveM_checked hs,
    Option.bind_eq_bind, Option.bind_some, replaceStrM_checked (live_kept hs) (live_flag s k now)]
  cases (s.live k now).2.prior k (s.live k now).1 <;> rfl

theorem writeBackM_checked {C : Type} (col : Coll (Value σ) C) (hs : s.Kept) {e : Entry σ}
    (h : s.map.get k = some e) (c : C) :
    s.writeBackM checkedSub (enforceBudgetM checkedSub) col k c =
      some (s.writeBackM plainSub enforceBudget col k c) := by
  have hc := touch_kept (k := k) (change_kept hs h fun e => { e with value := col.wrap c })
  have hg : (s.map.getMut k fun e => { e with value := col.wrap c }).get k =
      some ⟨col.wrap c, e.expireAt⟩ := by
    simp [h]
  have hle : e.value.bytes ≤ s.bytes + (col.wrap c).bytes := by
    have := footprint_le hs h
    simp only [footprint] at this
    omega
  simp only [writeBackM, bind_id, pure_id, plainSub, dropKeyM_plain, valueBytes, value, h, hg,
    Option.map_some, Option.getD_some, checkedSub_eq hle, Option.bind_eq_bind, Option.bind_some,
    dropKeyM_checked hc.exact, enforceBudgetM_checked hc]
  exact (apply_ite some _ _ _).symm

/-- After the expiry check a missing key is created empty. -/
theorem ensured_kept (hs : s.Kept) (k : Bytes) (now : Nat) (v : Value σ) :
    (if (s.live k now).1 then (s.live k now).2 else (s.live k now).2.putNew k v none).Kept := by
  cases hf : (s.live k now).1 with
  | true => exact live_kept hs
  | false =>
    have hget : (s.live k now).2.map.get k = none := by
      have := live_flag s k now
      rw [hf] at this
      simpa using this.symm
    exact putNew_kept (live_kept hs) hget v none

theorem withCollectionM_checked {C R : Type} (col : Coll (Value σ) C) (hs : s.Kept)
    (body : C → R × C) :
    s.withCollectionM checkedSub (enforceBudgetM checkedSub) col k now body =
      some (s.withCollection col k now body) := by
  simp only [withCollection, withCollectionM, bind_id, pure_id, liveM_plain, liveM_checked hs,
    Option.bind_eq_bind, Option.bind_some]
  have hs' := ensured_kept hs k now (col.wrap col.make)
  generalize (if (s.live k now).1 then (s.live k now).2 else _) = s' at hs'
  cases hg : s'.map.get k with
  | none => simp only [value, hg, Option.map_none]; rfl
  | some e =>
    simp only [value, hg, Option.map_some, writeBackM_checked col hs' hg]
    cases col.unwrap e.value <;> rfl

end Shard

/-- On an accounted shard no operation panics. -/
theorem KeyOp.execChecked_eq (env : Env) (k : Bytes) (op : KeyOp σ) {s : Shard σ} (hs : s.Kept) :
    op.execChecked env k s = some (op.exec env k s) := by
  have hrest : (s.liveM checkedSub k env.now).bind (fun _ => some (op.exec env k s)) =
      some (op.exec env k s) := by rw [Shard.liveM_checked hs]; rfl
  cases op with
  | set value opts => exact Shard.setM_checked hs value opts
  | del => exact Shard.delM_checked hs
  | incrBy delta => exact Shard.incrByM_checked hs delta
  | append suffix => exact Shard.appendM_checked hs suffix
  | push | pop | hset | hdel | sadd | srem | zadd | zrem =>
    exact Shard.withCollectionM_checked _ hs _
  | _ => exact hrest

theorem Shard.dropAllChecked_eq (ks : List Bytes) : ∀ s : Shard σ, s.Kept →
    dropAllChecked ks s = some (countFold dropKey ks s).2 := by
  induction ks with
  | nil => intro s _; rfl
  | cons k ks ih =>
    intro s hs
    rw [dropAllChecked, dropKeyM_checked hs.exact]
    exact ih _ (dropKey_kept hs)

theorem mapM_eq {A B : Type} {f : A → Option B} {g : A → B} {l : List A}
    (h : ∀ a ∈ l, f a = some (g a)) : l.mapM f = some (l.map g) := by
  induction l with
  | nil => rfl
  | cons a l ih =>
    rw [List.mapM_cons, h a List.mem_cons_self, ih fun b hb => h b (List.mem_cons_of_mem _ hb)]
    rfl

theorem Call.execChecked_eq (env : Env) (c : Call σ) {w : World σ}
    (h : ∀ sh ∈ w.store.shards, sh.Kept) : c.execChecked env w = some (c.exec env w) := by
  cases c with
  | key k op =>
    simp only [execChecked, KeyOp.execChecked_eq env k op (h _ (w.store.shard_mem k))]
    rfl
  | purgeExpired =>
    have hm : w.store.shards.mapM (fun sh => Shard.dropAllChecked (sh.expiredKeys env.now) sh) =
        some (w.store.shards.map fun sh => (sh.purgeExpired env.now).2) := by
      exact mapM_eq fun sh hsh => Shard.dropAllChecked_eq _ sh (h sh hsh)
    simp only [execChecked, hm]
    rfl
  | _ => rfl

/-- **Byte accounting.** For every number of shards and every memory limit, none
included, in any run of calls: no subtraction underflows, and after it the byte
count of every shard is the sum over all stored entries, expired ones included,
of key length, overhead and value size. -/
theorem accounting_exact (shards maxmemory : Nat) (router : Bytes → UInt64)
    (hasher : Nat → Nat → Bytes → UInt64) (file : Option Bytes) (run : List (Env × Call σ)) :
    let start : World σ := ⟨Store.new shards maxmemory router hasher, file⟩
    runChecked run start = some (runCalls run start) ∧
      ∀ sh ∈ (runCalls run start).store.shards,
        sh.bytes =
          (sh.map.iter.map fun p => p.1.length + ENTRY_OVERHEAD + p.2.value.bytes).sum := by
  intro start
  refine ⟨?_,
    fun sh hsh => ((runCalls_sound shards maxmemory router hasher file run).kept sh hsh).exact⟩
  have hstart : start.store.Sound _ := new_sound shards maxmemory router hasher
  generalize start = w at hstart
  induction run generalizing w with
  | nil => rfl
  | cons p run ih =>
    obtain ⟨env, c⟩ := p
    rw [runChecked, Call.execChecked_eq env c hstart.kept]
    exact ih _ (exec_sound env c hstart)

end Inmem.L3
