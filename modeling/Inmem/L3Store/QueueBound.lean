import Inmem.Core.Lts
import Inmem.L2Machine.PolicyRun
import Inmem.L3Store.Accounting

/-!
# The length of the eviction queues

A shard's queues hold references to keys. Taking a key out of the shard leaves its
reference behind, and only an eviction pass takes references out again.

* `KeyOp.pushes`: the operations that enter a key into the policy anew, given the live
  record of the key;
* `exec_refs`: an operation adds at most one reference, to its own key, and only if it
  is one of those;
* `queues_bounded`: when a key is entered only while the queues hold no reference to
  it, the queues of a shard are never longer than the number of keys in use.

Deleting a key and setting it again, over and over, makes them grow without end
(`queues_grow`).
-/
namespace Inmem.L3

open Inmem.L1 Inmem.Core Inmem.Core.Decimal
open Inmem.L2 (FlatMap S3Fifo)

variable {σ : Type} [Score σ]

/-- The operation enters its key into the policy: the key was absent, or `INCR` and
`APPEND` drop the entry and store a new one. -/
def KeyOp.pushes : KeyOp σ → Option (Rec σ) → Bool
  | .set _ opts, r => r.isNone && opts.allows r.isSome
  | .incrBy delta, r => (specIncr delta r).1.isOk
  | .append suffix, r => (specAppend suffix r).1.isOk
  | .push .., r => r.isNone
  | .pop .., r => r.isNone
  | .hset _, r => r.isNone
  | .hdel _, r => r.isNone
  | .sadd _, r => r.isNone
  | .srem _, r => r.isNone
  | .zadd _, r => r.isNone
  | .zrem _, r => r.isNone
  | _, _ => false

namespace Shard

/-- The references a shard's policy holds. -/
def refs (s : Shard σ) : List Bytes := s.pol.refs

/-- `s'` has no references that `s` has not, but for one to `k` if `b`. -/
def Adds (s : Shard σ) (k : Bytes) (b : Bool) (s' : Shard σ) : Prop :=
  s'.refs.Subperm (if b then k :: s.refs else s.refs)

variable {s s' s'' : Shard σ} {k : Bytes} {now : Nat} {b : Bool}

theorem Adds.of_eq (h : s'.refs = s.refs) : Adds s k b s' := by
  unfold Adds
  rw [h]
  cases b with
  | false => exact List.Subperm.refl _
  | true => exact (List.sublist_cons_self ..).subperm

theorem Adds.then (h : Adds s k b s') (h' : s''.refs.Subperm s'.refs) : Adds s k b s'' := h'.trans h

theorem Adds.after (h : s'.refs = s.refs) (h' : Adds s' k b s'') : Adds s k b s'' := by
  unfold Adds at *
  rw [← h]
  exact h'

/-! ## Parts of the operations -/

theorem dropKey_refs : (s.dropKey k).2.refs = s.refs := by
  cases h : s.map.get k with
  | none => rw [dropKey_none h]
  | some e =>
    simp only [dropKey_some h, refs]
    split
    · exact S3Fifo.remove_refs
    · rfl

theorem touched_refs : (s.touch k).refs = s.refs := by
  unfold touch
  split <;> rfl

theorem live_refs : (s.live k now).2.refs = s.refs := by
  cases h : s.map.get k with
  | none => rw [live_absent h]
  | some e =>
    cases he : expired now e.expireAt with
    | true => rw [live_expired h he]; exact dropKey_refs
    | false => rw [live_present h he]

theorem putNew_adds (v : Value σ) (d : Option Nat) : Adds s k true (s.putNew k v d) := by
  show (if s.budget ≠ 0 then s.pol.insert k else s.pol).refs.Subperm (k :: s.pol.refs)
  split
  · exact S3Fifo.insert_refs.subperm
  · exact (List.sublist_cons_self ..).subperm

theorem enforceLoop_refs (f : Nat) : ∀ s : Shard σ, (enforceLoop f s).refs.Subperm s.refs := by
  induction f with
  | zero => exact fun s => List.Subperm.refl _
  | succ f ih =>
    intro s
    rcases enforceLoop_cases f s with ⟨-, hloop⟩ | ⟨-, -, hloop⟩ | ⟨v, -, -, hloop⟩
    · rw [hloop]
    · rw [hloop]; exact S3Fifo.evictOne_refs
    · rw [hloop]
      refine (ih _).trans ?_
      rw [evicted, dropKey_refs]
      exact S3Fifo.evictOne_refs

theorem enforceBudget_refs : s.enforceBudget.refs.Subperm s.refs := by
  by_cases hb : s.budget = 0
  · rw [enforceBudget_unbounded hb]
  · rw [enforceBudget_bounded hb]; exact enforceLoop_refs _ s

theorem replaceStr_adds (v : Bytes) (existed : Bool) :
    Adds s k true (s.replaceStrM plainSub enforceBudget k v existed) := by
  simp only [replaceStrM, bind_id, pure_id, dropKeyM_plain]
  split
  · exact (Adds.after dropKey_refs (putNew_adds _ _)).then enforceBudget_refs
  · exact (putNew_adds _ _).then enforceBudget_refs

theorem writeBack_refs {C : Type} (col : Coll (Value σ) C) (c : C) :
    Shard.refs (s.writeBackM plainSub enforceBudget col k c) |>.Subperm s.refs := by
  simp only [writeBackM, bind_id, pure_id, dropKeyM_plain]
  split
  · rw [dropKey_refs, touched_refs]; exact List.Subperm.refl _
  · refine enforceBudget_refs.trans ?_
    rw [touched_refs]; exact List.Subperm.refl _

theorem withCollection_adds {C R : Type} (col : Coll (Value σ) C) (body : C → R × C) :
    Adds s k (liveAt now (s.raw k)).isNone (s.withCollection col k now body).2 := by
  simp only [withCollection, withCollectionM, bind_id, pure_id, liveM_plain]
  have hput : Adds s k (liveAt now (s.raw k)).isNone
      (if (s.live k now).1 then (s.live k now).2
        else (s.live k now).2.putNew k (col.wrap col.make) none) := by
    rcases live_cases s k now with ⟨s', hl, hnone, -, -⟩ | ⟨e, hl, hsome, -⟩
    · have hr : s'.refs = s.refs := (congrArg (fun r => r.2.refs) hl).symm.trans live_refs
      rw [hl, hnone]
      exact .after hr (putNew_adds _ _)
    · rw [hl, hsome]
      exact .of_eq rfl
  split
  · exact hput
  · split
    · exact hput
    · exact hput.then (writeBack_refs col _)

theorem readCollection_refs {R : Type} (f : Option (Value σ) → R) :
    (s.readCollection k now f).2.refs = s.refs := by
  unfold readCollection
  simp only
  split
  · exact live_refs
  · rw [touched_refs, live_refs]

/-! ## The operations -/

theorem set_adds (value : Bytes) (opts : SetOptions) :
    Adds s k ((KeyOp.set value opts).pushes (liveAt now (s.raw k))) (s.set k value opts now).2 := by
  simp only [set, setM, bind_id, pure_id, liveM_plain]
  rcases live_cases s k now with ⟨s', hl, hnone, -, -⟩ | ⟨e, hl, hsome, -⟩
  · have hr : s'.refs = s.refs := (congrArg (fun r => r.2.refs) hl).symm.trans live_refs
    simp only [hl, hnone, KeyOp.pushes, SetOptions.allows, Option.isNone_none, Option.isSome_none,
      Bool.and_false, Bool.false_eq_true, if_false, Bool.not_false, Bool.and_true, Bool.true_and]
    cases opts.xx with
    | true => exact .of_eq hr
    | false => exact Adds.then (.after hr (putNew_adds _ _)) enforceBudget_refs
  · simp only [hl, hsome, Bool.and_true, Bool.not_true, Bool.and_false, Bool.false_eq_true,
      if_false, if_true]
    split
    · exact .of_eq rfl
    · refine Adds.then (.of_eq ?_) enforceBudget_refs
      rw [touched_refs]
      rfl

theorem incrBy_adds (delta : Int) :
    Adds s k (specIncr delta (liveAt now (s.raw k))).1.isOk (s.incrBy k delta now).2 := by
  rw [← (incrBy_effect delta).1]
  simp only [incrBy, incrByM, bind_id, pure_id, liveM_plain]
  split
  · exact .of_eq live_refs
  · split
    · exact .after live_refs (replaceStr_adds _ _)
    · exact .of_eq live_refs

theorem append_adds (suffix : Bytes) :
    Adds s k (specAppend suffix (liveAt now (s.raw k))).1.isOk (s.append k suffix now).2 := by
  rw [← (append_effect suffix).1]
  simp only [append, appendM, bind_id, pure_id, liveM_plain]
  split
  · exact .of_eq live_refs
  · exact .after live_refs (replaceStr_adds _ _)

theorem get_refs : (s.get k now).2.refs = s.refs := by
  unfold get
  simp only
  split
  · exact live_refs
  · rw [touched_refs, live_refs]

theorem readStr_refs : (s.readStr k now).2.refs = s.refs := by
  unfold readStr
  simp only
  split
  · exact live_refs
  · rw [touched_refs, live_refs]

theorem del_refs : (s.del k now).2.refs = s.refs := by
  simp only [del, delM, bind_id, pure_id, liveM_plain, dropKeyM_plain]
  split
  · exact live_refs
  · rw [dropKey_refs, live_refs]

theorem typeOf_refs : (s.typeOf k now).2.refs = s.refs := by
  unfold typeOf
  simp only
  split <;> exact live_refs

theorem expireAt_refs (d : Option Nat) : (s.expireAt k d now).2.refs = s.refs := by
  unfold expireAt
  simp only
  split
  · exact live_refs
  · split <;> exact live_refs

theorem pttl_refs : (s.pttl k now).2.refs = s.refs := by
  unfold pttl
  simp only
  split <;> exact live_refs

theorem strlen_refs : (s.strlen k now).2.refs = s.refs := by
  unfold strlen
  simp only
  split <;> exact live_refs

/-- An operation adds at most one reference, and only to its own key. -/
theorem exec_refs (env : Env) (op : KeyOp σ) :
    Adds s k (op.pushes (liveAt env.now (s.raw k))) (op.exec env k s).2 := by
  cases op with
  | get => exact .of_eq get_refs
  | readStr => exact .of_eq readStr_refs
  | set value opts => exact set_adds value opts
  | del => exact .of_eq del_refs
  | «exists» => exact .of_eq live_refs
  | typeOf => exact .of_eq typeOf_refs
  | expireAt d => exact .of_eq (expireAt_refs d)
  | pttl => exact .of_eq pttl_refs
  | incrBy delta => exact incrBy_adds delta
  | append suffix => exact append_adds suffix
  | strlen => exact .of_eq strlen_refs
  | push | pop | hset | hdel | sadd | srem | zadd | zrem => exact withCollection_adds _ _
  | llen | lrange | hget | hlen | hgetall | sismember | scard | smembers | zscore | zcard
  | zrange =>
    exact .of_eq (readCollection_refs _)

theorem dropKeys_refs (ks : List Bytes) :
    ∀ s : Shard σ, (countFold dropKey ks s).2.refs = s.refs := by
  induction ks with
  | nil => exact fun _ => rfl
  | cons k ks ih => exact fun s => (ih _).trans dropKey_refs

end Shard

/-! ## Runs -/

/-- One call as a step. -/
def callStep (w : World σ) (p : Env × Call σ) : Option (World σ) := some (p.2.exec p.1 w).2

/-- A key is entered into the policy of its shard only while the queues hold no
reference to it. -/
def Unreferenced (w : World σ) : Env × Call σ → Prop
  | (env, .key k op) =>
    op.pushes (liveAt env.now ((w.store.shard k).raw k)) = true → k ∉ (w.store.shard k).refs
  | _ => True

/-- The key of a single-key call. -/
def Call.keyUsed : Call σ → Option Bytes
  | .key k _ => some k
  | _ => none

/-- The keys that a run uses. -/
def keysUsed (run : List (Env × Call σ)) : Finset Bytes :=
  (run.filterMap fun p => p.2.keyUsed).toFinset

omit [Score σ] in
theorem keyUsed_mem {p : Env × Call σ} {run : List (Env × Call σ)} (hp : p ∈ run) {k : Bytes}
    (hk : p.2.keyUsed = some k) : k ∈ keysUsed run :=
  List.mem_toFinset.2 (List.mem_filterMap.2 ⟨p, hp, hk⟩)

/-- Every shard has at most one reference to a key, and only to keys of `ks`. -/
def Store.Slim (s : Store σ) (ks : Finset Bytes) : Prop :=
  ∀ sh ∈ s.shards, sh.refs.Nodup ∧ ∀ k ∈ sh.refs, k ∈ ks

theorem Store.Slim.length_le {s : Store σ} {ks : Finset Bytes} (h : s.Slim ks) {sh : Shard σ}
    (hsh : sh ∈ s.shards) : sh.pol.small.length + sh.pol.main.length ≤ ks.card := by
  obtain ⟨hn, hm⟩ := h sh hsh
  calc sh.pol.small.length + sh.pol.main.length = sh.refs.length := (List.length_append ..).symm
    _ = sh.refs.toFinset.card := (List.toFinset_card_of_nodup hn).symm
    _ ≤ ks.card := Finset.card_le_card fun k hk => hm k (List.mem_toFinset.1 hk)

theorem Shard.new_refs (budget : Nat) (hasher : Nat → Bytes → UInt64) :
    (Shard.new budget hasher : Shard σ).refs = [] := rfl

theorem new_slim (shards maxmemory : Nat) (router : Bytes → UInt64)
    (hasher : Nat → Nat → Bytes → UInt64) (ks : Finset Bytes) :
    (Store.new shards maxmemory router hasher : Store σ).Slim ks := by
  intro sh hsh
  obtain ⟨i, -, rfl⟩ := List.mem_map.1 hsh
  rw [Shard.new_refs]
  exact ⟨List.nodup_nil, fun _ hk => absurd hk List.not_mem_nil⟩

theorem nodup_of_subperm {A : Type} {l l' : List A} (h : l.Subperm l') (hn : l'.Nodup) :
    l.Nodup := by
  obtain ⟨l₁, hp, hs⟩ := h
  exact hp.nodup_iff.1 (hn.sublist hs)

/-- One reference more, to a key that had none. -/
theorem Shard.Adds.slim {s s' : Shard σ} {k : Bytes} {b : Bool} (h : Adds s k b s')
    (hb : b = true → k ∉ s.refs) {ks : Finset Bytes} (hk : k ∈ ks) (hn : s.refs.Nodup)
    (hm : ∀ k ∈ s.refs, k ∈ ks) : s'.refs.Nodup ∧ ∀ k ∈ s'.refs, k ∈ ks := by
  unfold Adds at h
  cases b with
  | false => exact ⟨nodup_of_subperm h hn, fun k' hk' => hm k' (h.subset hk')⟩
  | true =>
    refine ⟨nodup_of_subperm h (List.nodup_cons.2 ⟨hb rfl, hn⟩), fun k' hk' => ?_⟩
    rcases List.mem_cons.1 (h.subset hk') with rfl | hk'
    · exact hk
    · exact hm k' hk'

theorem callStep_slim {ks : Finset Bytes} {w : World σ} {p : Env × Call σ} (h : w.store.Slim ks)
    (hu : Unreferenced w p) (hk : ∀ k, p.2.keyUsed = some k → k ∈ ks) :
    (p.2.exec p.1 w).2.store.Slim ks := by
  obtain ⟨env, c⟩ := p
  intro sh' hsh'
  cases c with
  | key k op =>
    rcases List.mem_or_eq_of_mem_set hsh' with hm | rfl
    · exact h sh' hm
    · obtain ⟨hn, hm⟩ := h _ (w.store.shard_mem k)
      exact (Shard.exec_refs env op).slim hu (hk k rfl) hn hm
  | flushAll =>
    obtain ⟨i, hi, rfl⟩ := List.mem_mapIdx.1 hsh'
    exact ⟨List.nodup_nil, fun _ hk => absurd hk List.not_mem_nil⟩
  | purgeExpired =>
    obtain ⟨sh, hm, rfl⟩ := List.mem_map.1 hsh'
    rw [Shard.purgeExpired, Shard.dropKeys_refs]
    exact h sh hm
  | save =>
    simp only [Call.exec] at hsh'
    cases he : env.ioError <;> rw [he] at hsh' <;> exact h sh' hsh'
  | _ => exact h sh' hsh'

theorem run_slim {ks : Finset Bytes} :
    ∀ (run : List (Env × Call σ)) {w : World σ}, w.store.Slim ks →
    Lts.Along callStep Unreferenced w run → (∀ p ∈ run, ∀ k, p.2.keyUsed = some k → k ∈ ks) →
    (runCalls run w).store.Slim ks
  | [], _, h, _, _ => h
  | p :: run, _, h, ha, hk =>
    run_slim run (callStep_slim h ha.1 (hk p List.mem_cons_self)) (ha.2 _ rfl) fun q hq =>
      hk q (List.mem_cons_of_mem _ hq)

/-- **Bounded queues.** In every run of store calls in which a key is entered into the
policy only while the queues of its shard hold no reference to it, the two queues of
every shard together are never longer than the number of keys the run uses. -/
theorem queues_bounded (shards maxmemory : Nat) (router : Bytes → UInt64)
    (hasher : Nat → Nat → Bytes → UInt64) (file : Option Bytes) (run : List (Env × Call σ))
    (hfresh : Lts.Along callStep Unreferenced
      ⟨Store.new shards maxmemory router hasher, file⟩ run) :
    ∀ sh ∈ (runCalls run ⟨Store.new shards maxmemory router hasher, file⟩).store.shards,
      sh.pol.small.length + sh.pol.main.length ≤ (keysUsed run).card := fun _ hsh =>
  (run_slim run (new_slim shards maxmemory router hasher (keysUsed run)) hfresh fun _ hp _ hk =>
    keyUsed_mem hp hk).length_le hsh

instance decidableUnreferenced (w : World σ) : ∀ p, Decidable (Unreferenced w p)
  | (env, .key k op) =>
    inferInstanceAs (Decidable (op.pushes (liveAt env.now ((w.store.shard k).raw k)) = true →
      k ∉ (w.store.shard k).refs))
  | (_, .keys) => .isTrue trivial
  | (_, .dbsize) => .isTrue trivial
  | (_, .shardCount) => .isTrue trivial
  | (_, .flushAll) => .isTrue trivial
  | (_, .purgeExpired) => .isTrue trivial
  | (_, .nowMs) => .isTrue trivial
  | (_, .save) => .isTrue trivial

/-- A key that is set, overwritten and deleted, and another that is counted once. -/
def setOnce : List (Env × Call Int) :=
  [(Env.plain 0, .key (lit "a") (.set (lit "x") {})),
    (Env.plain 0, .key (lit "a") (.set (lit "y") {})), (Env.plain 0, .key (lit "n") (.incrBy 1)),
    (Env.plain 0, .key (lit "a") .del)]

theorem queues_bounded_setOnce : (keysUsed setOnce).card = 2 ∧
    ∀ sh ∈ (runCalls setOnce ⟨Store.new 1 1000 (fun _ => 0) (fun _ _ _ => 0), none⟩).store.shards,
      sh.pol.small.length + sh.pol.main.length ≤ 2 :=
  ⟨by decide +kernel, queues_bounded 1 1000 (fun _ => 0) (fun _ _ _ => 0) none setOnce
    (by decide +kernel)⟩

/-! ## Growth -/

/-- Set a key and delete it. -/
def setDel : List (Env × Call Int) :=
  [(Env.plain 0, .key (lit "k") (.set (lit "v") {})), (Env.plain 0, .key (lit "k") .del)]

/-- `n` references are left and the key is gone. -/
structure Leftover (n : Nat) (s : Shard Int) : Prop where
  refs : s.refs.length = n
  gone : s.map.get (lit "k") = none
  bytes : s.bytes = 0
  budget : s.budget = 1000

/-- Each round leaves one more. -/
theorem leftover_setDel {n : Nat} {s : Shard Int} (h : Leftover n s) :
    Leftover (n + 1) (KeyOp.exec (Env.plain 0) (lit "k") .del
      (KeyOp.exec (Env.plain 0) (lit "k") (.set (lit "v") {}) s).2).2 := by
  have hset : (KeyOp.exec (Env.plain 0) (lit "k") (.set (lit "v") {}) s).2 =
      s.putNew (lit "k") (.str (lit "v")) none := by
    simp only [KeyOp.exec, KeyOp.execM, Shard.setM, bind_id, pure_id, Shard.liveM_plain,
      Shard.live_absent h.gone, Bool.false_and, Bool.false_eq_true, if_false]
    refine Shard.enforceBudget_within fun _ => ?_
    show s.bytes + 66 ≤ s.budget
    rw [h.bytes, h.budget]
    decide
  have hget := Shard.putNew_value (s := s) (k := lit "k") (.str (lit "v")) none
  have hdel : ∀ t : Shard Int, t.map.get (lit "k") = some ⟨.str (lit "v"), none⟩ →
      KeyOp.exec (Env.plain 0) (lit "k") .del t = t.dropKey (lit "k") := by
    intro t ht
    simp [KeyOp.exec, KeyOp.execM, Shard.delM, bind_id, pure_id, Shard.liveM_plain,
      Shard.dropKeyM_plain, Shard.live_present ht rfl]
  rw [hset, hdel _ hget]
  refine ⟨?_, by rw [Shard.dropKey_get, if_pos rfl], ?_, Shard.dropKey_budget.trans h.budget⟩
  · have hperm : (s.putNew (lit "k") (.str (lit "v")) none).refs.Perm (lit "k" :: s.refs) := by
      simp only [Shard.refs, Shard.putNew, h.budget]
      exact S3Fifo.insert_refs
    rw [Shard.dropKey_refs, hperm.length_eq, List.length_cons, h.refs]
  · rw [Shard.dropKey_some hget]
    show s.bytes + 66 - 66 = 0
    rw [h.bytes]

theorem withShard_single {R : Type} {s : Store σ} {sh : Shard σ} (h : s.shards = [sh]) (k : Bytes)
    (f : Shard σ → R × Shard σ) : (s.withShard k f).2.shards = [(f sh).2] := by
  have hi : s.index k = 0 := by
    have := s.index_lt k
    rw [h] at this
    exact Nat.lt_one_iff.1 this
  have hs : s.shard k = sh := by
    simp only [Store.shard, hi, List.get_eq_getElem, h, List.getElem_singleton]
  show s.shards.set (s.index k) (f (s.shard k)).2 = _
  rw [hi, hs, h]
  rfl

/-- After `n` rounds there are `n` references. -/
theorem leftover_rounds (n : Nat) :
    ∃ sh, (runCalls (List.replicate n setDel).flatten
    ⟨Store.new 1 1000 (fun _ => 0) (fun _ _ _ => 0), none⟩).store.shards = [sh] ∧
      Leftover n sh := by
  induction n with
  | zero =>
    have h1 : Nat.nextPowerOfTwo 1 = 1 := by decide +kernel
    refine ⟨Shard.new 1000 fun _ _ => 0, ?_, rfl, FlatMap.get_new .., rfl, rfl⟩
    simp [runCalls, Store.new, h1]
  | succ n ih =>
    obtain ⟨sh, hs, hl⟩ := ih
    refine ⟨_, ?_, leftover_setDel hl⟩
    rw [List.replicate_succ', List.flatten_append, runCalls, List.foldl_append, ← runCalls]
    exact withShard_single (withShard_single hs _ _) _ _

/-- No function of the number of keys bounds the queues: with one key, they grow with
every round. -/
theorem queues_grow : ¬ ∃ bound : Nat → Nat, ∀ run : List (Env × Call Int),
    ∀ sh ∈ (runCalls run ⟨Store.new 1 1000 (fun _ => 0) (fun _ _ _ => 0), none⟩).store.shards,
      sh.pol.small.length + sh.pol.main.length ≤ bound (keysUsed run).card := by
  intro ⟨bound, h⟩
  have hkeys : ∀ n, (keysUsed (List.replicate (n + 1) setDel).flatten).card = 1 := by
    intro n
    have hk : keysUsed (List.replicate (n + 1) setDel).flatten = {lit "k"} := by
      ext k
      simp only [keysUsed, List.mem_toFinset, List.mem_filterMap, List.mem_flatten,
        Finset.mem_singleton]
      constructor
      · intro ⟨p, ⟨l, hl, hp⟩, hk⟩
        rw [List.eq_of_mem_replicate hl] at hp
        rcases List.mem_cons.1 hp with rfl | hp
        · exact (Option.some.inj hk).symm
        · rw [List.mem_singleton.1 hp] at hk
          exact (Option.some.inj hk).symm
      · intro hk
        exact ⟨_, ⟨setDel, List.mem_replicate.2 ⟨Nat.succ_ne_zero n, rfl⟩, List.mem_cons_self⟩,
          by rw [hk]; rfl⟩
    rw [hk, Finset.card_singleton]
  obtain ⟨sh, hs, hl⟩ := leftover_rounds (bound 1 + 1)
  have hle :=
    h (List.replicate (bound 1 + 1) setDel).flatten sh (by rw [hs]; exact List.mem_singleton.2 rfl)
  have hlen : sh.pol.small.length + sh.pol.main.length = bound 1 + 1 :=
    (List.length_append ..).symm.trans hl.refs
  rw [hkeys] at hle
  omega

end Inmem.L3
