import Inmem.L3Store.ShardRefine

/-!
# The store refines one keyspace

`Store.raw` is the keyspace a store holds. `Store.Good` is the invariant of
unbounded stores: every key lies in the shard it is routed to, and no stored
collection is empty.

* `exec_good`, `exec_raw`: every call keeps the invariant and acts on the
  keyspace as `Call.spec` does; `purge_expired` only drops what has expired.
* `exec_same`: every call answers like the finite map.
* `store_refines`: whole runs, with clock readings that do not decrease.
-/
namespace Inmem.L3

open Inmem.L1 Inmem.Core.Decimal
open Inmem.L2 (FlatMap)

/-! ## The specification keeps collections non-empty -/

section
variable {σ : Type}

/-- A record without an empty collection. -/
def RecFull (r : Option (Rec σ)) : Prop := ∀ x, r = some x → x.val.NonEmpty

theorem liveAt_full {t : Nat} {r : Option (Rec σ)} (h : RecFull r) : RecFull (liveAt t r) :=
  fun x hx => h x (liveAt_eq_some.1 hx).1

/-- The emptiness test of a collection type is right. -/
def Sound {C : Type} (col : Coll (Val σ) C) : Prop :=
  ∀ c, col.isEmpty c = false → (col.wrap c).NonEmpty

theorem keys_card_ne {V : Type} {h : Finmap fun _ : Bytes => V} (hc : (h.keys.card == 0) = false) :
    h ≠ ∅ := by
  rintro rfl; simp at hc

theorem keys_card_eq {V : Type} {h : Finmap fun _ : Bytes => V} (hc : (h.keys.card == 0) = true) :
    h = ∅ := by
  refine Finmap.ext_lookup fun k => ?_
  have hk : h.keys = ∅ := Finset.card_eq_zero.1 (by simpa using hc)
  rw [Finmap.lookup_empty, Finmap.lookup_eq_none, ← Finmap.mem_keys, hk]
  simp

theorem sound_list : Sound (σ := σ) VColl.list := by
  intro l h hl; subst hl; cases h

theorem sound_hash : Sound (σ := σ) VColl.hash := fun _ h => keys_card_ne h

theorem sound_set : Sound (σ := σ) VColl.set := by
  intro s h hs; subst hs; simp [VColl.set] at h

theorem sound_zset : Sound (σ := σ) VColl.zset := fun _ h => keys_card_ne h

theorem specColl_full {C R : Type} {col : Coll (Val σ) C} (hc : Sound col) (body : C → R × C)
    {r : Option (Rec σ)} (h : RecFull r) : RecFull (specColl col body r).2 := by
  intro x hx
  cases r with
  | none =>
    simp only [specColl] at hx
    cases he : col.isEmpty (body col.make).2 with
    | true => rw [he] at hx; cases hx
    | false => rw [he] at hx; cases hx; exact hc _ he
  | some r =>
    simp only [specColl] at hx
    cases hu : col.unwrap r.val with
    | none => rw [hu] at hx; cases hx; exact h _ rfl
    | some c =>
      simp only [hu] at hx
      cases he : col.isEmpty (body c).2 with
      | true => rw [he] at hx; cases hx
      | false => rw [he] at hx; cases hx; exact hc _ he

theorem recFull_str (v : Bytes) (d : Option Nat) : RecFull (some (⟨.str v, d⟩ : Rec σ)) := by
  intro x hx; cases hx; trivial

end

variable {σ : Type} [Score σ]

theorem spec_full (now : Nat) (op : KeyOp σ) {r : Option (Rec σ)} (h : RecFull r) :
    RecFull (op.spec now r).2 := by
  cases op with
  | set value opts =>
    simp only [KeyOp.spec]
    split
    · exact recFull_str _ _
    · exact h
  | del => intro x hx; cases hx
  | expireAt d =>
    intro x hx
    obtain ⟨y, hy, rfl⟩ := Option.map_eq_some_iff.1 hx
    exact h y hy
  | incrBy delta =>
    simp only [KeyOp.spec, specIncr]
    split
    · exact h
    · split
      · exact h
      · split
        · exact recFull_str _ _
        · exact h
  | append suffix =>
    simp only [KeyOp.spec, specAppend]
    split
    · exact h
    · exact recFull_str _ _
  | push => exact specColl_full sound_list _ h
  | pop => exact specColl_full sound_list _ h
  | hset => exact specColl_full sound_hash _ h
  | hdel => exact specColl_full sound_hash _ h
  | sadd => exact specColl_full sound_set _ h
  | srem => exact specColl_full sound_set _ h
  | zadd => exact specColl_full sound_zset _ h
  | zrem => exact specColl_full sound_zset _ h
  | _ => exact h

/-! ## The keyspace of a store -/

namespace Store

/-- The keyspace a store holds. -/
def raw (s : Store σ) : View σ := fun k => (s.shard k).raw k

/-- Every key lies in the shard it is routed to. -/
def Routed (s : Store σ) : Prop :=
  ∀ i (h : i < s.shards.length) k, (s.shards[i].map.get k).isSome → s.index k = i

/-- The invariant of an unbounded store. -/
structure Good (s : Store σ) : Prop where
  unbounded : ∀ sh ∈ s.shards, sh.budget = 0
  routed : s.Routed
  full : ∀ k, RecFull (s.raw k)

variable {s : Store σ} {k : Bytes}

theorem shard_setShards (l : List (Shard σ)) (h : l.length = s.shards.length) (k : Bytes) :
    (s.setShards l h).shard k = l.get ⟨s.index k, h ▸ s.index_lt k⟩ := rfl

theorem shard_mem (s : Store σ) (k : Bytes) : s.shard k ∈ s.shards := List.get_mem ..

theorem withShard_raw {R : Type} (k : Bytes) (f : Shard σ → R × Shard σ) :
    (s.withShard k f).2.raw k = (f (s.shard k)).2.raw k := by
  have hsh : (s.withShard k f).2.shard k = (f (s.shard k)).2 := by
    simp only [withShard, shard_setShards, List.get_eq_getElem, List.getElem_set_self]
  rw [raw, hsh]

theorem raw_set {sh : Shard σ} {r : Option (Rec σ)} (h : Shard.Upd (s.shard k) k r sh) :
    (s.setShards (s.shards.set (s.index k) sh) List.length_set).raw = s.raw.put k r := by
  funext k'
  simp only [raw, shard_setShards, List.get_eq_getElem, List.getElem_set]
  by_cases hi : s.index k = s.index k'
  · have hsh : s.shard k' = s.shard k := by simp only [shard, hi]
    rw [if_pos hi, h.raw]
    simp only [View.put, raw, hsh]
  · have hk : k' ≠ k := by rintro rfl; exact hi rfl
    rw [if_neg hi, View.put_other _ _ hk]
    rfl

theorem routed_set {sh : Shard σ} (hr : s.Routed)
    (h : ∀ k', k' ≠ k → (sh.map.get k').isSome → ((s.shard k).map.get k').isSome) :
    (s.setShards (s.shards.set (s.index k) sh) List.length_set).Routed := by
  intro i hi k' hk'
  have hi' : i < s.shards.length := by simpa [setShards] using hi
  show s.index k' = i
  simp only [setShards, List.getElem_set] at hk'
  by_cases hc : s.index k = i
  · rw [if_pos hc] at hk'
    by_cases hkk : k' = k
    · rw [hkk]; exact hc
    · rw [← hc]
      exact hr (s.index k) (s.index_lt k) k' (h k' hkk hk')
  · rw [if_neg hc] at hk'
    exact hr i hi' k' hk'

end Store

/-! ## Calls keep the invariant and follow the specification -/

theorem Shard.Upd.isSome_other {s s' : Shard σ} {k k' : Bytes} {r : Option (Rec σ)}
    (h : Shard.Upd s k r s') (hk : k' ≠ k) : (s'.map.get k').isSome = (s.map.get k').isSome := by
  have := congrArg Option.isSome (congrFun h.raw k')
  rw [View.put_other _ _ hk] at this
  simpa [Shard.raw] using this

section purge
variable {s : Shard σ}

theorem Shard.dropKeys_get (ks : List Bytes) : ∀ (s : Shard σ) (k : Bytes),
    (countFold dropKey ks s).2.map.get k = if k ∈ ks then none else s.map.get k := by
  induction ks with
  | nil => intro s k; simp [countFold]
  | cons k' ks ih =>
    intro s k
    simp only [countFold, ih, dropKey_get, List.mem_cons]
    by_cases h1 : k ∈ ks <;> by_cases h2 : k = k' <;> simp [h1, h2]

theorem Shard.dropKeys_budget (ks : List Bytes) :
    ∀ s : Shard σ, (countFold dropKey ks s).2.budget = s.budget := by
  induction ks with
  | nil => intro s; rfl
  | cons k' ks ih => intro s; simp only [countFold, ih, dropKey_budget]

theorem Shard.mem_expiredKeys {now : Nat} {k : Bytes} :
    k ∈ s.expiredKeys now ↔ ∃ e, s.map.get k = some e ∧ expired now e.expireAt = true := by
  simp only [expiredKeys, List.mem_map, List.mem_filter]
  constructor
  · rintro ⟨⟨k', e⟩, ⟨hm, he⟩, rfl⟩; exact ⟨e, (FlatMap.mem_iter _).1 hm, he⟩
  · rintro ⟨e, hg, he⟩; exact ⟨(k, e), ⟨(FlatMap.mem_iter _).2 hg, he⟩, rfl⟩

/-- Purging drops exactly what has expired. -/
theorem Shard.purge_raw (now : Nat) : (s.purgeExpired now).2.raw = s.raw.at now := by
  funext k
  simp only [raw, purgeExpired, dropKeys_get, View.at]
  by_cases hk : k ∈ s.expiredKeys now
  · obtain ⟨e, hg, he⟩ := mem_expiredKeys.1 hk
    rw [if_pos hk, hg]
    simp [liveAt, Entry.abs, Option.filter_some, he]
  · rw [if_neg hk]
    cases hg : s.map.get k with
    | none => rfl
    | some e =>
      have he : expired now e.expireAt = false := by
        by_contra hc
        exact hk (mem_expiredKeys.2 ⟨e, hg, by simpa using hc⟩)
      simp [liveAt, Entry.abs, Option.filter_some, he]

end purge

namespace Store

variable {s : Store σ}

theorem flushAll_raw (env : Env) : (s.flushAll env).raw = fun _ => none := by
  funext k
  simp [raw, flushAll, shard_setShards, Shard.raw, Shard.new]

theorem purgeExpired_raw (env : Env) : (s.purgeExpired env).2.raw = s.raw.at env.now := by
  funext k
  simp only [raw, purgeExpired, shard_setShards, List.get_eq_getElem, List.getElem_map,
    Shard.purge_raw]
  rfl

theorem flushAll_routed (env : Env) : (s.flushAll env).Routed := by
  intro i hi k hk
  simp [flushAll, setShards, Shard.new] at hk

theorem purgeExpired_routed (hr : s.Routed) (env : Env) : (s.purgeExpired env).2.Routed := by
  intro i hi k hk
  have hi' : i < s.shards.length := by simpa [purgeExpired, setShards] using hi
  apply hr i hi' k
  simp only [purgeExpired, setShards, List.getElem_map, Shard.purgeExpired, Shard.dropKeys_get]
    at hk
  split at hk
  · cases hk
  · exact hk

theorem flushAll_good (hg : s.Good) (env : Env) : (s.flushAll env).Good where
  unbounded sh hsh := by
    simp only [flushAll, setShards, List.mem_mapIdx] at hsh
    obtain ⟨i, hi, rfl⟩ := hsh
    exact hg.unbounded s.shards[i] (List.getElem_mem hi)
  routed := flushAll_routed env
  full k x hx := by rw [flushAll_raw] at hx; cases hx

theorem purgeExpired_good (hg : s.Good) (env : Env) : (s.purgeExpired env).2.Good where
  unbounded sh hsh := by
    simp only [purgeExpired, setShards, List.mem_map] at hsh
    obtain ⟨sh', hm, rfl⟩ := hsh
    rw [Shard.purgeExpired, Shard.dropKeys_budget]; exact hg.unbounded _ hm
  routed := purgeExpired_routed hg.routed env
  full k := by rw [purgeExpired_raw]; exact liveAt_full (hg.full k)

/-- No shard has a budget. -/
def Unbounded (s : Store σ) : Prop := ∀ sh ∈ s.shards, sh.budget = 0

theorem key_raw (hb : s.Unbounded) (env : Env) (k : Bytes) (op : KeyOp σ) :
    (s.withShard k (op.exec env k)).2.raw =
      s.raw.put k (op.spec env.now (liveAt env.now (s.raw k))).2 :=
  raw_set (Shard.exec_spec env k op _ (hb _ (s.shard_mem k))).2

theorem key_unbounded (hb : s.Unbounded) (env : Env) (k : Bytes) (op : KeyOp σ) :
    (s.withShard k (op.exec env k)).2.Unbounded := by
  intro sh hsh
  rcases List.mem_or_eq_of_mem_set hsh with hm | rfl
  · exact hb _ hm
  · have hk := hb _ (s.shard_mem k)
    exact (Shard.exec_spec env k op _ hk).2.budget.trans hk

theorem key_good (hg : s.Good) (env : Env) (k : Bytes) (op : KeyOp σ) :
    (s.withShard k (op.exec env k)).2.Good where
  unbounded := key_unbounded hg.unbounded env k op
  routed :=
    routed_set hg.routed fun _ hk h =>
      (Shard.exec_spec env k op _ (hg.unbounded _ (s.shard_mem k))).2.isSome_other hk ▸ h
  full k' := by
    rw [key_raw hg.unbounded]
    by_cases hk : k' = k
    · rw [hk, View.put_self]; exact spec_full _ _ (liveAt_full (hg.full k))
    · rw [View.put_other _ _ hk]; exact hg.full k'

end Store

/-- Every call keeps the invariant. -/
theorem exec_good (env : Env) (c : Call σ) {w : World σ} (hg : w.store.Good) :
    (c.exec env w).2.store.Good := by
  cases c with
  | key k op => exact Store.key_good hg env k op
  | flushAll => exact Store.flushAll_good hg env
  | purgeExpired => exact Store.purgeExpired_good hg env
  | save =>
    simp only [Call.exec]
    cases env.ioError <;> exact hg
  | _ => exact hg

theorem runCalls_good (run : List (Env × Call σ)) {w : World σ} (hg : w.store.Good) :
    (runCalls run w).store.Good :=
  runCalls_keeps (I := fun w => w.store.Good) (fun env c _ h => exec_good env c h) run hg

/-- Every call but `purge_expired` does to the keyspace what the specification says. -/
theorem exec_raw (env : Env) (c : Call σ) {w : World σ} (hg : w.store.Good)
    (hc : c ≠ .purgeExpired) : (c.exec env w).2.store.raw = (c.spec env.now w.store.raw).2 := by
  cases c with
  | key k op => exact Store.key_raw hg.unbounded env k op
  | flushAll => exact Store.flushAll_raw env
  | purgeExpired => exact absurd rfl hc
  | save =>
    simp only [Call.exec]
    cases env.ioError <;> rfl
  | _ => rfl

/-- A call answers like the specification, if that determines the answer. -/
theorem exec_det (env : Env) (c : Call σ) {w : World σ} (hg : w.store.Good) (hc : c.Det) :
    (c.exec env w).1 = (c.spec env.now w.store.raw).1 := by
  cases c with
  | key k op =>
    have h := (Shard.exec_spec env k op _ (hg.unbounded _ (w.store.shard_mem k))).1
    cases op <;> first | exact h | exact hc.elim
  | flushAll => rfl
  | nowMs => rfl
  | _ => exact hc.elim

/-! ## Listing the keys -/

theorem Shard.mem_keys {s : Shard σ} {now : Nat} {k : Bytes} :
    k ∈ s.keys now ↔ ∃ e, s.map.get k = some e ∧ expired now e.expireAt = false := by
  simp only [keys, List.mem_map, List.mem_filter, Bool.not_eq_true']
  constructor
  · rintro ⟨⟨k', e⟩, ⟨hm, he⟩, rfl⟩; exact ⟨e, (FlatMap.mem_iter _).1 hm, he⟩
  · rintro ⟨e, hg, he⟩; exact ⟨(k, e), ⟨(FlatMap.mem_iter _).2 hg, he⟩, rfl⟩

theorem Shard.mem_keys_iff {s : Shard σ} {now : Nat} {k : Bytes} :
    k ∈ s.keys now ↔ (liveAt now (s.raw k)).isSome := by
  rw [mem_keys, Option.isSome_iff_exists]
  constructor
  · rintro ⟨e, hg, he⟩; exact ⟨e.abs, liveAt_eq_some.2 ⟨by simp [raw, hg], he⟩⟩
  · rintro ⟨x, hx⟩
    obtain ⟨h1, h2⟩ := liveAt_eq_some.1 hx
    obtain ⟨e, hg, rfl⟩ := Option.map_eq_some_iff.1 h1
    exact ⟨e, hg, h2⟩

theorem Shard.keys_nodup (s : Shard σ) (now : Nat) : (s.keys now).Nodup :=
  s.map.iter_nodup.sublist (List.filter_sublist.map _)

namespace Store

variable {s : Store σ}

theorem index_of_mem_keys (hr : s.Routed) {i now : Nat} (hi : i < s.shards.length) {k : Bytes}
    (hk : k ∈ s.shards[i].keys now) : s.index k = i := by
  obtain ⟨e, hg, -⟩ := Shard.mem_keys.1 hk
  exact hr i hi k (by rw [hg]; rfl)

theorem mem_keys (hr : s.Routed) (env : Env) {k : Bytes} :
    k ∈ s.keys env ↔ (liveAt env.now (s.raw k)).isSome := by
  simp only [keys, List.mem_flatMap]
  constructor
  · rintro ⟨sh, hm, hk⟩
    obtain ⟨i, hi, rfl⟩ := List.getElem_of_mem hm
    have := index_of_mem_keys hr hi hk
    subst this
    exact Shard.mem_keys_iff.1 hk
  · intro h; exact ⟨s.shard k, s.shard_mem k, Shard.mem_keys_iff.2 h⟩

theorem keys_nodup (hr : s.Routed) (env : Env) : (s.keys env).Nodup := by
  rw [keys, List.nodup_flatMap]
  refine ⟨fun sh _ => sh.keys_nodup _, List.pairwise_iff_getElem.2 fun i j hi hj hij k h1 h2 => ?_⟩
  have e1 := index_of_mem_keys hr hi h1
  have e2 := index_of_mem_keys hr hj h2
  omega

end Store

/-! ## The finite map -/

namespace Kv

/-- The finite map as a keyspace. -/
def raw {σ : Type} (a : Kv σ) : View σ := fun k => a.lookup k

theorem put_raw {σ : Type} (a : Kv σ) (k : Bytes) (r : Option (Rec σ)) :
    (a.put k r).raw = a.raw.put k r := by
  funext k'
  by_cases hk : k' = k
  · subst hk
    cases r <;> simp [raw, put, Finmap.lookup_erase, Finmap.lookup_insert]
  · cases r <;>
      simp [raw, put, View.put, hk, Finmap.lookup_erase_ne hk, Finmap.lookup_insert_of_ne _ hk]

theorem exec_raw (now : Nat) (c : Call σ) (a : Kv σ) :
    (exec now c a).2.raw = (c.spec now a.raw).2 := by
  cases c with
  | key k op => exact put_raw a k _
  | flushAll => rfl
  | _ => rfl

theorem mem_keys {σ : Type} {a : Kv σ} {t : Nat} {k : Bytes} :
    k ∈ a.keys t ↔ (a.find t k).isSome := by
  simp only [keys, List.mem_filter, Finset.mem_sort, Finmap.mem_keys, ← Finmap.lookup_isSome]
  constructor
  · exact fun h => h.2
  · intro h
    obtain ⟨x, hx⟩ := Option.isSome_iff_exists.1 h
    exact ⟨by rw [(liveAt_eq_some.1 hx).1]; rfl, h⟩

theorem keys_nodup {σ : Type} (a : Kv σ) (t : Nat) : (a.keys t).Nodup :=
  (Finset.sort_nodup ..).filter _

end Kv

/-! ## Runs -/

/-- One call on any store: if it holds what the finite map holds at the call's time, it
answers as that does. -/
theorem exec_answer (env : Env) (c : Call σ) {w : World σ} {a : Kv σ} (hr : w.store.Routed)
    (h : w.store.raw.at env.now = a.raw.at env.now) :
    c.Same (c.exec env w).1 (Kv.exec env.now c a).1 := by
  cases c with
  | key k op =>
    have hs := (Shard.exec_effect env k op (w.store.shard k)).1
    have hk : liveAt env.now ((w.store.shard k).raw k) = a.find env.now k := congrFun h k
    rw [hk] at hs; exact hs
  | keys =>
    refine (List.perm_ext_iff_of_nodup (Store.keys_nodup hr env) (Kv.keys_nodup a _)).2 fun k => ?_
    have hk : liveAt env.now (w.store.raw k) = a.find env.now k := congrFun h k
    rw [Store.mem_keys hr, Kv.mem_keys, hk]
  | nowMs => rfl
  | _ => trivial

/-- One call: the store and the finite map, equal at the call's time, give the
same answer and stay equal. -/
theorem exec_same (env : Env) (c : Call σ) {w : World σ} {a : Kv σ} (hg : w.store.Good)
    (h : w.store.raw.at env.now = a.raw.at env.now) :
    c.Same (c.exec env w).1 (Kv.exec env.now c a).1 ∧
      (c.exec env w).2.store.raw.at env.now = (Kv.exec env.now c a).2.raw.at env.now := by
  refine ⟨exec_answer env c hg.routed h, ?_⟩
  rw [Kv.exec_raw, ← (c.spec_congr h).2]
  by_cases hc : c = .purgeExpired
  · subst hc
    show (w.store.purgeExpired env).2.raw.at env.now = w.store.raw.at env.now
    rw [Store.purgeExpired_raw, View.at_at le_rfl]
  · rw [exec_raw env c hg hc]

/-- Along a run every answer agrees with the finite map's, and no stored
collection is empty. -/
def Agree : List (Env × Call σ) → World σ → Kv σ → Prop
  | [], _, _ => True
  | (env, c) :: rest, w, a =>
    c.Same (c.exec env w).1 (Kv.exec env.now c a).1 ∧
      (∀ k r, (c.exec env w).2.store.raw k = some r → r.val.NonEmpty) ∧
      Agree rest (c.exec env w).2 (Kv.exec env.now c a).2

theorem agree_run (run : List (Env × Call σ)) : ∀ (t : Nat) (w : World σ) (a : Kv σ),
    (run.map fun p => p.1.now).Pairwise (· ≤ ·) → (∀ p ∈ run, t ≤ p.1.now) → w.store.Good →
    w.store.raw.at t = a.raw.at t → Agree run w a := by
  induction run with
  | nil => intros; trivial
  | cons p run ih =>
    intro t w a hmono ht hg h
    obtain ⟨env, c⟩ := p
    rw [List.map_cons, List.pairwise_cons] at hmono
    have hnow := View.at_mono (ht _ List.mem_cons_self) h
    obtain ⟨hs, hr⟩ := exec_same env c hg hnow
    have hg' := exec_good env c hg
    exact ⟨hs, fun k => hg'.full k,
      ih env.now _ _ hmono.2 (fun q hq => hmono.1 _ (List.mem_map.2 ⟨q, hq, rfl⟩)) hg' hr⟩

theorem new_raw (shards maxmemory : Nat) (router : Bytes → UInt64)
    (hasher : Nat → Nat → Bytes → UInt64) :
    (Store.new shards maxmemory router hasher : Store σ).raw = fun _ => none := by
  funext k
  simp [Store.raw, Store.shard, Store.new, Shard.raw, Shard.new]

theorem new_routed (shards maxmemory : Nat) (router : Bytes → UInt64)
    (hasher : Nat → Nat → Bytes → UInt64) :
    (Store.new shards maxmemory router hasher : Store σ).Routed := by
  intro i hi k hk
  simp [Store.new, Shard.new] at hk

theorem new_good (shards : Nat) (router : Bytes → UInt64) (hasher : Nat → Nat → Bytes → UInt64) :
    (Store.new shards 0 router hasher : Store σ).Good where
  unbounded sh hsh := by
    simp only [Store.new, List.mem_map] at hsh
    obtain ⟨i, -, rfl⟩ := hsh
    rfl
  routed := new_routed shards 0 router hasher
  full k x hx := by rw [new_raw] at hx; cases hx

/-- **Refinement.** For every number of shards, router and hashers, every run of
store calls from an empty unbounded store, each with its own clock reading and
the readings not decreasing, answers like one finite map of records in which an
expired record does not exist; and no stored collection is ever empty. -/
theorem store_refines (shards : Nat) (router : Bytes → UInt64) (hasher : Nat → Nat → Bytes → UInt64)
    (snapshot : Option Bytes) (run : List (Env × Call σ))
    (hclock : (run.map fun p => p.1.now).Pairwise (· ≤ ·)) :
    Agree run ⟨Store.new shards 0 router hasher, snapshot⟩ ∅ :=
  agree_run run 0 _ _ hclock (fun _ _ => Nat.zero_le _) (new_good ..)
    (by rw [new_raw]; rfl)

/-- A run over a deadline: the key is there before it and gone at it. -/
theorem store_refines_deadline :
    Agree (σ := Int)
      [(Env.plain 0, .key (lit "k") (.set (lit "7") { expireAt := some 10 })),
        (Env.plain 9, .key (lit "k") (.incrBy 1)), (Env.plain 10, .key (lit "k") .get),
        (Env.plain 10, .keys), (Env.plain 11, .purgeExpired)]
      ⟨Store.new 4 0 (fun k => k.length.toUInt64) (fun _ _ _ => 0), none⟩ ∅ :=
  store_refines 4 _ _ none _ (by decide)

end Inmem.L3
