import Inmem.L3Store.Eviction
import Inmem.L3Store.Unchanged

/-!
# A store with a memory limit is a map that forgets

Without a limit the store is a plain map (`Refine`). With one it is a cache: every call is
still answered as the plain map answers it, from what is there, and a write may then
make it forget some keys.

* `enforceLoop_lost`: the budget check forgets keys and does nothing else; the last one
  to go did not fit beside what is left.
* `Lost`: what a call may forget. Only a call that leaves its key with more bytes than it had
  forgets, only keys of that key's shard, and not if it can do without.
* `cache_refines`: every run of the store is one of the forgetting map.
-/
namespace Inmem.L3

open Inmem.L1
open Inmem.L2 (FlatMap S3Fifo)

/-! ## Forgetting -/

section
variable {σ : Type}

/-- The keyspace without some of its keys. -/
def View.forget (v : View σ) (lost : List Bytes) : View σ := fun k => if k ∈ lost then none else v k

@[simp] theorem View.forget_nil (v : View σ) : v.forget [] = v := by
  funext k
  simp [View.forget]

theorem View.forget_at (v : View σ) (lost : List Bytes) (t : Nat) :
    (v.forget lost).at t = (v.at t).forget lost := by
  funext k
  simp only [View.at, View.forget]
  split <;> rfl

/-- The finite map without some of its keys. -/
def Kv.forget (a : Kv σ) (lost : List Bytes) : Kv σ := lost.foldl (fun a k => a.erase k) a

theorem Kv.forget_raw (lost : List Bytes) :
    ∀ a : Kv σ, (a.forget lost).raw = a.raw.forget lost := by
  induction lost with
  | nil => exact fun a => (View.forget_nil _).symm
  | cons x lost ih =>
    intro a
    refine (ih (a.erase x)).trans (funext fun k => ?_)
    by_cases hk : k = x
    · subst hk
      simp [View.forget, Kv.raw]
    · simp [View.forget, Kv.raw, hk, Finmap.lookup_erase_ne hk]

end

variable {σ : Type} [Score σ]

/-! ## One shard -/

namespace Shard

variable {s s' : Shard σ} {k : Bytes} {r : Option (Rec σ)}

/-- The loop of the budget check forgets some of the keys, none if it can do without: the
last one to go did not fit beside what is left. -/
theorem enforceLoop_lost (f : Nat) : ∀ s : Shard σ, s.Kept → s.budget ≠ 0 → s.map.len < f →
    ∃ lost, (∀ k, (enforceLoop f s).map.get k = if k ∈ lost then none else s.map.get k) ∧
      (∀ x ∈ lost, (s.map.get x).isSome = true) ∧ (lost = [] → enforceLoop f s = s) ∧
      (lost ≠ [] → ∃ x ∈ lost, ∃ e, s.map.get x = some e ∧
        s.budget < (enforceLoop f s).bytes + footprint x e) := by
  induction f with
  | zero => intro s _ _ h; omega
  | succ f ih =>
    intro s hs hb hlen
    rcases enforceLoop_cases f s with ⟨-, hstep⟩ | ⟨hover, hv, -⟩ | ⟨v, hover, hv, hstep⟩
    · rw [hstep]
      exact ⟨[], fun k => by simp, fun x hx => absurd hx List.not_mem_nil, fun _ => rfl,
        fun h => absurd rfl h⟩
    · have := evict_empty hs hb hv
      omega
    · obtain ⟨hk, e, he⟩ := evict_kept hs hb hv
      have hlen' := evicted_len hb he
      obtain ⟨lost, hget, hmem, hnil, hneed⟩ :=
        ih (s.evicted v) hk (by rw [evicted_budget]; exact hb) (by omega)
      have hrest : ∀ k, (s.evicted v).map.get k = if k = v then none else s.map.get k :=
        fun k => dropKey_get k
      have hin : ∀ x ∈ lost, x ≠ v ∧ s.map.get x = (s.evicted v).map.get x := by
        intro x hx
        have hsome := hmem x hx
        rw [hrest] at hsome ⊢
        by_cases hxv : x = v
        · rw [if_pos hxv] at hsome; cases hsome
        · exact ⟨hxv, by rw [if_neg hxv]⟩
      rw [hstep]
      refine ⟨v :: lost, fun k => ?_, fun x hx => ?_, fun h => absurd h (List.cons_ne_nil _ _),
        fun _ => ?_⟩
      · rw [hget, hrest]
        by_cases hkv : k = v
        · simp [hkv]
        · simp [hkv]
      · rcases List.mem_cons.1 hx with rfl | hx
        · rw [he]; rfl
        · rw [(hin x hx).2]; exact hmem x hx
      · by_cases hl : lost = []
        · -- `v` was the last to go
          refine ⟨v, List.mem_cons_self, e, he, ?_⟩
          have hfp := footprint_le hs he
          rw [hnil hl, evicted_eq hb he]
          dsimp only
          omega
        · obtain ⟨x, hx, e', he', hlt⟩ := hneed hl
          rw [evicted_budget] at hlt
          exact ⟨x, List.mem_cons_of_mem _ hx, e', (hin x hx).2.trans he', hlt⟩

/-- The record `r'` of a key takes more bytes than `r`, if that is one. -/
def Grown (k : Bytes) (r r' : Option (Rec σ)) : Prop :=
  ∃ e' : Entry σ, r' = some e'.abs ∧ ∀ e : Entry σ, r = some e.abs → footprint k e < footprint k e'

/-- A shard that has grown has grown at the key. -/
theorem Step.grown (h : Step s k r s') (hs : s.Kept) (hlt : s.bytes < s'.bytes) :
    Grown k (s.raw k) r := by
  have hbytes := h.bytes hs
  cases hget : s'.map.get k with
  | none => rw [FlatMap.share_none hget] at hbytes; omega
  | some e' =>
    refine ⟨e', by rw [← h.raw_self, Shard.raw, hget]; rfl, fun e he => ?_⟩
    have hold : s.map.get k = some e := Option.map_injective (fun _ _ => Entry.abs_inj) he
    rw [FlatMap.share_some hget, FlatMap.share_some hold] at hbytes
    omega

/-- What an operation leaves: its record, and some keys forgotten. -/
theorem Effect.lost (h : Effect s k r s') (hs : s.Kept) (hw : s.Within) :
    ∃ lost, s'.raw = (s.raw.put k r).forget lost ∧ (∀ x ∈ lost, (s.raw.put k r x).isSome = true) ∧
      (lost ≠ [] → s.budget ≠ 0 ∧ Grown k (s.raw k) r ∧
        ∃ x ∈ lost, ∃ e : Entry σ, s.raw.put k r x = some e.abs ∧
        s.budget < s'.bytes + footprint x e) := by
  obtain ⟨s₁, hstep, hs'⟩ := h
  have hplain : s' = s₁ → ∃ lost,
      s'.raw = (s.raw.put k r).forget lost ∧ (∀ x ∈ lost, (s.raw.put k r x).isSome = true) ∧
      (lost ≠ [] → s.budget ≠ 0 ∧ Grown k (s.raw k) r ∧
        ∃ x ∈ lost, ∃ e : Entry σ, s.raw.put k r x = some e.abs ∧
        s.budget < s'.bytes + footprint x e) := by
    rintro rfl
    exact ⟨[], by rw [View.forget_nil, hstep.raw], fun x hx => absurd hx List.not_mem_nil,
      fun h => absurd rfl h⟩
  rcases hs' with hs' | ⟨hs', -⟩
  · by_cases hw₁ : s₁.Within
    · exact hplain (hs'.trans (enforceBudget_within hw₁))
    · obtain ⟨hb₁, hover⟩ : s₁.budget ≠ 0 ∧ s₁.budget < s₁.bytes := by simpa [Within] using hw₁
      have hk₁ := hstep.kept hs
      have hb : s.budget ≠ 0 := by rw [← hstep.budget]; exact hb₁
      have hlt : s.bytes < s₁.bytes := lt_of_le_of_lt (hw hb) (by rwa [← hstep.budget])
      obtain ⟨lost, hget, hmem, -, hneed⟩ :=
        enforceLoop_lost (s₁.pol.metas.len + 1) s₁ hk₁ hb₁ (by rw [hk₁.metas_len hb₁]; omega)
      have hloop : s' = enforceLoop (s₁.pol.metas.len + 1) s₁ := by
        rw [hs', enforceBudget_bounded hb₁]
      rw [← hloop] at hget hneed
      rw [← hstep.raw]
      refine ⟨lost, funext fun x => ?_, fun x hx => ?_, fun hne => ⟨hb, hstep.grown hs hlt, ?_⟩⟩
      · simp only [Shard.raw, View.forget, hget]
        split <;> rfl
      · rw [Shard.raw, Option.isSome_map]
        exact hmem x hx
      · obtain ⟨x, hx, e, he, hlt⟩ := hneed hne
        rw [hstep.budget] at hlt
        exact ⟨x, hx, e, by rw [Shard.raw, he]; rfl, hlt⟩
  · exact hplain hs'

theorem Effect.isSome_other (h : Effect s k r s') {k' : Bytes} (hk : k' ≠ k)
    (hs : (s'.map.get k').isSome) : (s.map.get k').isSome := by
  have hraw := h.raw k'
  rw [View.put_other _ _ hk] at hraw
  rcases hraw with hraw | hraw
  · rw [← get_of_raw hraw]; exact hs
  · rw [get_of_raw_none hraw] at hs; cases hs

end Shard

/-! ## The store -/

namespace Store

variable {s : Store σ} {k : Bytes}

/-- What an operation on a key leaves of the keyspace. What is forgotten shares the key's shard. -/
theorem lost_set {sh : Shard σ} {r : Option (Rec σ)} {lost : List Bytes} (hr : s.Routed)
    (hraw : sh.raw = ((s.shard k).raw.put k r).forget lost)
    (hlost : ∀ x ∈ lost, ((s.shard k).raw.put k r x).isSome = true) :
    (s.setShards (s.shards.set (s.index k) sh) List.length_set).raw = (s.raw.put k r).forget lost ∧
      ∀ x ∈ lost, s.index x = s.index k := by
  have hidx : ∀ x ∈ lost, s.index x = s.index k := by
    intro x hx
    by_cases hk : x = k
    · rw [hk]
    · have hsome := hlost x hx
      rw [View.put_other _ _ hk, Shard.raw, Option.isSome_map] at hsome
      exact hr _ (s.index_lt k) x hsome
  refine ⟨funext fun k' => ?_, hidx⟩
  simp only [raw, shard_setShards, List.get_eq_getElem, List.getElem_set]
  by_cases hi : s.index k = s.index k'
  · have hsh : s.shard k' = s.shard k := by simp only [shard, hi]
    rw [if_pos hi, hraw]
    simp only [View.forget, View.put, raw, hsh]
  · have hk : k' ≠ k := by rintro rfl; exact hi rfl
    have hnot : k' ∉ lost := fun hm => hi (hidx k' hm).symm
    rw [if_neg hi, View.forget, if_neg hnot, View.put_other _ _ hk]
    rfl

end Store

/-- Every call keeps every key in the shard it is routed to. -/
theorem exec_routed (env : Env) (c : Call σ) {w : World σ} (hr : w.store.Routed) :
    (c.exec env w).2.store.Routed := by
  cases c with
  | key k op =>
    exact Store.routed_set hr fun k' hk h =>
      (Shard.exec_effect env k op (w.store.shard k)).2.isSome_other hk h
  | flushAll => exact Store.flushAll_routed env
  | purgeExpired => exact Store.purgeExpired_routed hr env
  | save =>
    simp only [Call.exec]
    cases env.ioError <;> exact hr
  | _ => exact hr

/-- What a call may forget when each shard may hold `b` bytes, or any number if `b` is zero:
a call that leaves its key with more bytes than it had may forget keys of that key's shard, of
which the last did not fit beside what is left. -/
def Lost (b : Nat) (env : Env) (c : Call σ) (w : World σ) (lost : List Bytes) : Prop :=
  lost = [] ∨ b ≠ 0 ∧ ∃ k op, c = .key k op ∧ op.modifies = true ∧
    Shard.Grown k (w.store.raw k) ((c.spec env.now w.store.raw).2 k) ∧
    (∀ x ∈ lost, w.store.index x = w.store.index k) ∧
    ∃ x ∈ lost, ∃ e : Entry σ, (c.spec env.now w.store.raw).2 x = some e.abs ∧
      b < ((c.exec env w).2.store.shard k).bytes + Shard.footprint x e

/-- One call: what it leaves is what the specification leaves, with some keys forgotten. -/
theorem exec_lost (env : Env) (c : Call σ) {b : Nat} {w : World σ} (hs : w.store.Sound b)
    (hr : w.store.Routed) :
    ∃ lost, Lost b env c w lost ∧
      (c.exec env w).2.store.raw.at env.now =
        ((c.spec env.now w.store.raw).2.forget lost).at env.now := by
  cases c with
  | key k op =>
    have hm := w.store.shard_mem k
    cases hop : op.modifies with
    | false =>
      have hraw := Store.raw_set (Shard.exec_upd (s := w.store.shard k) (k := k) env hop)
      refine ⟨[], .inl rfl, ?_⟩
      rw [View.forget_nil]
      exact congrArg (View.at env.now) hraw
    | true =>
      obtain ⟨lost, hraw, hlost, hneed⟩ :=
        (Shard.exec_effect env k op (w.store.shard k)).2.lost (hs.kept _ hm) (hs.within _ hm)
      obtain ⟨hset, hidx⟩ := Store.lost_set hr hraw hlost
      refine ⟨lost, ?_, congrArg (View.at env.now) hset⟩
      by_cases hl : lost = []
      · exact .inl hl
      · obtain ⟨hb, hgrown, x, hx, e, he, hlt⟩ := hneed hl
        rw [hs.budget _ hm] at hb hlt
        have hsh : ((Call.exec env (.key k op) w).2.store.shard k) =
            (op.exec env k (w.store.shard k)).2 := by
          simp only [Call.exec, Store.withShard, Store.shard_setShards, List.get_eq_getElem,
            List.getElem_set_self]
        refine .inr ⟨hb, k, op, rfl, hop, by simpa [Call.spec, Store.raw] using hgrown, hidx, x, hx,
          e, ?_, by rw [hsh]; exact hlt⟩
        rw [← he]
        by_cases hk : x = k
        · rw [hk]; simp [Call.spec, Store.raw]
        · rw [View.put_other _ _ hk]
          show w.store.raw.put k _ x = _
          rw [View.put_other _ _ hk, Store.raw]
          have hxk : w.store.shard x = w.store.shard k := by simp only [Store.shard, hidx x hx]
          rw [hxk]
  | flushAll =>
    exact ⟨[], .inl rfl,
      by rw [View.forget_nil]; exact congrArg (View.at env.now) (Store.flushAll_raw env)⟩
  | purgeExpired =>
    refine ⟨[], .inl rfl, ?_⟩
    rw [View.forget_nil]
    show (w.store.purgeExpired env).2.raw.at env.now = w.store.raw.at env.now
    rw [Store.purgeExpired_raw, View.at_at le_rfl]
  | save =>
    refine ⟨[], .inl rfl, ?_⟩
    rw [View.forget_nil]
    simp only [Call.exec]
    cases env.ioError <;> rfl
  | _ => exact ⟨[], .inl rfl, by rw [View.forget_nil]; rfl⟩

/-! ## Runs -/

/-- Along a run every answer is that of a finite map that forgets keys after some of the
calls (`Lost`), and what is live in the store is what is live in that map. -/
def Cached (b : Nat) : List (Env × Call σ) → World σ → Kv σ → Prop
  | [], _, _ => True
  | (env, c) :: rest, w, a =>
    c.Same (c.exec env w).1 (Kv.exec env.now c a).1 ∧
      ∃ lost, Lost b env c w lost ∧
        (∀ k, liveAt env.now ((c.exec env w).2.store.raw k) =
          ((Kv.exec env.now c a).2.forget lost).find env.now k) ∧
        Cached b rest (c.exec env w).2 ((Kv.exec env.now c a).2.forget lost)

theorem cached_run {b : Nat} (run : List (Env × Call σ)) : ∀ (t : Nat) (w : World σ) (a : Kv σ),
    (run.map fun p => p.1.now).Pairwise (· ≤ ·) → (∀ p ∈ run, t ≤ p.1.now) → w.store.Sound b →
      w.store.Routed →
    w.store.raw.at t = a.raw.at t → Cached b run w a := by
  induction run with
  | nil => intros; trivial
  | cons p run ih =>
    intro t w a hmono ht hs hr h
    obtain ⟨env, c⟩ := p
    rw [List.map_cons, List.pairwise_cons] at hmono
    have hnow := View.at_mono (ht _ List.mem_cons_self) h
    obtain ⟨lost, hlost, hraw⟩ := exec_lost env c hs hr
    have hkv : (c.exec env w).2.store.raw.at env.now =
        ((Kv.exec env.now c a).2.forget lost).raw.at env.now := by
      rw [hraw, Kv.forget_raw, View.forget_at, View.forget_at, Kv.exec_raw, (c.spec_congr hnow).2]
    exact ⟨exec_answer env c hr hnow, lost, hlost, congrFun hkv,
      ih env.now _ _ hmono.2 (fun q hq => hmono.1 _ (List.mem_map.2 ⟨q, hq, rfl⟩))
        (exec_sound env c hs)
        (exec_routed env c hr) hkv⟩

/-- **Refinement under a memory limit.** For every limit, number of shards, router and
hashers, every run of store calls from an empty store, with clock readings that do not
decrease, answers like one finite map of records (`Call.Same`: the calls on a key, `keys` and
`now_ms` do, up to the order of listings) that forgets keys after some of the writes: none
without a limit, none after a call that does not leave its key with more bytes than it had,
only keys that share that key's shard, and the last of them because it did not fit beside what
is left. -/
theorem cache_refines (shards maxmemory : Nat) (router : Bytes → UInt64)
    (hasher : Nat → Nat → Bytes → UInt64) (file : Option Bytes) (run : List (Env × Call σ))
    (hclock : (run.map fun p => p.1.now).Pairwise (· ≤ ·)) :
    Cached (perShard maxmemory (Nat.nextPowerOfTwo (max shards 1))) run
      ⟨Store.new shards maxmemory router hasher, file⟩ ∅ :=
  cached_run run 0 _ _ hclock (fun _ _ => Nat.zero_le _) (new_sound ..)
    (new_routed shards maxmemory router hasher)
    (by rw [new_raw]; rfl)

/-- Two keys into a shard that holds one. -/
theorem cache_refines_forced :
    Cached (σ := Int) (perShard 100 (Nat.nextPowerOfTwo (max 1 1)))
      [(Env.plain 0, .key (lit "a") (.set (lit "1") {})),
        (Env.plain 1, .key (lit "b") (.set (lit "2") {})), (Env.plain 1, .key (lit "a") .get),
        (Env.plain 2, .keys)]
      ⟨Store.new 1 100 (fun _ => 0) (fun _ _ _ => 0), none⟩ ∅ :=
  cache_refines 1 100 _ _ none _ (by decide)

end Inmem.L3
