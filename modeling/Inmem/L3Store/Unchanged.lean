import Inmem.L3Store.Accounting
import Inmem.L3Store.KeyOps

/-!
# Calls that change nothing

Under a budget a call may drop keys other than its own. It does so only when its
own key has grown: a call whose answer says that nothing changed leaves the
byte count where it was or below, so the budget check that follows finds the
shard within its budget.

* `Shard.exec_upd`: on every shard, an operation that stores no value does to its key what
  the specification says, and nothing else;
* `exec_whole`: every call keeps the accounts and leaves no empty collection;
* `exec_unchanged`: on every store, bounded or not, a call whose answer does not say
  that something changed leaves every key as it is, up to dropping what has
  expired by its clock reading;
* `exec_lapse`: it leaves every stored entry where it is, up to dropping what has
  expired; `Shard.Lapse.bytes`: and the byte count falls by what was dropped.
-/
namespace Inmem.L3

open Inmem.L1
open Inmem.L2 (FlatMap)

variable {σ : Type} [Score σ]

/-! ## No empty collections under a budget -/

namespace Shard

variable {s s' : Shard σ} {k : Bytes} {r : Option (Rec σ)}

theorem dropKey_raw (k' : Bytes) :
    (s.dropKey k).2.raw k' = s.raw k' ∨ (s.dropKey k).2.raw k' = none := by
  rw [dropKey_step.raw]
  by_cases hk : k' = k
  · right; rw [hk, View.put_self]
  · left; exact View.put_other _ _ hk

/-- The eviction loop only drops keys. -/
theorem enforceLoop_raw (f : Nat) (k : Bytes) : ∀ s : Shard σ,
    (enforceLoop f s).raw k = s.raw k ∨ (enforceLoop f s).raw k = none := by
  induction f with
  | zero => exact fun _ => .inl rfl
  | succ f ih =>
    intro s
    rcases enforceLoop_cases f s with ⟨-, hloop⟩ | ⟨-, -, hloop⟩ | ⟨v, -, -, hloop⟩
    · rw [hloop]; exact .inl rfl
    · rw [hloop]; exact .inl rfl
    · rw [hloop]
      rcases ih (s.evicted v) with h | h
      · rcases dropKey_raw (s := { s with pol := s.pol.evictOne.2 }) (k := v) k with h' | h'
        · exact .inl (h.trans h')
        · exact .inr (h.trans h')
      · exact .inr h

theorem enforceBudget_raw (s : Shard σ) (k : Bytes) :
    s.enforceBudget.raw k = s.raw k ∨ s.enforceBudget.raw k = none := by
  by_cases hb : s.budget = 0
  · rw [enforceBudget_unbounded hb]; exact .inl rfl
  · rw [enforceBudget_bounded hb]; exact enforceLoop_raw _ k s

/-- What an operation leaves at a key: the record it puts there, the record that was
there, or nothing. -/
theorem Effect.raw (h : Effect s k r s') (k' : Bytes) :
    s'.raw k' = (s.raw.put k r) k' ∨ s'.raw k' = none := by
  obtain ⟨s₁, h, rfl | ⟨rfl, -⟩⟩ := h
  · rw [← h.raw]; exact enforceBudget_raw s₁ k'
  · exact .inl (congrFun h.raw k')

/-- No stored collection is empty. -/
def Full (s : Shard σ) : Prop := ∀ k, RecFull (s.raw k)

theorem new_full (budget : Nat) (hasher : Nat → Bytes → UInt64) :
    (Shard.new budget hasher : Shard σ).Full := by
  intro k x hx
  simp [Shard.raw, Shard.new] at hx

theorem Effect.full (h : Effect s k r s') (hs : s.Full) (hr : RecFull r) : s'.Full := by
  intro k'
  rcases h.raw k' with h | h
  · rw [h]
    by_cases hk : k' = k
    · rw [hk, View.put_self]; exact hr
    · rw [View.put_other _ _ hk]; exact hs k'
  · rw [h]; intro x hx; cases hx

/-! ## Operations -/

/-- An operation that leaves the live record leaves it without a budget check. -/
theorem Effect.same {now : Nat} (h : Effect s k (liveAt now (s.raw k)) s') (hs : s.Kept)
    (hw : s.Within) : Upd s k (liveAt now (s.raw k)) s' := by
  obtain ⟨s₁, h, rfl | ⟨rfl, -⟩⟩ := h
  · have hshare : s₁.map.share footprint k ≤ s.map.share footprint k := by
      cases hl : liveAt now (s.raw k) with
      | none =>
        rw [FlatMap.share_none (get_of_raw_none (h.raw_self.trans hl))]
        exact Nat.zero_le _
      | some x =>
        have hget : s₁.map.get k = s.map.get k :=
          get_of_raw (h.raw_self.trans (hl.trans (liveAt_eq_some.1 hl).1.symm))
        exact le_of_eq (by simp only [FlatMap.share, hget])
    have hw₁ : s₁.Within := Effect.within ⟨s₁, h, .inr ⟨rfl, hshare⟩⟩ hs hw
    rw [enforceBudget_within hw₁]
    exact h.toUpd
  · exact h.toUpd

/-- The operations that store no value run no budget check: what they do to the record
is all they do. -/
theorem exec_upd (env : Env) {op : KeyOp σ} (h : op.modifies = false) :
    Upd s k (op.spec env.now (liveAt env.now (s.raw k))).2 (op.exec env k s).2 := by
  -- a read drops the key if it has expired, and may touch it
  have key : ∀ s' : Shard σ, (∀ s₁, s.live k env.now = (false, s₁) → s' = s₁) →
      (s.live k env.now = (true, s) → s' = s ∨ s' = s.touch k) →
      Upd s k (liveAt env.now (s.raw k)) s' := by
    intro s' hgone hhere
    rcases live_cases s k env.now with ⟨s₁, hl, hnone, -, hu⟩ | ⟨e, hl, hsome, hget⟩
    · rw [hgone s₁ hl, hnone]; exact hu.toUpd
    · have hself : s.raw k = some e.abs := by simp [raw, hget]
      rw [hsome]
      rcases hhere hl with rfl | rfl
      · exact .refl hself
      · exact (touch_step hself).toUpd
  cases op with
  | get =>
    exact key _ (fun s₁ hl => by simp [KeyOp.exec, KeyOp.execM, Shard.get, hl]) fun hl =>
      .inr (by simp [KeyOp.exec, KeyOp.execM, Shard.get, hl])
  | readStr =>
    exact key _ (fun s₁ hl => by simp [KeyOp.exec, KeyOp.execM, readStr, hl]) fun hl =>
      .inr (by simp [KeyOp.exec, KeyOp.execM, readStr, hl])
  | «exists» =>
    exact key _ (fun s₁ hl => congrArg Prod.snd hl) fun hl => .inl (congrArg Prod.snd hl)
  | typeOf =>
    exact key _ (fun s₁ hl => by simp [KeyOp.exec, KeyOp.execM, typeOf, hl]) fun hl =>
      .inl (by simp [KeyOp.exec, KeyOp.execM, typeOf, hl])
  | pttl =>
    exact key _ (fun s₁ hl => by simp [KeyOp.exec, KeyOp.execM, pttl, hl]) fun hl =>
      .inl (by simp [KeyOp.exec, KeyOp.execM, pttl, hl])
  | strlen =>
    exact key _ (fun s₁ hl => by simp [KeyOp.exec, KeyOp.execM, strlen, hl]) fun hl =>
      .inl (by simp [KeyOp.exec, KeyOp.execM, strlen, hl])
  | llen | lrange | hget | hlen | hgetall | sismember | scard | smembers | zscore | zcard
  | zrange =>
    exact key _ (fun s₁ hl => by simp [KeyOp.exec, KeyOp.execM, readCollection, hl])
      fun hl => .inr (by simp [KeyOp.exec, KeyOp.execM, readCollection, hl])
  | del =>
    show Upd s k none (s.del k env.now).2
    simp only [del, delM, bind_id, pure_id, liveM_plain, dropKeyM_plain]
    rcases live_cases s k env.now with ⟨s₁, hl, -, -, hu⟩ | ⟨e, hl, -, -⟩
    · simp only [hl]; exact hu.toUpd
    · simp only [hl]; exact dropKey_step.toUpd
  | expireAt d =>
    show Upd s k ((liveAt env.now (s.raw k)).map fun r => { r with deadline := d })
      (s.expireAt k d env.now).2
    unfold expireAt
    rcases live_cases s k env.now with ⟨s₁, hl, hnone, -, hu⟩ | ⟨e, hl, hsome, hget⟩
    · simp only [hl, hnone]; exact hu.toUpd
    · simp only [hl, hsome, Bool.not_true, Bool.false_eq_true, if_false, hget]
      have hc := change_step hget fun e => { e with expireAt := d }
      simp only [Nat.add_sub_cancel] at hc
      exact hc.toUpd
  | _ => cases h

omit [Score σ] in
theorem changed_same {op : KeyOp σ} {a b : op.Res} (h : op.Same a b) :
    op.changed a = op.changed b := by
  cases op <;> first | rfl | (cases h; rfl)

/-- An operation that does not say that it changed its key only drops it if it has expired. -/
theorem exec_unchanged (env : Env) (op : KeyOp σ) (hs : s.Kept) (hw : s.Within) (hfull : s.Full)
    (h : op.changed (op.exec env k s).1 = false) :
    Upd s k (liveAt env.now (s.raw k)) (op.exec env k s).2 := by
  obtain ⟨hsame, heff⟩ := exec_effect env k op s
  rw [changed_same hsame] at h
  rw [unchanged_spec env.now (liveAt_full (hfull k)) h] at heff
  exact heff.same hs hw

end Shard

/-! ## The store -/

/-- The accounts are right and no stored collection is empty. -/
structure Store.Whole (b : Nat) (s : Store σ) : Prop extends Store.Sound b s where
  full : ∀ sh ∈ s.shards, sh.Full

theorem new_whole (shards maxmemory : Nat) (router : Bytes → UInt64)
    (hasher : Nat → Nat → Bytes → UInt64) :
    (Store.new shards maxmemory router hasher : Store σ).Whole
      (perShard maxmemory (Nat.nextPowerOfTwo (max shards 1))) := by
  refine ⟨new_sound .., fun sh hsh => ?_⟩
  obtain ⟨i, -, rfl⟩ := List.mem_map.1 hsh
  exact Shard.new_full _ _

/-- Every call keeps the accounts and leaves no empty collection. -/
theorem exec_whole (env : Env) (c : Call σ) {b : Nat} {w : World σ} (h : w.store.Whole b) :
    (c.exec env w).2.store.Whole b := by
  refine ⟨exec_sound env c h.toSound, fun sh' hsh' => ?_⟩
  obtain ⟨sh, hm, rfl | ⟨hasher, rfl⟩ | rfl | ⟨k, op, rfl⟩⟩ := exec_shards env c w hsh'
  · exact h.full _ hm
  · exact Shard.new_full _ _
  · intro k
    rw [Shard.purge_raw]
    exact liveAt_full (h.full sh hm k)
  · have hfull := h.full sh hm
    exact (Shard.exec_effect env k op sh).2.full hfull (spec_full _ _ (liveAt_full (hfull k)))

theorem runCalls_whole (shards maxmemory : Nat) (router : Bytes → UInt64)
    (hasher : Nat → Nat → Bytes → UInt64) (file : Option Bytes) (run : List (Env × Call σ)) :
    (runCalls run ⟨Store.new shards maxmemory router hasher, file⟩).store.Whole
      (perShard maxmemory (Nat.nextPowerOfTwo (max shards 1))) :=
  runCalls_keeps (I := fun w => w.store.Whole _) (fun env c _ h => exec_whole env c h) run
    (new_whole ..)

/-- A call that does not say that something changed leaves the keyspace as it was. -/
theorem exec_unchanged (env : Env) (c : Call σ) {b : Nat} {w : World σ} (h : w.store.Whole b)
    (hc : c.changed (c.exec env w).1 = false) {u : Nat} (hu : env.now ≤ u) :
    (c.exec env w).2.store.raw.at u = w.store.raw.at u := by
  cases c with
  | key k op =>
    have hm := w.store.shard_mem k
    have hupd := Shard.exec_unchanged env op (h.kept _ hm) (h.within _ hm) (h.full _ hm) hc
    show (w.store.withShard k (op.exec env k)).2.raw.at u = _
    rw [Store.withShard, Store.raw_set hupd]
    exact View.put_live_at hu w.store.raw k
  | flushAll => cases hc
  | purgeExpired =>
    show (w.store.purgeExpired env).2.raw.at u = _
    rw [Store.purgeExpired_raw, View.at_at hu]
  | save =>
    simp only [Call.exec]
    cases env.ioError <;> rfl
  | _ => rfl

/-! ## What lapses -/

namespace Shard

variable {s s' s'' : Shard σ} {times times' : Nat → Prop}

/-- `s'` stores what `s` stores, except for entries that have expired by one of `times`. -/
def Lapse (times : Nat → Prop) (s s' : Shard σ) : Prop :=
  ∀ k, s'.map.get k = s.map.get k ∨
    s'.map.get k = none ∧ ∃ e, s.map.get k = some e ∧ ∃ t, times t ∧ expired t e.expireAt = true

theorem Lapse.refl : Lapse times s s := fun _ => .inl rfl

theorem Lapse.trans (h : Lapse times s s') (h' : Lapse times s' s'') : Lapse times s s'' := by
  intro k
  rcases h' k with hk' | ⟨hn', e, he, hexp⟩
  · rw [hk']; exact h k
  · rcases h k with hk | ⟨hn, -⟩
    · exact .inr ⟨hn', e, hk ▸ he, hexp⟩
    · rw [hn] at he; cases he

theorem Lapse.mono (ht : ∀ t, times t → times' t) (h : Lapse times s s') : Lapse times' s s' := by
  intro k
  rcases h k with hk | ⟨hn, e, he, t, htime, hexp⟩
  · exact .inl hk
  · exact .inr ⟨hn, e, he, t, ht t htime, hexp⟩

/-- Dropping what is not live at `now` is a lapse. -/
theorem lapse_of_live {now : Nat} (h : ∀ k, s'.raw k = s.raw k ∨ s'.raw k = liveAt now (s.raw k)) :
    Lapse (· = now) s s' := by
  intro k
  rcases h k with hk | hk
  · exact .inl (get_of_raw hk)
  · cases he : s.map.get k with
    | none =>
      have hraw : s.raw k = none := by rw [Shard.raw, he]; rfl
      rw [hraw] at hk
      exact .inl (get_of_raw_none hk)
    | some e =>
      have hraw : s.raw k = some e.abs := by rw [Shard.raw, he]; rfl
      cases hexp : expired now e.expireAt with
      | true =>
        have hnone : s'.raw k = none := by
          rw [hk, hraw]
          simp [liveAt, Entry.abs, Option.filter_some, hexp]
        exact .inr ⟨get_of_raw_none hnone, e, rfl, now, rfl, hexp⟩
      | false =>
        have hlive : liveAt now (s.raw k) = s.raw k := by
          rw [hraw]
          exact liveAt_eq_some.2 ⟨rfl, hexp⟩
        exact .inl ((get_of_raw (hk.trans hlive)).trans he)

theorem Upd.lapse {now : Nat} {k : Bytes} (h : Upd s k (liveAt now (s.raw k)) s') :
    Lapse (· = now) s s' := by
  refine lapse_of_live fun k' => ?_
  rw [h.raw]
  by_cases hk : k' = k
  · right; rw [hk, View.put_self]
  · left; exact View.put_other _ _ hk

/-- The entries of `s` that are gone in `s'`. -/
def lost (s s' : Shard σ) : List (Bytes × Entry σ) :=
  s.map.iter.filter fun p => (s'.map.get p.1).isNone

/-- What a lapse drops had expired. -/
theorem Lapse.expired (h : Lapse times s s') {k : Bytes} {e : Entry σ} (hk : (k, e) ∈ s.lost s') :
    ∃ t, times t ∧ L3.expired t e.expireAt = true := by
  obtain ⟨hm, hgone⟩ := List.mem_filter.1 hk
  have hget := (FlatMap.mem_iter _).1 hm
  rcases h k with hsame | ⟨-, e', he', hexp⟩
  · simp [hsame, hget] at hgone
  · rw [hget] at he'
    cases he'
    exact hexp

/-- The rest is what `s'` stores. -/
theorem Lapse.rest (h : Lapse times s s') :
    (s.map.iter.filter fun p => !(s'.map.get p.1).isNone).Perm s'.map.iter := by
  rw [List.perm_ext_iff_of_nodup (s.map.iter_pairs_nodup.filter _) s'.map.iter_pairs_nodup]
  intro ⟨k, e⟩
  rw [List.mem_filter, FlatMap.mem_iter, FlatMap.mem_iter]
  rcases h k with hk | ⟨hn, -⟩
  · rw [hk]
    exact ⟨And.left, fun he => ⟨he, by simp [he]⟩⟩
  · simp [hn]

/-- The byte count falls by the footprints of what was dropped. -/
theorem Lapse.bytes (h : Lapse times s s') (hs : s.Kept) (hs' : s'.Kept) :
    s'.bytes + ((s.lost s').map fun p => footprint p.1 p.2).sum = s.bytes := by
  have hsplit :=
    List.filter_append_perm (fun p : Bytes × Entry σ => (s'.map.get p.1).isNone) s.map.iter
  have hsum := (hsplit.map fun p => footprint p.1 p.2).sum_eq
  rw [List.map_append, List.sum_append, (h.rest.map _).sum_eq] at hsum
  rw [hs.exact, hs'.exact, Nat.add_comm]
  exact hsum

end Shard

/-- Shard by shard, `s'` stores what `s` stores except for what has expired by one of `times`. -/
structure Store.Lapse (times : Nat → Prop) (s s' : Store σ) : Prop where
  length : s'.shards.length = s.shards.length
  shards : ∀ (j : Nat) (sh sh' : Shard σ), s.shards[j]? = some sh → s'.shards[j]? = some sh' →
    Shard.Lapse times sh sh'

namespace Store

variable {s s' s'' : Store σ} {times times' : Nat → Prop}

theorem Lapse.refl : Lapse times s s := by
  refine ⟨rfl, fun j sh sh' h h' => ?_⟩
  obtain rfl : sh = sh' := Option.some.inj (h.symm.trans h')
  exact .refl

theorem Lapse.trans (h : Lapse times s s') (h' : Lapse times s' s'') : Lapse times s s'' := by
  refine ⟨h'.length.trans h.length, fun j sh sh'' hj hj'' => ?_⟩
  have hlt : j < s'.shards.length := h.length ▸ (List.getElem?_eq_some_iff.1 hj).1
  have hj' : s'.shards[j]? = some s'.shards[j] := List.getElem?_eq_getElem hlt
  exact (h.shards j _ _ hj hj').trans (h'.shards j _ _ hj' hj'')

theorem Lapse.mono (ht : ∀ t, times t → times' t) (h : Lapse times s s') : Lapse times' s s' :=
  ⟨h.length, fun j sh sh' hj hj' => (h.shards j sh sh' hj hj').mono ht⟩

end Store

/-- A call that does not say that something changed only drops what has expired. -/
theorem exec_lapse (env : Env) (c : Call σ) {b : Nat} {w : World σ} (h : w.store.Whole b)
    (hc : c.changed (c.exec env w).1 = false) :
    Store.Lapse (· = env.now) w.store (c.exec env w).2.store := by
  cases c with
  | key k op =>
    have hm := w.store.shard_mem k
    have hupd := Shard.exec_unchanged env op (h.kept _ hm) (h.within _ hm) (h.full _ hm) hc
    refine ⟨List.length_set, fun j sh sh' hj hj' => ?_⟩
    rw [show ((Call.key k op).exec env w).2.store.shards =
      w.store.shards.set (w.store.index k) (op.exec env k (w.store.shard k)).2 from rfl,
      List.getElem?_set] at hj'
    split at hj'
    · rename_i hi
      subst hi
      have hsh : w.store.shard k = sh := by
        rw [Store.shard, List.get_eq_getElem]
        exact (List.getElem?_eq_some_iff.1 hj).2
      rw [if_pos (List.getElem?_eq_some_iff.1 hj).1] at hj'
      cases hj'
      exact hsh ▸ hupd.lapse
    · obtain rfl : sh = sh' := Option.some.inj (hj.symm.trans hj')
      exact .refl
  | flushAll => cases hc
  | purgeExpired =>
    refine ⟨List.length_map _, fun j sh sh' hj hj' => ?_⟩
    rw [show (Call.purgeExpired.exec env w).2.store.shards =
      w.store.shards.map fun sh => (sh.purgeExpired env.now).2 from rfl, List.getElem?_map, hj]
        at hj'
    cases hj'
    exact Shard.lapse_of_live fun k => .inr (congrFun (Shard.purge_raw env.now) k)
  | save =>
    simp only [Call.exec]
    cases env.ioError <;> exact .refl
  | _ => exact .refl

end Inmem.L3
