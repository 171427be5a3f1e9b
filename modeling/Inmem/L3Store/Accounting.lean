import Inmem.L2Machine.PolicyInv
import Inmem.L3Store.Refine
import Mathlib.Algebra.Order.BigOperators.Group.List

/-!
# Byte accounting and the memory bound

A shard counts the bytes of its entries and, under a budget, asks the eviction
policy for keys to drop until the count is within it.

`Shard.Kept` is what every move at a key keeps: the byte count is the sum of the
footprints of the stored entries, and under a budget the policy tracks exactly
the stored keys. The eviction loop keeps it too and ends within the budget,
since a policy without a key to give up tracks no key, and then nothing is stored.

* `memory_bound`: after every call of every run each shard is within its budget
  and all of them within `maxmemory`;
* `policy_agrees`: after every call of every run under a budget the policy's table
  and counters are those of the stored keys, and no stored key is a ghost.
-/
namespace Inmem.L3

open Inmem.L1
open Inmem.L2 (FlatMap S3Fifo)

variable {σ : Type} [Score σ]

namespace Shard

/-- The byte count is exact and the policy tracks the stored keys. -/
structure Kept (s : Shard σ) : Prop where
  exact : s.bytes = s.map.weight footprint
  policy : s.budget ≠ 0 → s.pol.Inv
  tracked : s.budget ≠ 0 → ∀ k, s.pol.Tracks k ↔ (s.map.get k).isSome = true

/-- The shard is within its budget, if it has one. -/
def Within (s : Shard σ) : Prop := s.budget ≠ 0 → s.bytes ≤ s.budget

theorem new_kept (budget : Nat) (hasher : Nat → Bytes → UInt64) :
    (Shard.new budget hasher : Shard σ).Kept where
  exact := by simp [new]
  policy _ := S3Fifo.new_inv ..
  tracked _ k := by simp [new, S3Fifo.new, S3Fifo.Tracks]

theorem new_within (budget : Nat) (hasher : Nat → Bytes → UInt64) :
    (Shard.new budget hasher : Shard σ).Within :=
  fun _ => Nat.zero_le _

variable {s s' : Shard σ} {k : Bytes}

/-! ## Moves -/

/-- A stored entry's footprint is part of the byte count. -/
theorem footprint_le (hs : s.Kept) {e : Entry σ} (h : s.map.get k = some e) :
    footprint k e ≤ s.bytes := by
  have := s.map.share_le_weight footprint k
  rwa [FlatMap.share_some h, ← hs.exact] at this

theorem dropKey_kept (hs : s.Kept) : (s.dropKey k).2.Kept := by
  cases h : s.map.get k with
  | none => rw [dropKey_none h]; exact hs
  | some e =>
    rw [dropKey_some h]
    refine ⟨?_, fun hb => ?_, fun hb k' => ?_⟩
    · have hsum := FlatMap.weight_remove h footprint
      have := hs.exact
      dsimp only [footprint] at hsum ⊢
      omega
    · dsimp only at hb ⊢
      rw [if_pos hb]; exact S3Fifo.remove_inv (hs.policy hb)
    · dsimp only at hb ⊢
      rw [if_pos hb, S3Fifo.remove_tracks, hs.tracked hb, FlatMap.get_remove]
      by_cases hk : k' = k <;> simp [hk]

theorem putNew_kept (hs : s.Kept) (h : s.map.get k = none) (v : Value σ) (d : Option Nat) :
    (s.putNew k v d).Kept := by
  unfold putNew
  refine ⟨?_, fun hb => ?_, fun hb k' => ?_⟩
  · dsimp only
    rw [FlatMap.weight_insert h, hs.exact]; rfl
  · dsimp only at hb ⊢
    have hn : s.pol.metas.get k = none := by
      have := (hs.tracked hb k).not.2 (by simp [h])
      simpa [S3Fifo.Tracks] using this
    rw [if_pos hb]; exact S3Fifo.insert_inv (hs.policy hb) hn
  · dsimp only at hb ⊢
    rw [if_pos hb, S3Fifo.insert_tracks, hs.tracked hb, FlatMap.get_insert]
    by_cases hk : k' = k <;> simp [hk]

theorem change_kept (hs : s.Kept) {e : Entry σ} (h : s.map.get k = some e) (f : Entry σ → Entry σ) :
    ({ s with map := s.map.getMut k f, bytes := s.bytes + (f e).value.bytes - e.value.bytes } :
      Shard σ).Kept where
  exact := by
    have h1 := FlatMap.weight_getMut h f footprint
    have h2 := footprint_le hs h
    have h3 := hs.exact
    simp only [footprint] at h1 h2
    dsimp only
    omega
  policy := hs.policy
  tracked hb k' := by
    rw [hs.tracked hb]
    dsimp only
    rw [FlatMap.get_getMut]
    by_cases hk : k' = k
    · rw [if_pos hk, hk, Option.isSome_map]
    · rw [if_neg hk]

theorem touch_kept (hs : s.Kept) : (s.touch k).Kept := by
  unfold touch
  split
  · exact ⟨hs.exact, fun hb => S3Fifo.touch_inv (hs.policy hb),
      fun hb k' => (S3Fifo.touch_tracks k').trans (hs.tracked hb k')⟩
  · exact hs

theorem Move.kept (h : Move k s s') (hs : s.Kept) : s'.Kept := by
  cases h with
  | drop => exact dropKey_kept hs
  | put v d h => exact putNew_kept hs h v d
  | change e f h => exact change_kept hs h f
  | touch => exact touch_kept hs

theorem Step.kept {r : Option (Rec σ)} (h : Step s k r s') (hs : s.Kept) : s'.Kept := by
  have hmoves := h.moves
  clear h
  induction hmoves with
  | refl => exact hs
  | tail _ hm ih => exact hm.kept ih

/-! ## The eviction loop -/

theorem evicted_eq (hb : s.budget ≠ 0) {v : Bytes} {e : Entry σ} (he : s.map.get v = some e) :
    s.evicted v = { s with map := (s.map.remove v).2, bytes := s.bytes - footprint v e,
                           pol := s.pol.evictOne.2.remove v } := by
  rw [evicted, dropKey_some (s := { s with pol := s.pol.evictOne.2 }) he]
  simp only [if_pos hb, footprint]

theorem evicted_budget (v : Bytes) : (s.evicted v).budget = s.budget := dropKey_budget

theorem evicted_len (hb : s.budget ≠ 0) {v : Bytes} {e : Entry σ} (he : s.map.get v = some e) :
    (s.evicted v).map.len + 1 = s.map.len := by
  rw [evicted_eq hb he, FlatMap.len_eq_weight, FlatMap.len_eq_weight]
  exact FlatMap.weight_remove he _

/-- The victim was stored, and what is left is accounted for. -/
theorem evict_kept (hs : s.Kept) (hb : s.budget ≠ 0) {v : Bytes} (hv : s.pol.evictOne.1 = some v) :
    (s.evicted v).Kept ∧ ∃ e, s.map.get v = some e := by
  obtain ⟨h1, h2, h3⟩ := S3Fifo.evictOne_some (hs.policy hb) hv
  obtain ⟨e, he⟩ := Option.isSome_iff_exists.1 ((hs.tracked hb v).1 h1)
  refine ⟨?_, e, he⟩
  rw [evicted_eq hb he]
  refine ⟨?_, fun _ => S3Fifo.remove_inv h2, fun _ k' => ?_⟩
  · have := FlatMap.weight_remove he footprint
    have := hs.exact
    dsimp only
    omega
  · dsimp only
    rw [S3Fifo.remove_tracks, h3, hs.tracked hb, FlatMap.get_remove]
    by_cases hk : k' = v <;> simp [hk]

/-- Without a victim nothing is stored. -/
theorem evict_empty (hs : s.Kept) (hb : s.budget ≠ 0) (hv : s.pol.evictOne.1 = none) :
    s.bytes = 0 := by
  have hget : ∀ k, s.map.get k = none := by
    intro k
    have := (hs.tracked hb k).not.1 (S3Fifo.evictOne_none (hs.policy hb) hv k)
    simpa using this
  rw [hs.exact, FlatMap.weight_empty hget]

/-- The loop ends within the budget, with a round for each stored key. -/
theorem enforceLoop_within (f : Nat) : ∀ s : Shard σ, s.Kept → s.budget ≠ 0 → s.map.len < f →
    (enforceLoop f s).Kept ∧ (enforceLoop f s).budget = s.budget ∧
      (enforceLoop f s).bytes ≤ s.budget := by
  induction f with
  | zero => intro s _ _ h; omega
  | succ f ih =>
    intro s hs hb hlen
    rcases enforceLoop_cases f s with ⟨hle, hloop⟩ | ⟨hover, hv, -⟩ | ⟨v, -, hv, hloop⟩
    · rw [hloop]
      exact ⟨hs, rfl, hle⟩
    · have := evict_empty hs hb hv
      omega
    · obtain ⟨hk, e, he⟩ := evict_kept hs hb hv
      have hl := evicted_len hb he
      obtain ⟨h1, h2, h3⟩ := ih (s.evicted v) hk (by rw [evicted_budget]; exact hb) (by omega)
      rw [evicted_budget] at h2 h3
      rw [hloop]
      exact ⟨h1, h2, h3⟩

theorem Kept.metas_len (hs : s.Kept) (hb : s.budget ≠ 0) : s.pol.metas.len = s.map.len :=
  FlatMap.len_congr _ _ fun k => Bool.eq_iff_iff.2 (hs.tracked hb k)

/-- The budget check ends within the budget. -/
theorem enforceBudget_kept (hs : s.Kept) :
    s.enforceBudget.Kept ∧ s.enforceBudget.budget = s.budget ∧ s.enforceBudget.Within := by
  by_cases hb : s.budget = 0
  · rw [enforceBudget_unbounded hb]
    exact ⟨hs, rfl, fun hne => absurd hb hne⟩
  · rw [enforceBudget_bounded hb]
    obtain ⟨h1, h2, h3⟩ :=
      enforceLoop_within (s.pol.metas.len + 1) s hs hb (by rw [hs.metas_len hb]; omega)
    exact ⟨h1, h2, fun _ => by rw [h2]; exact h3⟩

/-- Within the budget the check does nothing. -/
theorem enforceBudget_within (h : s.Within) : s.enforceBudget = s := by
  by_cases hb : s.budget = 0
  · exact enforceBudget_unbounded hb
  · rw [enforceBudget_bounded hb]
    rcases enforceLoop_cases s.pol.metas.len s with ⟨-, hloop⟩ | ⟨hover, -⟩ | ⟨v, hover, -⟩
    · exact hloop
    · exact absurd (h hb) (Nat.not_le.2 hover)
    · exact absurd (h hb) (Nat.not_le.2 hover)

/-! ## Operations -/

variable {r : Option (Rec σ)}

theorem Upd.get_other (h : Upd s k r s') {k' : Bytes} (hk : k' ≠ k) :
    s'.map.get k' = s.map.get k' :=
  get_of_raw (by rw [h.raw, View.put_other _ _ hk])

/-- What an operation leaves at its key decides how the byte count changes. -/
theorem Step.bytes (h : Step s k r s') (hs : s.Kept) :
    s'.bytes + s.map.share footprint k = s.bytes + s'.map.share footprint k := by
  rw [(h.kept hs).exact, hs.exact]
  exact FlatMap.weight_update s.map s'.map footprint fun k' hk => h.get_other hk

theorem Effect.kept (h : Effect s k r s') (hs : s.Kept) : s'.Kept := by
  obtain ⟨s₁, h, rfl | ⟨rfl, -⟩⟩ := h
  · exact (enforceBudget_kept (h.kept hs)).1
  · exact h.kept hs

theorem Effect.budget (h : Effect s k r s') (hs : s.Kept) : s'.budget = s.budget := by
  obtain ⟨s₁, h, rfl | ⟨rfl, -⟩⟩ := h
  · exact (enforceBudget_kept (h.kept hs)).2.1.trans h.budget
  · exact h.budget

theorem Effect.within (h : Effect s k r s') (hs : s.Kept) (hw : s.Within) : s'.Within := by
  obtain ⟨s₁, h, rfl | ⟨rfl, hle⟩⟩ := h
  · exact (enforceBudget_kept (h.kept hs)).2.2
  · intro hb
    rw [h.budget] at hb ⊢
    have := h.bytes hs
    have := hw hb
    omega

theorem dropKeys_kept (ks : List Bytes) : ∀ s : Shard σ, s.Kept → s.Within →
    (countFold dropKey ks s).2.Kept ∧ (countFold dropKey ks s).2.Within := by
  induction ks with
  | nil => exact fun s hs hw => ⟨hs, hw⟩
  | cons k ks ih =>
    intro s hs hw
    exact ih _ (dropKey_kept hs) (dropKey_step.gone.within hs hw)

end Shard

/-! ## The store -/

/-- Every shard is accounted for and within the budget `b`. -/
structure Store.Sound (b : Nat) (s : Store σ) : Prop where
  kept : ∀ sh ∈ s.shards, sh.Kept
  within : ∀ sh ∈ s.shards, sh.Within
  budget : ∀ sh ∈ s.shards, sh.budget = b

/-- The budget of each of `n` shards. -/
def perShard (maxmemory n : Nat) : Nat := if maxmemory = 0 then 0 else max (maxmemory / n) 1

theorem new_sound (shards maxmemory : Nat) (router : Bytes → UInt64)
    (hasher : Nat → Nat → Bytes → UInt64) :
    (Store.new shards maxmemory router hasher : Store σ).Sound
      (perShard maxmemory (Nat.nextPowerOfTwo (max shards 1))) := by
  have key : ∀ sh ∈ (Store.new shards maxmemory router hasher : Store σ).shards,
      ∃ i, sh = Shard.new (perShard maxmemory (Nat.nextPowerOfTwo (max shards 1))) (hasher i) := by
    intro sh hsh
    obtain ⟨i, -, rfl⟩ := List.mem_map.1 hsh
    exact ⟨i, rfl⟩
  refine ⟨fun sh hsh => ?_, fun sh hsh => ?_, fun sh hsh => ?_⟩
  · obtain ⟨i, rfl⟩ := key sh hsh; exact Shard.new_kept _ _
  · obtain ⟨i, rfl⟩ := key sh hsh; exact Shard.new_within _ _
  · obtain ⟨i, rfl⟩ := key sh hsh; rfl

/-- A shard of the store after a call: unchanged, flushed, purged, or after an operation on its
key. -/
theorem exec_shards (env : Env) (c : Call σ) (w : World σ) {sh' : Shard σ}
    (h : sh' ∈ (c.exec env w).2.store.shards) :
    ∃ sh ∈ w.store.shards, sh' = sh ∨ (∃ hasher, sh' = Shard.new sh.budget hasher) ∨
      sh' = (sh.purgeExpired env.now).2 ∨ ∃ k op, sh' = (KeyOp.exec env k op sh).2 := by
  cases c with
  | key k op =>
    rcases List.mem_or_eq_of_mem_set h with hm | rfl
    · exact ⟨sh', hm, .inl rfl⟩
    · exact ⟨_, w.store.shard_mem k, .inr (.inr (.inr ⟨k, op, rfl⟩))⟩
  | flushAll =>
    obtain ⟨i, hi, rfl⟩ := List.mem_mapIdx.1 h
    exact ⟨_, List.getElem_mem hi, .inr (.inl ⟨_, rfl⟩)⟩
  | purgeExpired =>
    obtain ⟨sh, hm, rfl⟩ := List.mem_map.1 h
    exact ⟨sh, hm, .inr (.inr (.inl rfl))⟩
  | save =>
    refine ⟨sh', ?_, .inl rfl⟩
    simp only [Call.exec] at h
    cases he : env.ioError <;> rw [he] at h <;> exact h
  | _ => exact ⟨sh', h, .inl rfl⟩

/-- Every call keeps the accounts. -/
theorem exec_sound (env : Env) (c : Call σ) {b : Nat} {w : World σ} (h : w.store.Sound b) :
    (c.exec env w).2.store.Sound b := by
  have key : ∀ sh' ∈ (c.exec env w).2.store.shards, sh'.Kept ∧ sh'.Within ∧ sh'.budget = b := by
    intro sh' hsh'
    obtain ⟨sh, hm, rfl | ⟨hasher, rfl⟩ | rfl | ⟨k, op, rfl⟩⟩ := exec_shards env c w hsh'
    · exact ⟨h.kept _ hm, h.within _ hm, h.budget _ hm⟩
    · exact ⟨Shard.new_kept _ _, Shard.new_within _ _, h.budget sh hm⟩
    · obtain ⟨h1, h2⟩ :=
        Shard.dropKeys_kept (sh.expiredKeys env.now) sh (h.kept _ hm) (h.within _ hm)
      exact ⟨h1, h2, (Shard.dropKeys_budget _ _).trans (h.budget _ hm)⟩
    · have he := (Shard.exec_effect env k op sh).2
      exact ⟨he.kept (h.kept _ hm), he.within (h.kept _ hm) (h.within _ hm),
        (he.budget (h.kept _ hm)).trans (h.budget _ hm)⟩
  exact ⟨fun sh hsh => (key sh hsh).1, fun sh hsh => (key sh hsh).2.1,
    fun sh hsh => (key sh hsh).2.2⟩

theorem runCalls_sound (shards maxmemory : Nat) (router : Bytes → UInt64)
    (hasher : Nat → Nat → Bytes → UInt64) (file : Option Bytes) (run : List (Env × Call σ)) :
    (runCalls run ⟨Store.new shards maxmemory router hasher, file⟩).store.Sound
      (perShard maxmemory (Nat.nextPowerOfTwo (max shards 1))) :=
  runCalls_keeps (I := fun w => w.store.Sound _) (fun env c _ h => exec_sound env c h) run
    (new_sound ..)

theorem exec_shards_length (env : Env) (c : Call σ) (w : World σ) :
    (c.exec env w).2.store.shards.length = w.store.shards.length := by
  cases c with
  | key k op => exact List.length_set
  | flushAll => exact List.length_mapIdx
  | purgeExpired => exact List.length_map _
  | save => simp only [Call.exec]; cases env.ioError <;> rfl
  | _ => rfl

theorem runCalls_shards_length (shards maxmemory : Nat) (router : Bytes → UInt64)
    (hasher : Nat → Nat → Bytes → UInt64) (file : Option Bytes) (run : List (Env × Call σ)) :
    (runCalls run ⟨Store.new shards maxmemory router hasher, file⟩).store.shards.length =
      Nat.nextPowerOfTwo (max shards 1) :=
  runCalls_keeps (I := fun w : World σ => w.store.shards.length = Nat.nextPowerOfTwo (max shards 1))
    (fun env c w h => (exec_shards_length env c w).trans h) run (by simp [Store.new])

/-! ## The memory bound -/

/-- An entry is never free. -/
theorem Shard.Kept.bytes_zero {s : Shard σ} (hs : s.Kept) (h : s.bytes < ENTRY_OVERHEAD) :
    s.bytes = 0 := by
  have hget : ∀ k, s.map.get k = none := by
    intro k
    cases hk : s.map.get k with
    | none => rfl
    | some e =>
      have := footprint_le hs hk
      simp only [footprint, keyOverhead] at this
      omega
  rw [hs.exact, FlatMap.weight_empty hget]

/-- Shards within their budgets are together within the memory limit. -/
theorem Store.Sound.total {maxmemory : Nat} (hm : 0 < maxmemory) {s : Store σ}
    (h : s.Sound (perShard maxmemory s.shards.length)) :
    (s.shards.map Shard.bytes).sum ≤ maxmemory := by
  have hb : perShard maxmemory s.shards.length = max (maxmemory / s.shards.length) 1 :=
    if_neg (Nat.ne_of_gt hm)
  have hle : ∀ x ∈ s.shards.map Shard.bytes, x ≤ maxmemory / s.shards.length := by
    intro x hx
    obtain ⟨sh, hsh, rfl⟩ := List.mem_map.1 hx
    have h1 := h.within sh hsh
    rw [Shard.Within, h.budget sh hsh, hb] at h1
    have h2 : sh.bytes ≤ max (maxmemory / s.shards.length) 1 := h1 (by omega)
    by_cases h0 : maxmemory / s.shards.length = 0
    · rw [h0] at h2 ⊢
      -- the budget is forced to one byte, which no entry fits into
      exact ((h.kept sh hsh).bytes_zero (by rw [ENTRY_OVERHEAD]; omega)).le
    · rwa [Nat.max_eq_left (Nat.one_le_iff_ne_zero.2 h0)] at h2
  have hsum : _ ≤ (s.shards.map Shard.bytes).length * _ := List.sum_le_card_nsmul _ _ hle
  rw [List.length_map] at hsum
  exact hsum.trans (Nat.mul_div_le maxmemory s.shards.length)

/-- **Memory bound.** For every number of shards and every memory limit, after any
run of calls each shard is within its budget and the shards are together within
the limit. -/
theorem memory_bound (shards : Nat) {maxmemory : Nat} (hm : 0 < maxmemory) (router : Bytes → UInt64)
    (hasher : Nat → Nat → Bytes → UInt64) (file : Option Bytes) (run : List (Env × Call σ)) :
    let store := (runCalls run ⟨Store.new shards maxmemory router hasher, file⟩).store
    (∀ sh ∈ store.shards, sh.bytes ≤ sh.budget) ∧
      (store.shards.map Shard.bytes).sum ≤ maxmemory := by
  intro store
  have hs : store.Sound _ := runCalls_sound shards maxmemory router hasher file run
  have hlen : store.shards.length = _ :=
    runCalls_shards_length shards maxmemory router hasher file run
  refine ⟨fun sh hsh => hs.within sh hsh ?_, Store.Sound.total hm (hlen ▸ hs)⟩
  rw [hs.budget sh hsh, perShard, if_neg (Nat.ne_of_gt hm)]
  omega

/-- Four shards and two bytes: the budget of one byte keeps every shard empty. -/
theorem memory_bound_forced :
    let store := (runCalls (σ := Int) [(Env.plain 0, .key (lit "k") (.set (lit "v") {}))]
      ⟨Store.new 4 2 (fun _ => 0) (fun _ _ _ => 0), none⟩).store
    (∀ sh ∈ store.shards, sh.bytes ≤ sh.budget) ∧ (store.shards.map Shard.bytes).sum ≤ 2 :=
  memory_bound 4 (by decide) _ _ none _

/-- **The policy tracks what is stored.** After any run of calls on a store with a
memory limit, in every shard: the policy's table has the keys of the value map and
as many, its counters are the numbers of keys in each queue, and no stored key is
remembered as a ghost. -/
theorem policy_agrees (shards : Nat) {maxmemory : Nat} (hm : 0 < maxmemory)
    (router : Bytes → UInt64) (hasher : Nat → Nat → Bytes → UInt64) (file : Option Bytes)
    (run : List (Env × Call σ)) :
    ∀ sh ∈ (runCalls run ⟨Store.new shards maxmemory router hasher, file⟩).store.shards,
      (∀ k, (sh.pol.metas.get k).isSome = (sh.map.get k).isSome) ∧ sh.pol.len = sh.map.len ∧
        sh.pol.smallCount = (sh.pol.metas.iter.filter fun p => p.2.loc == .small).length ∧
        sh.pol.mainCount = (sh.pol.metas.iter.filter fun p => p.2.loc == .main).length ∧
        ∀ k, (sh.map.get k).isSome = true → sh.pol.ghostSet.get k = none := by
  intro sh hsh
  have hs := runCalls_sound shards maxmemory router hasher file run
  have hb : sh.budget ≠ 0 := by
    rw [hs.budget sh hsh, perShard, if_neg (Nat.ne_of_gt hm)]; omega
  have hk := hs.kept sh hsh
  have hkeys : ∀ k, (sh.pol.metas.get k).isSome = (sh.map.get k).isSome :=
    fun k => Bool.eq_iff_iff.2 (hk.tracked hb k)
  have hp := hk.policy hb
  refine ⟨hkeys, (S3Fifo.len_eq hp).trans (hk.metas_len hb), ?_, ?_, fun k h =>
    hp.ghosts k ((hk.tracked hb k).2 h)⟩
  · exact (hp.tallies .small).trans (FlatMap.count_eq ..)
  · exact (hp.tallies .main).trans (FlatMap.count_eq ..)

/-- Two keys do not fit into 130 bytes: the second takes the first one's place. -/
theorem policy_agrees_evicting :
    let store := (runCalls (σ := Int)
      [(Env.plain 0, .key (lit "a") (.set (lit "x") {})),
        (Env.plain 0, .key (lit "b") (.set (lit "y") {}))]
      ⟨Store.new 1 130 (fun _ => 0) (fun _ _ _ => 0), none⟩).store
    store.dbsize = 1 ∧ ∀ sh ∈ store.shards,
      sh.pol.len = sh.map.len ∧ ∀ k, (sh.map.get k).isSome = true →
      sh.pol.ghostSet.get k = none := by
  refine ⟨by decide +kernel, fun sh hsh => ?_⟩
  have h := policy_agrees 1 (by decide) _ _ none _ sh hsh
  exact ⟨h.2.1, h.2.2.2.2⟩

end Inmem.L3
