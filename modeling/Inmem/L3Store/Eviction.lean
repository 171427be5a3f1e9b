import Inmem.L3Store.Accounting

/-!
# Reading a write back under a memory limit

A write that leaves a shard over its budget evicts keys until it fits, in the order
in which the policy gives them up. The key just written is in that order like any
other: an overwritten key keeps its place in the queue, and a new one may be the
only key in the small queue.

`evictionOrder` is the order of a policy. `enforceBudget_get`: of the stored keys the
loop keeps exactly those that fit into the budget together with all keys behind
them in the order.

`read_your_write`: so much for the key just written decides whether it can be read.
-/
namespace Inmem.L3

open Inmem.L1
open Inmem.L2 (FlatMap S3Fifo)

/-! ## The order -/

/-- The next `n` keys that the policy gives up. -/
def orderLoop : Nat → S3Fifo → List Bytes
  | 0, _ => []
  | n + 1, p =>
    match p.evictOne.1 with
    | some v => v :: orderLoop n (p.evictOne.2.remove v)
    | none => []

/-- The tracked keys in the order in which the policy gives them up. -/
def evictionOrder (p : S3Fifo) : List Bytes := orderLoop p.metas.len p

/-- The keys behind `k` in an order. -/
def behind (k : Bytes) : List Bytes → List Bytes
  | [] => []
  | v :: rest => if v = k then rest else behind k rest

theorem behind_subset (k : Bytes) (l : List Bytes) : behind k l ⊆ l := by
  induction l with
  | nil => exact List.Subset.refl _
  | cons v rest ih =>
    unfold behind
    split
    · exact List.subset_cons_self ..
    · exact List.Subset.trans ih (List.subset_cons_self ..)

theorem not_mem_behind {k : Bytes} {l : List Bytes} (h : l.Nodup) : k ∉ behind k l := by
  induction l with
  | nil => exact List.not_mem_nil
  | cons v rest ih =>
    obtain ⟨hv, hr⟩ := List.nodup_cons.1 h
    unfold behind
    split
    · rename_i e; exact e ▸ hv
    · exact ih hr

theorem orderLoop_tracks (n : Nat) : ∀ p : S3Fifo, p.Inv → ∀ k ∈ orderLoop n p, p.Tracks k := by
  induction n with
  | zero => intro p _ k hk; cases hk
  | succ n ih =>
    intro p hp k hk
    unfold orderLoop at hk
    split at hk
    · rename_i v hv
      obtain ⟨h1, h2, h3⟩ := S3Fifo.evictOne_some hp hv
      rcases List.mem_cons.1 hk with rfl | hk
      · exact h1
      · have := ih _ (S3Fifo.remove_inv h2) k hk
        rw [S3Fifo.remove_tracks, h3] at this
        exact this.2.2
    · cases hk

variable {σ : Type} [Score σ]

namespace Shard

/-- The footprint of some keys. -/
def cost (s : Shard σ) (ks : List Bytes) : Nat := (ks.map (s.map.share footprint)).sum

/-- The order in which the shard would give up its keys. -/
def order (s : Shard σ) : List Bytes := orderLoop s.map.len s.pol

variable {s : Shard σ} {k v : Bytes}

/-- The victim is first in the order, then come the keys of the shard without it. -/
theorem order_cons (hs : s.Kept) (hb : s.budget ≠ 0) (hv : s.pol.evictOne.1 = some v) :
    s.order = v :: (s.evicted v).order ∧ v ∉ (s.evicted v).order := by
  obtain ⟨hk, e, he⟩ := evict_kept hs hb hv
  have hlen := evicted_len hb he
  have hpol : (s.evicted v).pol = s.pol.evictOne.2.remove v := by rw [evicted_eq hb he]
  constructor
  · rw [order, ← hlen, orderLoop, hv, order, hpol]
  · intro hmem
    have hb' : (s.evicted v).budget ≠ 0 := by rw [evicted_budget]; exact hb
    have := orderLoop_tracks _ _ (hk.policy hb') v hmem
    rw [hpol, S3Fifo.remove_tracks] at this
    exact this.1 rfl

theorem share_evicted {e : Entry σ} (he : s.map.get v = some e) (hb : s.budget ≠ 0) (hk : k ≠ v) :
    (s.evicted v).map.share footprint k = s.map.share footprint k := by
  rw [evicted_eq hb he, FlatMap.share, FlatMap.share, FlatMap.get_remove, if_neg hk]

theorem cost_evicted {e : Entry σ} (he : s.map.get v = some e) (hb : s.budget ≠ 0) {ks : List Bytes}
    (hks : v ∉ ks) : (s.evicted v).cost ks = s.cost ks := by
  refine congrArg List.sum (List.map_congr_left fun k hk => share_evicted he hb ?_)
  rintro rfl; exact hks hk

/-- The byte count is the footprint of all keys in the order. -/
theorem bytes_eq_cost (n : Nat) :
    ∀ s : Shard σ, s.Kept → s.budget ≠ 0 → s.map.len = n → s.bytes = s.cost s.order := by
  induction n with
  | zero =>
    intro s hs hb hlen
    rw [hs.exact, FlatMap.weight_empty (FlatMap.get_of_len_zero hlen), order, hlen]
    rfl
  | succ n ih =>
    intro s hs hb hlen
    cases hv : s.pol.evictOne.1 with
    | none =>
      have h0 := evict_empty hs hb hv
      rw [order, hlen, orderLoop, hv, h0]; rfl
    | some v =>
      obtain ⟨hk, e, he⟩ := evict_kept hs hb hv
      obtain ⟨ho, hnot⟩ := order_cons hs hb hv
      have hrec :=
        ih (s.evicted v) hk (by rw [evicted_budget]; exact hb) (by have := evicted_len hb he; omega)
      have hbytes : (s.evicted v).bytes + footprint v e = s.bytes := by
        have := footprint_le hs he
        rw [evicted_eq hb he]
        dsimp only
        omega
      rw [cost_evicted he hb hnot] at hrec
      rw [ho, cost, List.map_cons, List.sum_cons, FlatMap.share_some he, ← cost, ← hrec, ← hbytes]
      omega

/-- A key fits: its footprint and those of the keys behind it are within the budget. -/
def Fits (s : Shard σ) (k : Bytes) : Prop :=
  s.map.share footprint k + s.cost (behind k s.order) ≤ s.budget

instance (s : Shard σ) (k : Bytes) : Decidable (s.Fits k) := inferInstanceAs (Decidable (_ ≤ _))

theorem cost_behind_le (s : Shard σ) (k : Bytes) (l : List Bytes) (hk : k ∈ l) :
    s.map.share footprint k + s.cost (behind k l) ≤ s.cost l := by
  induction l with
  | nil => cases hk
  | cons v rest ih =>
    simp only [behind, cost, List.map_cons, List.sum_cons] at ih ⊢
    split
    · rename_i hv; rw [hv]
    · rename_i hv
      have := ih ((List.mem_cons.1 hk).resolve_left fun e => hv e.symm)
      omega

/-- Every stored key is in the order. -/
theorem mem_order (n : Nat) : ∀ s : Shard σ, s.Kept → s.budget ≠ 0 → s.map.len = n →
    ∀ {k : Bytes} {e : Entry σ}, s.map.get k = some e → k ∈ s.order := by
  induction n with
  | zero =>
    intro s _ _ hlen k e he
    rw [FlatMap.get_of_len_zero hlen] at he
    cases he
  | succ n ih =>
    intro s hs hb hlen k e he
    cases hv : s.pol.evictOne.1 with
    | none =>
      have h0 := evict_empty hs hb hv
      have := footprint_le hs he
      simp only [footprint, keyOverhead, ENTRY_OVERHEAD] at this
      omega
    | some v =>
      obtain ⟨hk, e', he'⟩ := evict_kept hs hb hv
      rw [(order_cons hs hb hv).1]
      by_cases hkv : k = v
      · exact hkv ▸ List.mem_cons_self
      · refine List.mem_cons_of_mem _ (ih (s.evicted v) hk (by rw [evicted_budget]; exact hb)
          (by have := evicted_len hb he'; omega) (e := e) ?_)
        rw [evicted_eq hb he', FlatMap.get_remove, if_neg hkv]; exact he

/-! ## The eviction loop -/

theorem enforceLoop_absent (f : Nat) :
    ∀ {s : Shard σ}, s.map.get k = none → (enforceLoop f s).map.get k = none := by
  induction f with
  | zero => exact fun h => h
  | succ f ih =>
    intro s h
    rcases enforceLoop_cases f s with ⟨-, hloop⟩ | ⟨-, -, hloop⟩ | ⟨v, -, -, hloop⟩
    · rw [hloop]; exact h
    · rw [hloop]; exact h
    · rw [hloop]
      apply ih
      rw [evicted, dropKey_get]
      split
      · rfl
      · exact h

/-- Evicting another key does not change whether a key fits. -/
theorem fits_evicted (hs : s.Kept) (hb : s.budget ≠ 0) (hv : s.pol.evictOne.1 = some v)
    (hk : k ≠ v) : (s.evicted v).Fits k ↔ s.Fits k := by
  obtain ⟨-, e, he⟩ := evict_kept hs hb hv
  obtain ⟨ho, hnot⟩ := order_cons hs hb hv
  have hnot' : v ∉ behind k (s.evicted v).order := fun h => hnot (behind_subset k _ h)
  rw [Fits, Fits, ho, behind, if_neg (Ne.symm hk), share_evicted he hb hk, cost_evicted he hb hnot',
    evicted_budget]

/-- The loop keeps exactly the keys that fit. -/
theorem enforceLoop_get (f : Nat) : ∀ s : Shard σ, s.Kept → s.budget ≠ 0 → s.map.len < f →
    ∀ {k : Bytes} {e : Entry σ}, s.map.get k = some e →
      (enforceLoop f s).map.get k = if s.Fits k then some e else none := by
  induction f with
  | zero => intro s _ _ h; omega
  | succ f ih =>
    intro s hs hb hlen k e he
    have hbytes := bytes_eq_cost _ s hs hb rfl
    rcases enforceLoop_cases f s with ⟨hle, hloop⟩ | ⟨hover, hv, -⟩ | ⟨v, hover, hv, hloop⟩
    · have hfit : s.Fits k := by
        have := cost_behind_le s k s.order (mem_order _ s hs hb rfl he)
        rw [Fits]; omega
      rw [hloop, if_pos hfit]; exact he
    · have := evict_empty hs hb hv
      omega
    · rw [hloop]
      obtain ⟨hk, e', he'⟩ := evict_kept hs hb hv
      by_cases hkv : k = v
      · -- the key is next in the order: with all others behind it, it does not fit
        subst hkv
        have hnot : ¬ s.Fits k := by
          obtain ⟨ho, -⟩ := order_cons hs hb hv
          rw [ho, cost, List.map_cons, List.sum_cons, ← cost] at hbytes
          rw [Fits, ho, behind, if_pos rfl]
          omega
        rw [if_neg hnot]
        exact enforceLoop_absent f (by rw [evicted, dropKey_get, if_pos rfl])
      · have hget : (s.evicted v).map.get k = some e := by
          rw [evicted_eq hb he', FlatMap.get_remove, if_neg hkv]; exact he
        have := ih (s.evicted v) hk (by rw [evicted_budget]; exact hb)
          (by have := evicted_len hb he'; omega) hget
        simp only [fits_evicted hs hb hv hkv] at this
        exact this

theorem enforceBudget_get (hs : s.Kept) (hb : s.budget ≠ 0) {e : Entry σ}
    (he : s.map.get k = some e) :
    s.enforceBudget.map.get k = if s.Fits k then some e else none := by
  rw [enforceBudget_bounded hb]
  exact enforceLoop_get _ s hs hb (by rw [hs.metas_len hb]; omega) he

theorem order_nodup (n : Nat) :
    ∀ s : Shard σ, s.Kept → s.budget ≠ 0 → s.map.len = n → s.order.Nodup := by
  induction n with
  | zero => intro s _ _ hlen; rw [order, hlen]; exact .nil
  | succ n ih =>
    intro s hs hb hlen
    cases hv : s.pol.evictOne.1 with
    | none => rw [order, hlen, orderLoop, hv]; exact .nil
    | some v =>
      obtain ⟨hk, e, he⟩ := evict_kept hs hb hv
      obtain ⟨ho, hnot⟩ := order_cons hs hb hv
      rw [ho]
      exact List.nodup_cons.2
        ⟨hnot, ih _ hk (by rw [evicted_budget]; exact hb) (by have := evicted_len hb he; omega)⟩

/-! ## A write -/

/-- The policy after the write's access is recorded. -/
def recorded (s : Shard σ) (k : Bytes) (now : Nat) : S3Fifo :=
  if (s.live k now).1 then (s.live k now).2.pol.touch k else (s.live k now).2.pol.insert k

/-- The written value fits into the budget together with the keys behind it. -/
def WriteFits (s : Shard σ) (k value : Bytes) (now : Nat) : Prop :=
  keyOverhead k.length + value.length + s.cost (behind k (evictionOrder (s.recorded k now))) ≤
    s.budget

instance (s : Shard σ) (k value : Bytes) (now : Nat) : Decidable (s.WriteFits k value now) :=
  inferInstanceAs (Decidable (_ ≤ _))

/-- A plain `set` stores the value, records the access and checks the budget. -/
theorem set_default (hb : s.budget ≠ 0) (k value : Bytes) (now : Nat) :
    ∃ s₁, s.set k value {} now = (true, s₁.enforceBudget) ∧ Step s k (some ⟨.str value, none⟩) s₁ ∧
      s₁.pol = s.recorded k now ∧ s₁.map.get k = some ⟨.str value, none⟩ := by
  simp only [set, setM, recorded, bind_id, pure_id, liveM_plain]
  rcases live_cases s k now with ⟨s', hl, -, hget, hu⟩ | ⟨e, hl, -, hget⟩
  · have hb' : s'.budget ≠ 0 := by rw [hu.budget]; exact hb
    simp only [hl, Bool.and_false, Bool.false_eq_true, if_false]
    exact ⟨_, rfl, hu.trans (putNew_step hget (.str value) none), if_pos hb', putNew_value ..⟩
  · have hc := change_step hget fun _ => (⟨.str value, none⟩ : Entry σ)
    have ht := hc.trans (touch_step hc.raw_self)
    simp only [hl, Bool.and_true, Bool.false_and, Bool.false_eq_true, if_false, if_true,
      valueBytes_of_get hget]
    refine ⟨_, rfl, ht, ?_, ?_⟩
    · simp only [touch, if_pos hb]
    · rw [touch_map, FlatMap.get_getMut, if_pos rfl, hget]; rfl

/-- The write fits exactly if its key does, once written. -/
theorem writeFits_iff (hs : s.Kept) (hb : s.budget ≠ 0) {s₁ : Shard σ} {value : Bytes} {now : Nat}
    (h : Step s k (some ⟨.str value, none⟩) s₁) (hpol : s₁.pol = s.recorded k now)
    (hget : s₁.map.get k = some ⟨.str value, none⟩) : s₁.Fits k ↔ s.WriteFits k value now := by
  have hb₁ : s₁.budget ≠ 0 := by rw [h.budget]; exact hb
  have hk₁ := h.kept hs
  have horder : s₁.order = evictionOrder (s.recorded k now) := by
    rw [order, evictionOrder, ← hpol, hk₁.metas_len hb₁]
  have hcost : s₁.cost (behind k s₁.order) = s.cost (behind k s₁.order) := by
    refine congrArg List.sum (List.map_congr_left fun k' hk' => ?_)
    have hne : k' ≠ k := by
      rintro rfl
      exact not_mem_behind (order_nodup _ s₁ hk₁ hb₁ rfl) hk'
    rw [FlatMap.share, FlatMap.share, h.get_other hne]
  rw [Fits, WriteFits, FlatMap.share_some hget, hcost, horder, h.budget]
  exact Iff.rfl

/-- Reading a string that never expires. -/
theorem get_iff {now : Nat} {value : Bytes}
    (h : s.map.get k = some ⟨.str value, none⟩ ∨ s.map.get k = none) :
    (s.get k now).1 = .ok (some value) ↔ s.map.get k = some ⟨.str value, none⟩ := by
  rcases h with h | h
  · simp [get, live_present h rfl, h, Shard.value, touch_map]
  · simp [get, live_absent h, h]

end Shard

/-- **Reading a write back.** After any run on a store with a memory limit, a plain
`set` returns true, and a `get` right after it returns the value if and only if
the value fits into the shard's budget together with all the keys that the
policy, with the access recorded, would give up after this one. -/
theorem read_your_write (shards : Nat) {maxmemory : Nat} (hm : 0 < maxmemory)
    (router : Bytes → UInt64) (hasher : Nat → Nat → Bytes → UInt64) (file : Option Bytes)
    (run : List (Env × Call σ)) (env env' : Env) (k value : Bytes) :
    let w := runCalls run ⟨Store.new shards maxmemory router hasher, file⟩
    let r := (Call.key k (.set value {})).exec env w
    r.1 = true ∧
      (((Call.key k .get).exec env' r.2).1 = .ok (some value) ↔
        (w.store.shard k).WriteFits k value env.now) := by
  intro w r
  have hs := runCalls_sound (σ := σ) shards maxmemory router hasher file run
  have hk : (w.store.shard k).Kept := hs.kept _ (w.store.shard_mem k)
  have hb : (w.store.shard k).budget ≠ 0 := by
    rw [hs.budget _ (w.store.shard_mem k), perShard, if_neg (Nat.ne_of_gt hm)]; omega
  obtain ⟨s₁, hset, hstep, hpol, hget⟩ := Shard.set_default hb k value env.now
  have hr : r.1 = true := congrArg Prod.fst hset
  refine ⟨hr, ?_⟩
  have hsh : r.2.store.shard k = s₁.enforceBudget := by
    show ((w.store.setShards (w.store.shards.set (w.store.index k)
      ((w.store.shard k).set k value {} env.now).2) List.length_set)).shard k = _
    rw [hset, Store.shard_setShards]
    simp
  have hb₁ : s₁.budget ≠ 0 := by rw [hstep.budget]; exact hb
  have hkeep := Shard.enforceBudget_get (hstep.kept hk) hb₁ hget
  show ((r.2.store.shard k).get k env'.now).1 = _ ↔ _
  rw [hsh, Shard.get_iff (by rw [hkeep]; split <;> simp), hkeep,
    ← Shard.writeFits_iff hk hb hstep hpol hget]
  split <;> simp_all

/-- Two small keys, which fill a shard of 135 bytes but for three. -/
def twoKeys : List (Env × Call Int) :=
  [(Env.plain 0, .key (lit "a") (.set (lit "x") {})),
    (Env.plain 0, .key (lit "b") (.set (lit "y") {}))]

/-- The second key is overwritten: the first one goes. -/
theorem read_your_write_second :
    let w := runCalls twoKeys ⟨Store.new 1 135 (fun _ => 0) (fun _ _ _ => 0), none⟩
    let r := (Call.key (lit "b") (.set (lit "yyyyy") {})).exec (Env.plain 0) w
    ((Call.key (lit "b") .get).exec (Env.plain 0) r.2).1 = .ok (some (lit "yyyyy")) :=
  (read_your_write 1 (by decide) _ _ none twoKeys (Env.plain 0) (Env.plain 0) (lit "b")
    (lit "yyyyy")).2.2
    (by decide +kernel)

/-- The first key is overwritten with a value of five bytes, a footprint of 70 bytes:
the write returns true, and its own eviction pass removes it. -/
theorem write_evicts_itself :
    let w := runCalls twoKeys ⟨Store.new 1 135 (fun _ => 0) (fun _ _ _ => 0), none⟩
    let r := (Call.key (lit "a") (.set (lit "xxxxx") {})).exec (Env.plain 0) w
    keyOverhead (lit "a").length + (lit "xxxxx").length ≤ (w.store.shard (lit "a")).budget ∧
      r.1 = true ∧
      ((Call.key (lit "a") .get).exec (Env.plain 0) r.2).1 = .ok none := by
  decide +kernel

end Inmem.L3
