import Inmem.Core.Occupancy
import Inmem.L2Machine.FlatMapRefine

/-!
# Capacity and occupied slots of the flat hash table

* `step_capacity`: an operation changes the number of slots only where it allocates or
  calls `grow` (`grows`).
* `presized_never_grows`: a table made for `cap` keys does not grow as long as it has no
  more than these.
* `deletion_leaves_no_trace`: the occupied slots are those of a table into which the keys
  that are left were inserted, in any order, whatever was removed on the way.
-/
namespace Inmem.L2

open Inmem.L1 Inmem.Core.Ring Inmem.Core.Probe

namespace Raw

variable {V : Type} {m m' : Raw V}

/-! ## Capacity -/

/-- mirrors crates/core/src/map.rs:83-85 -/
def capacity (m : Raw V) : Nat := m.slots.length

theorem growThreshold_eq {W : Type} {m' : Raw W} (h : m'.capacity = m.capacity) :
    m'.growThreshold = m.growThreshold := by
  unfold growThreshold
  unfold capacity at h
  rw [h]

/-- The operation calls `grow`, mirrors crates/core/src/map.rs:168-172 -/
def grows (m : Raw V) : Op V → Bool
  | .insert _ _ => !m.slots.isEmpty && decide (m.len ≥ m.growThreshold)
  | _ => false

theorem reserve_of_not_grows (hne : m.slots ≠ []) {k : Bytes} {v : V}
    (hg : m.grows (.insert k v) = false) : m.reserve = some m := by
  have hemp : m.slots.isEmpty = false := by simpa using hne
  rw [grows, hemp, Bool.not_false, Bool.true_and, decide_eq_false_iff_not] at hg
  rw [reserve, hemp, if_neg Bool.false_ne_true, if_neg hg]

theorem store_capacity {hash : UInt64} {k : Bytes} {v : V} {r : Option V}
    (h : m.store hash k v = some (r, m')) : m'.capacity = m.capacity := by
  unfold store at h
  split at h
  · cases h
  · cases h; exact List.length_set
  · split at h
    · cases h
    · cases h; exact List.length_set

theorem backwardShift_capacity (f : Nat) :
    ∀ (m : Raw V) (hole i : Nat), backwardShift m f hole i = some m' →
    m'.capacity = m.capacity := by
  induction f with
  | zero => intro m hole i h; cases h
  | succ f ih =>
    intro m hole i h
    simp only [backwardShift] at h
    split at h
    · cases h
    · cases h; rfl
    · split at h
      · have hc := ih _ _ _ h
        rw [hc]
        simp [capacity]
      · exact ih _ _ _ h

theorem remove_capacity {k : Bytes} {r : Option V} (h : m.remove k = some (r, m')) :
    m'.capacity = m.capacity := by
  unfold remove removePre at h
  split at h
  · cases h; rfl
  split at h
  · cases h
  · cases h; rfl
  · split at h
    · cases h
    · obtain ⟨m₁, h₁, he⟩ := Option.map_eq_some_iff.1 h
      cases he
      rw [backwardShift_capacity _ _ _ _ h₁]
      exact List.length_set

theorem getMut_capacity {k : Bytes} {f : V → V} {r : Option V} (h : m.getMut k f = some (r, m')) :
    m'.capacity = m.capacity := by
  unfold getMut getMutPre at h
  split at h
  · cases h; rfl
  split at h
  · cases h
  · cases h; rfl
  · split at h
    · cases h; rfl
    · cases h; exact List.length_set

/-- Without `grow` an allocated table keeps its slots. -/
theorem step_capacity {op : Op V} {o : Out V} (h : m.step op = some (o, m')) (hne : m.slots ≠ [])
    (hg : m.grows op = false) : m'.capacity = m.capacity := by
  cases op with
  | insert k v =>
    obtain ⟨r, hr, he⟩ := Option.map_eq_some_iff.1 h
    cases he
    rw [insert, insertPre, reserve_of_not_grows hne hg, Option.bind_some] at hr
    exact store_capacity hr
  | remove k =>
    obtain ⟨r, hr, he⟩ := Option.map_eq_some_iff.1 h
    cases he
    exact remove_capacity hr
  | getMut k f =>
    obtain ⟨r, hr, he⟩ := Option.map_eq_some_iff.1 h
    cases he
    exact getMut_capacity hr
  | get k =>
    obtain ⟨r, hr, he⟩ := Option.map_eq_some_iff.1 h
    cases he
    rfl
  | containsKey k =>
    obtain ⟨r, hr, he⟩ := Option.map_eq_some_iff.1 h
    cases he
    rfl

/-- A table below its threshold has slots. -/
theorem slots_ne_nil (h : m.len < m.growThreshold) : m.slots ≠ [] := by
  intro hnil
  rw [growThreshold, hnil, List.length_nil, Nat.zero_div, Nat.zero_mul] at h
  exact Nat.not_lt_zero _ h

/-- Below the threshold nothing grows. -/
theorem not_grows (h : m.len < m.growThreshold) (op : Op V) : m.grows op = false := by
  cases op with
  | insert k v =>
    have hlt : decide (m.len ≥ m.growThreshold) = false := decide_eq_false (by omega)
    rw [grows, hlt, Bool.and_false]
  | _ => rfl

/-- Along a run in which no operation starts at the threshold, a table keeps its slots. -/
theorem run_capacity (ops : List (Op V)) : ∀ (m : Raw V) {outs m'}, m.WF →
    (∀ pre, pre <+: ops → pre ≠ ops → (specRun m.abs pre).2.keys.card < m.growThreshold) →
    m.run ops = some (outs, m') → m'.capacity = m.capacity := by
  induction ops with
  | nil =>
    intro m outs m' _ _ h
    cases h
    rfl
  | cons op ops ih =>
    intro m outs m' hm hlive h
    have hlen : m.len < m.growThreshold := by
      rw [len_eq_card hm]
      exact hlive [] List.nil_prefix (List.cons_ne_nil op ops).symm
    obtain ⟨m₁, h₁, hw₁, -, ha₁⟩ := step_spec hm op
    have hc₁ := step_capacity h₁ (slots_ne_nil hlen) (not_grows hlen op)
    rw [run, h₁, Option.bind_some] at h
    obtain ⟨r, hr, he⟩ := Option.map_eq_some_iff.1 h
    cases he
    refine (ih m₁ hw₁ (fun pre hpre hne => ?_) hr).trans hc₁
    have hfull :=
      hlive (op :: pre) (List.cons_prefix_cons.2 ⟨rfl, hpre⟩) fun he => hne (List.cons.inj he).2
    rw [ha₁, growThreshold_eq hc₁]
    exact hfull

/-! ## Pre-sized tables -/

open private Nat.nextPowerOfTwo.go in Nat.nextPowerOfTwo

/-- Doubling ends at or above its goal. -/
theorem le_nextPowerOfTwo_go (n p : Nat) (hp : p > 0) : n ≤ Nat.nextPowerOfTwo.go n p hp := by
  fun_induction Nat.nextPowerOfTwo.go n p hp with
  | case1 p hp hlt ih => exact ih
  | case2 p hp hlt => exact Nat.le_of_not_lt hlt

theorem le_nextPowerOfTwo (n : Nat) : n ≤ Nat.nextPowerOfTwo n := le_nextPowerOfTwo_go n 1 _

/-- The rounding leaves room for `cap` keys below the threshold. -/
theorem withCapacity_room (hasher : Bytes → UInt64) {cap : Nat} (hcap : 0 < cap)
    (hfit : cap * LOAD_DEN < 2 ^ 64) : cap < (withCapacity hasher cap : Raw V).growThreshold := by
  rw [withCapacity, if_pos hcap, Nat.mod_eq_of_lt hfit, growThreshold, alloc, List.length_replicate]
  obtain ⟨k, hk, hpow⟩ := nextPowerOfTwo_max (cap * LOAD_DEN / LOAD_NUM + 1)
  have hle : cap * LOAD_DEN / LOAD_NUM + 1 ≤
      max (Nat.nextPowerOfTwo (cap * LOAD_DEN / LOAD_NUM + 1)) MIN_CAP :=
    (le_nextPowerOfTwo _).trans (le_max_left _ _)
  have hdvd : 8 ∣ 2 ^ k := Nat.pow_dvd_pow 2 (show 3 ≤ k by omega)
  rw [hpow] at hle ⊢
  unfold LOAD_DEN LOAD_NUM at *
  omega

end Raw

open Raw in
/-- **Pre-sizing.** A table made by `with_capacity(cap)`, on which any operations are run
that never leave more than `cap` keys: in every state on the way the capacity is the one
it was made with, and the next operation, whatever it is, does not call `grow`. -/
theorem presized_never_grows {V : Type} (hasher : Bytes → UInt64) {cap : Nat} (hcap : 0 < cap)
    (hfit : cap * LOAD_DEN < 2 ^ 64) (ops : List (Op V))
    (hlive : ∀ pre, pre <+: ops → (specRun ∅ pre).2.keys.card ≤ cap) :
    ∀ pre, pre <+: ops → ∃ outs, ∃ m : Raw V, (withCapacity hasher cap).run pre = some (outs, m) ∧
      m.capacity = (withCapacity hasher cap : Raw V).capacity ∧ ∀ op, m.grows op = false := by
  intro pre hpre
  have hroom := withCapacity_room (V := V) hasher hcap hfit
  obtain ⟨m, hrun, hw, -, ha⟩ := run_spec pre _ (withCapacity_wf (V := V) hasher cap)
  have hc := run_capacity pre _ (withCapacity_wf (V := V) hasher cap) (fun q hq _ => by
    rw [withCapacity_abs]
    exact (hlive q (hq.trans hpre)).trans_lt hroom) hrun
  refine ⟨_, m, hrun, hc, not_grows ?_⟩
  rw [growThreshold_eq hc, len_eq_card hw, ha, withCapacity_abs]
  exact (hlive pre hpre).trans_lt hroom

open Raw in
/-- Two keys in a table made for one: the second comes after the first is gone. -/
theorem presized_never_grows_churn :
    ∃ outs, ∃ m : Raw Nat,
    (withCapacity (fun _ => 0) 1).run [.insert [1] 1, .insert [1] 2, .remove [1], .insert [2] 3] =
      some (outs, m) ∧
      m.capacity = (withCapacity (fun _ => 0) 1 : Raw Nat).capacity ∧ ∀ op, m.grows op = false := by
  have hlive : ∀ pre ∈ List.inits [Op.insert [1] 1, .insert [1] 2, .remove [1], .insert [2] 3],
      (specRun ∅ pre).2.keys.card ≤ 1 := by decide
  exact presized_never_grows (fun _ => 0) (by decide) (by decide) _
    (fun pre hpre => hlive pre ((List.mem_inits _ _).2 hpre)) _ List.prefix_rfl

/-! ## Removed keys -/

namespace Raw

variable {V W : Type}

/-- Two tables of one size with the same keys occupy the same slots. -/
theorem same_keys {m : Raw V} {m' : Raw W} (hm : m.WF) (hm' : m'.WF) (hh : m'.hasher = m.hasher)
    (hc : m'.capacity = m.capacity) (hk : (m'.iter.map Prod.fst).Perm (m.iter.map Prod.fst)) :
    occupied m'.slots = occupied m.slots ∧
      probeDistance m'.home m'.slots = probeDistance m.home m.slots := by
  by_cases hne : m.slots = []
  · have hne' : m'.slots = [] :=
      List.length_eq_zero_iff.1 (by rw [← capacity, hc, capacity, hne]; rfl)
    rw [hne, hne']
    exact ⟨rfl, rfl⟩
  have hs := hm.sized hne
  have hs' :=
    hm'.sized fun h => hne (List.length_eq_zero_iff.1 (by rw [← capacity, ← hc, capacity, h]; rfl))
  have hmask : m'.mask = m.mask := by
    obtain ⟨k, -, hl, hk⟩ := hs
    obtain ⟨k', -, hl', hk'⟩ := hs'
    have hlen : m'.slots.length = m.slots.length := hc
    omega
  -- the home of an entry is a function of its key
  have hhome : (live m.slots).map m.home = (m.iter.map Prod.fst).map fun k =>
      (m.hasher k).toNat &&& m.mask := by
    rw [iter, List.map_map, List.map_map]
    exact List.map_congr_left fun e he => by rw [home, ideal, hm.hashed e he]; rfl
  have hhome' : (live m'.slots).map m'.home = (m'.iter.map Prod.fst).map fun k =>
      (m.hasher k).toNat &&& m.mask := by
    rw [iter, List.map_map, List.map_map]
    exact List.map_congr_left fun e he => by rw [home, ideal, hm'.hashed e he, hmask, hh]; rfl
  have hperm : ((live m'.slots).map m'.home).Perm ((live m.slots).map m.home) := by
    rw [hhome, hhome']
    exact hk.map _
  refine ⟨?_, probeDistance_eq hc.symm hm'.path hm.path (fun e _ => hs'.ideal_lt e.hash)
    (fun e _ => hs.ideal_lt e.hash)
    hperm (hm'.room hs')⟩
  ext i
  rw [mem_occupied, mem_occupied]
  exact full_iff hc.symm hm'.path hm.path (fun e _ => hs'.ideal_lt e.hash)
    (fun e _ => hs.ideal_lt e.hash) hperm
    (hm'.room hs')

/-- An empty table of a given capacity. -/
def ofCapacity (hasher : Bytes → UInt64) (c : Nat) : Raw V := (new hasher).alloc c

theorem ofCapacity_wf (hasher : Bytes → UInt64) {m : Raw W} (hm : m.WF) :
    (ofCapacity hasher m.capacity : Raw V).WF := by
  have hl0 : live (ofCapacity hasher m.capacity : Raw V).slots = [] := live_replicate _
  refine ⟨?_, by rw [hl0]; rfl, Nat.zero_le _, by simp [hl0], by simp [hl0], pathFull_nil hl0⟩
  rcases hm.cap with ⟨h0, -⟩ | ⟨k, h4, hk, -⟩
  · exact .inl (by simp [ofCapacity, capacity, h0, alloc])
  · exact .inr (alloc_sized h4 hk)

theorem ofCapacity_abs (hasher : Bytes → UInt64) (c : Nat) :
    (ofCapacity hasher c : Raw V).abs = ∅ := by
  rw [abs_eq, ofCapacity, alloc, live_replicate]
  rfl

/-- The operations that insert the given pairs. -/
def inserts (kvs : List (Bytes × V)) : List (Op V) := kvs.map fun p => .insert p.1 p.2

theorem inserts_keys (kvs : List (Bytes × V)) : ∀ a : Finmap fun _ : Bytes => V,
    (specRun a (inserts kvs)).2.keys = a.keys ∪ (kvs.map Prod.fst).toFinset := by
  induction kvs with
  | nil => intro a; exact (Finset.union_empty _).symm
  | cons p kvs ih =>
    intro a
    have hrest : (specRun a (inserts (p :: kvs))).2.keys =
        (specRun (a.insert p.1 p.2) (inserts kvs)).2.keys := rfl
    rw [hrest, ih, keys_insert, List.map_cons, List.toFinset_cons, Finset.insert_union,
      Finset.union_insert]

/-- Inserting keys into an empty table that has room for them below the threshold. -/
theorem inserts_spec (hasher : Bytes → UInt64) {m : Raw V} (hm : m.WF) {kvs : List (Bytes × W)}
    (hk : (kvs.map Prod.fst).Perm (m.iter.map Prod.fst)) :
    ∃ outs, ∃ m' : Raw W, (ofCapacity hasher m.capacity).run (inserts kvs) = some (outs, m') ∧
      m'.WF ∧
      m'.hasher = hasher ∧ m'.capacity = m.capacity ∧
      (m'.iter.map Prod.fst).Perm (m.iter.map Prod.fst) := by
  have hw₀ : (ofCapacity hasher m.capacity : Raw W).WF := ofCapacity_wf hasher hm
  have hc₀ : (ofCapacity hasher m.capacity : Raw W).capacity = m.capacity := List.length_replicate
  obtain ⟨m', hrun, hw, hh, ha⟩ := run_spec (inserts kvs) _ hw₀
  have hlen : kvs.length ≤ m.growThreshold := by
    have hl := hk.length_eq
    have hload := hm.load
    rw [hm.count] at hload
    simp only [List.length_map, iter] at hl
    omega
  -- before each insertion fewer keys are in than there are to insert
  have hfew : ∀ pre, pre <+: inserts kvs → pre ≠ inserts kvs →
      (specRun (ofCapacity hasher m.capacity).abs pre).2.keys.card <
        (ofCapacity hasher m.capacity : Raw W).growThreshold := by
    intro pre hpre hne
    obtain ⟨l, hl, rfl⟩ := List.prefix_map_iff.1 hpre
    have hlt : l.length < kvs.length :=
      lt_of_le_of_ne hl.length_le fun he => hne (by rw [hl.eq_of_length he]; rfl)
    have hcard := List.toFinset_card_le (l.map Prod.fst)
    have hkeys := inserts_keys l (∅ : Finmap fun _ : Bytes => W)
    rw [Finmap.keys_empty, Finset.empty_union] at hkeys
    rw [List.length_map] at hcard
    rw [ofCapacity_abs, growThreshold_eq hc₀, ← inserts, hkeys]
    omega
  refine ⟨_, m', hrun, hw, hh, (run_capacity _ _ hw₀ hfew hrun).trans hc₀, ?_⟩
  have hkeys := congrArg Finmap.keys ha
  rw [ofCapacity_abs, inserts_keys, Finmap.keys_empty, Finset.empty_union, abs_keys hw] at hkeys
  exact (List.perm_of_nodup_nodup_toFinset_eq (iter_keys_nodup hw)
    (hk.nodup_iff.2 (iter_keys_nodup hm)) hkeys).trans hk

end Raw

open Raw in
/-- **Deletion leaves no trace.** A table that any operations have led to occupies the
same slots as an empty one of its capacity into which the keys it has are inserted, in
any order and with any values; so its entries are as far from their ideal slots, in all. -/
theorem deletion_leaves_no_trace {V W : Type} (hasher : Bytes → UInt64) (start : Start)
    (ops : List (Op V)) :
    ∃ outs, ∃ m : Raw V, (start.table hasher).run ops = some (outs, m) ∧
      ∀ kvs : List (Bytes × W), (kvs.map Prod.fst).Perm (m.iter.map Prod.fst) →
        ∃ outs', ∃ m' : Raw W, (ofCapacity hasher m.capacity).run (inserts kvs) = some (outs', m') ∧
          m'.capacity = m.capacity ∧ occupied m'.slots = occupied m.slots ∧
          probeDistance m'.home m'.slots = probeDistance m.home m.slots := by
  obtain ⟨m, hrun, hw, hh, -⟩ := run_spec ops _ (start.table_wf (V := V) hasher)
  rw [start.table_hasher] at hh
  refine ⟨_, m, hrun, fun kvs hkvs => ?_⟩
  obtain ⟨outs', m', hrun', hw', hh', hc', hk'⟩ := inserts_spec hasher hw hkvs
  exact ⟨outs', m', hrun', hc', same_keys hw hw' (hh'.trans hh.symm) hc' hk'⟩

end Inmem.L2
