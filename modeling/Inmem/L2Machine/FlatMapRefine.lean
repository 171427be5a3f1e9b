import Inmem.L2Machine.FlatMapOps

/-!
# The flat hash table refines a finite map

* `flatMap_refines`: whole runs from `new` or `withCapacity`; `flatMap_invariant`: the
  representation invariant after every such run, and that every loop ends.
* `FlatMap V` is the type of well-formed tables, on which the operations are
  total; `get_insert`, `get_remove`, `get_getMut`, `mem_iter` are all that the
  modules above use of the table.
-/
namespace Inmem.L2

open Inmem.L1 Inmem.Core.Probe

namespace Raw

variable {V : Type} {m : Raw V}

/-! ## Runs -/

theorem new_wf (hasher : Bytes → UInt64) : (new hasher : Raw V).WF :=
  ⟨.inl ⟨rfl, rfl⟩, rfl, Nat.zero_le _, by simp [new, live], by simp [new, live], pathFull_nil rfl⟩

theorem nextPowerOfTwo_max (n : Nat) : ∃ k, 4 ≤ k ∧ max (Nat.nextPowerOfTwo n) MIN_CAP = 2 ^ k := by
  obtain ⟨k, hk⟩ := Nat.isPowerOfTwo_nextPowerOfTwo n
  rw [hk, MIN_CAP]
  rcases Nat.le_total k 4 with h | h
  · exact ⟨4, le_rfl, max_eq_right (Nat.pow_le_pow_right (by decide) h)⟩
  · exact ⟨k, h, max_eq_left (Nat.pow_le_pow_right (show 0 < 2 by decide) h)⟩

theorem withCapacity_wf (hasher : Bytes → UInt64) (cap : Nat) :
    (withCapacity hasher cap : Raw V).WF := by
  unfold withCapacity
  split
  · obtain ⟨k, h4, hk⟩ := nextPowerOfTwo_max (cap * LOAD_DEN % 2 ^ 64 / LOAD_NUM + 1)
    have hl0 : live ((new hasher : Raw V).alloc (2 ^ k)).slots = [] := live_replicate _
    rw [hk]
    exact ⟨.inr (alloc_sized h4 rfl), by rw [hl0]; rfl, Nat.zero_le _, by simp [hl0], by simp [hl0],
      pathFull_nil hl0⟩
  · exact new_wf hasher

theorem withCapacity_abs (hasher : Bytes → UInt64) (cap : Nat) :
    (withCapacity hasher cap : Raw V).abs = ∅ := by
  unfold withCapacity
  split
  · rw [abs_eq, alloc, live_replicate]; rfl
  · rfl

/-- The operations of a run. -/
inductive Op (V : Type)
  | insert (key : Bytes) (value : V)
  | remove (key : Bytes)
  | get (key : Bytes)
  | getMut (key : Bytes) (f : V → V)
  | containsKey (key : Bytes)

inductive Out (V : Type)
  | value (v : Option V)
  | found (b : Bool)

/-- One operation on the table; `none` if one of its loops does not end. -/
def step (m : Raw V) : Op V → Option (Out V × Raw V)
  | .insert k v => (m.insert k v).map fun r => (.value r.1, r.2)
  | .remove k => (m.remove k).map fun r => (.value r.1, r.2)
  | .get k => (m.get k).map fun r => (.value r, m)
  | .getMut k f => (m.getMut k f).map fun r => (.value r.1, r.2)
  | .containsKey k => (m.containsKey k).map fun b => (.found b, m)

def run : Raw V → List (Op V) → Option (List (Out V) × Raw V)
  | m, [] => some ([], m)
  | m, op :: ops => (m.step op).bind fun r => (r.2.run ops).map fun q => (r.1 :: q.1, q.2)

/-- The same operation on a finite map. -/
def specStep (a : Finmap fun _ : Bytes => V) : Op V → Out V × Finmap fun _ : Bytes => V
  | .insert k v => (.value (a.lookup k), a.insert k v)
  | .remove k => (.value (a.lookup k), a.erase k)
  | .get k => (.value (a.lookup k), a)
  | .getMut k f => (.value (a.lookup k), modifyMap a k f)
  | .containsKey k => (.found (a.lookup k).isSome, a)

def specRun : (Finmap fun _ : Bytes => V) → List (Op V) → List (Out V) × Finmap fun _ : Bytes => V
  | a, [] => ([], a)
  | a, op :: ops =>
    let r := specStep a op
    let q := specRun r.2 ops
    (r.1 :: q.1, q.2)

theorem step_spec (hm : m.WF) (op : Op V) :
    ∃ m', m.step op = some ((specStep m.abs op).1, m') ∧ m'.WF ∧ m'.hasher = m.hasher ∧
      m'.abs = (specStep m.abs op).2 := by
  cases op with
  | insert k v =>
    obtain ⟨m', h, hw, hh, ha⟩ := insert_spec hm k v
    exact ⟨m', by simp [step, h, specStep], hw, hh, ha⟩
  | remove k =>
    obtain ⟨m', h, hw, hh, ha⟩ := remove_spec hm k
    exact ⟨m', by simp [step, h, specStep], hw, hh, ha⟩
  | get k => exact ⟨m, by simp [step, get_spec hm, specStep], hm, rfl, rfl⟩
  | getMut k f =>
    obtain ⟨m', h, hw, hh, ha⟩ := getMut_spec hm k f
    exact ⟨m', by simp [step, h, specStep], hw, hh, ha⟩
  | containsKey k => exact ⟨m, by simp [step, containsKey, get_spec hm, specStep], hm, rfl, rfl⟩

theorem run_spec (ops : List (Op V)) : ∀ m : Raw V, m.WF →
    ∃ m', m.run ops = some ((specRun m.abs ops).1, m') ∧ m'.WF ∧ m'.hasher = m.hasher ∧
      m'.abs = (specRun m.abs ops).2 := by
  induction ops with
  | nil => intro m hm; exact ⟨m, rfl, hm, rfl, rfl⟩
  | cons op ops ih =>
    intro m hm
    obtain ⟨m1, h1, hw1, hh1, ha1⟩ := step_spec hm op
    obtain ⟨m2, h2, hw2, hh2, ha2⟩ := ih m1 hw1
    rw [ha1] at h2 ha2
    exact ⟨m2, by simp [run, h1, h2, specRun], hw2, hh2.trans hh1, ha2⟩

theorem mem_iter (hm : m.WF) {k : Bytes} {v : V} : (k, v) ∈ m.iter ↔ m.abs.lookup k = some v := by
  rw [abs_eq, lookup_absOf hm.keys, iter]
  simp

theorem iter_keys_nodup (hm : m.WF) : (m.iter.map Prod.fst).Nodup := by
  rw [iter, List.map_map]; exact hm.keys

theorem abs_keys (hm : m.WF) : m.abs.keys = (m.iter.map Prod.fst).toFinset := by
  ext k
  rw [Finmap.mem_keys, ← Finmap.lookup_isSome, Option.isSome_iff_exists, List.mem_toFinset,
    List.mem_map]
  constructor
  · rintro ⟨v, hv⟩; exact ⟨(k, v), (mem_iter hm).2 hv, rfl⟩
  · rintro ⟨⟨k', v⟩, hmem, rfl⟩; exact ⟨v, (mem_iter hm).1 hmem⟩

theorem len_eq_card (hm : m.WF) : m.len = m.abs.keys.card := by
  rw [abs_keys hm, List.toFinset_card_of_nodup (iter_keys_nodup hm), hm.count, iter]
  simp

/-- How a table is created. -/
inductive Start
  | new
  | withCapacity (cap : Nat)

def Start.table (hasher : Bytes → UInt64) : Start → Raw V
  | .new => Raw.new hasher
  | .withCapacity cap => Raw.withCapacity hasher cap

theorem Start.table_wf (hasher : Bytes → UInt64) (s : Start) : (s.table hasher : Raw V).WF := by
  cases s with
  | new => exact new_wf hasher
  | withCapacity cap => exact withCapacity_wf hasher cap

theorem Start.table_hasher (hasher : Bytes → UInt64) (s : Start) :
    (s.table hasher : Raw V).hasher = hasher := by
  cases s with
  | new => rfl
  | withCapacity cap =>
    simp only [Start.table, Raw.withCapacity]
    split <;> rfl

/-- Whether the table must grow first or not, growing ends. -/
theorem grow_ends (hm : m.WF) : m.grow.isSome = true := by
  by_cases hne : m.slots = []
  · simp [grow, hne, live]
  · obtain ⟨m', h, -⟩ := grow_spec hm (hm.sized hne)
    rw [h]; rfl

/-- Equal keys are in one slot. -/
theorem WF.slot_inj (hm : m.WF) {i j : Nat} {e e' : Entry V} (hi : At m.slots i e)
    (hj : At m.slots j e') (h : e.key = e'.key) : i = j := by
  by_contra hne
  have h1 := (live_clear hi).map Entry.key
  have hj' : At (m.slots.set i none) j e' := by
    unfold At at hj ⊢
    rw [List.getElem?_set_ne hne]; exact hj
  have hkeys := h1.nodup_iff.1 hm.keys
  rw [List.map_cons, List.nodup_cons] at hkeys
  exact hkeys.1 (h ▸ List.mem_map_of_mem (mem_live.2 ⟨j, hj'⟩))

theorem Start.table_abs (hasher : Bytes → UInt64) (s : Start) :
    (s.table hasher : Raw V).abs = ∅ := by
  cases s with
  | new => rfl
  | withCapacity cap => exact withCapacity_abs hasher cap

end Raw

open Raw in
/-- **Refinement.** For every hasher and every run of operations on a fresh
table, no loop diverges, every result is that of a finite map, `len` is the
number of keys and `iter` lists every pair of the map exactly once. -/
theorem flatMap_refines {V : Type} (hasher : Bytes → UInt64) (start : Start) (ops : List (Op V)) :
    ∃ m' : Raw V, (start.table hasher).run ops = some ((specRun ∅ ops).1, m') ∧
      m'.len = (specRun ∅ ops).2.keys.card ∧ (m'.iter.map Prod.fst).Nodup ∧
      ∀ k v, (k, v) ∈ m'.iter ↔ (specRun ∅ ops).2.lookup k = some v := by
  obtain ⟨m', hr, hw, -, ha⟩ := run_spec ops _ (start.table_wf hasher)
  rw [start.table_abs] at hr ha
  exact ⟨m', hr, ha ▸ len_eq_card hw, iter_keys_nodup hw, fun k v => ha ▸ mem_iter hw⟩

open Raw Inmem.Core.Ring in
/-- **Representation invariant.** For every hasher, after every run of operations
on a fresh table: the capacity is zero or a power of two from 16 on and the mask
is one less; `len` is the number of occupied slots, at most 7/8 of them; no key is
stored twice, every stored hash is its key's, and the slots on the cyclic path
from the ideal slot of an entry up to its own are occupied. From there every
loop ends, whatever operation comes next. -/
theorem flatMap_invariant {V : Type} (hasher : Bytes → UInt64) (start : Start) (ops : List (Op V)) :
    ∃ outs, ∃ m : Raw V, (start.table hasher).run ops = some (outs, m) ∧
      (m.slots.length = 0 ∧ m.mask = 0 ∨
        ∃ k, m.slots.length = 2 ^ k ∧ 16 ≤ m.slots.length ∧ m.mask = m.slots.length - 1) ∧
      m.len = m.slots.countP Option.isSome ∧ 8 * m.len ≤ 7 * m.slots.length ∧
      (∀ i j e e', At m.slots i e → At m.slots j e' → e.key = e'.key → i = j) ∧
      (∀ i e, At m.slots i e → e.hash = hasher e.key ∧
        ∀ k < dist m.slots.length (m.ideal e.hash) i,
        Full m.slots (adv m.slots.length (m.ideal e.hash) k)) ∧
      (∀ key, (m.get key).isSome ∧ (∀ f, (m.getMut key f).isSome) ∧ (∀ v, (m.insert key v).isSome) ∧
        (m.remove key).isSome) ∧
      m.grow.isSome := by
  obtain ⟨m, hr, hw, hh, -⟩ := run_spec ops _ (start.table_wf hasher)
  rw [start.table_hasher] at hh
  refine ⟨_, m, hr, ?_, ?_, ?_, fun i j e e' => hw.slot_inj, fun i e he => ⟨?_, hw.path i e he⟩,
    fun key => ?_, grow_ends hw⟩
  · rcases hw.cap with ⟨h1, h2⟩ | ⟨k, h4, h5, h6⟩
    · exact .inl ⟨by rw [h1]; rfl, h2⟩
    · refine .inr ⟨k, h5, Sized.ge ⟨k, h4, h5, h6⟩, by rw [h5, h6]⟩
  · rw [hw.count, live, List.length_filterMap_eq_countP]; rfl
  · have hload := hw.load
    rw [growThreshold, LOAD_DEN, LOAD_NUM] at hload
    omega
  · rw [← hh]
    exact hw.hashed e (mem_live.2 ⟨i, he⟩)
  · refine ⟨by rw [get_spec hw]; rfl, fun f => ?_, fun v => ?_, ?_⟩
    · obtain ⟨m', h, -⟩ := getMut_spec hw key f
      rw [h]; rfl
    · obtain ⟨m', h, -⟩ := insert_spec hw key v
      rw [h]; rfl
    · obtain ⟨m', h, -⟩ := remove_spec hw key
      rw [h]; rfl

/-! ## Well-formed tables as a type -/

/-- A table that satisfies the representation invariant. -/
def FlatMap (V : Type) := { m : Raw V // m.WF }

namespace FlatMap

variable {V : Type} (m : FlatMap V)

def new (hasher : Bytes → UInt64) : FlatMap V := ⟨Raw.new hasher, Raw.new_wf hasher⟩

def len : Nat := m.1.len

def iter : List (Bytes × V) := m.1.iter

def get (k : Bytes) : Option V := (m.1.get k).get (by rw [Raw.get_spec m.2]; rfl)

theorem getMut_ok (k : Bytes) (f : V → V) :
    ∃ h : (m.1.getMut k f).isSome, ((m.1.getMut k f).get h).2.WF := by
  obtain ⟨m', hm, hw, -⟩ := Raw.getMut_spec m.2 k f
  exact ⟨by rw [hm]; rfl, by simpa [hm] using hw⟩

/-- The table after a write through `get_mut` (unchanged when the key is absent). -/
def getMut (k : Bytes) (f : V → V) : FlatMap V := ⟨_, (m.getMut_ok k f).2⟩

theorem insert_ok (k : Bytes) (v : V) :
    ∃ h : (m.1.insert k v).isSome, ((m.1.insert k v).get h).2.WF := by
  obtain ⟨m', hm, hw, -⟩ := Raw.insert_spec m.2 k v
  exact ⟨by rw [hm]; rfl, by simpa [hm] using hw⟩

def insert (k : Bytes) (v : V) : FlatMap V := ⟨_, (m.insert_ok k v).2⟩

theorem remove_ok (k : Bytes) : ∃ h : (m.1.remove k).isSome, ((m.1.remove k).get h).2.WF := by
  obtain ⟨m', hm, hw, -⟩ := Raw.remove_spec m.2 k
  exact ⟨by rw [hm]; rfl, by simpa [hm] using hw⟩

/-- The removed value, and the table without the key. -/
def remove (k : Bytes) : Option V × FlatMap V :=
  (((m.1.remove k).get (m.remove_ok k).1).1, ⟨_, (m.remove_ok k).2⟩)

theorem get_eq (k : Bytes) : m.get k = m.1.abs.lookup k := by
  simp [get, Raw.get_spec m.2]

@[simp] theorem get_new (hasher : Bytes → UInt64) (k : Bytes) :
    (new hasher : FlatMap V).get k = none := by
  rw [get_eq]; rfl

@[simp] theorem get_insert (k k' : Bytes) (v : V) :
    (m.insert k v).get k' = if k' = k then some v else m.get k' := by
  obtain ⟨m', hm, -, -, ha⟩ := Raw.insert_spec m.2 k v
  have : (m.insert k v).1 = m' := by simp [insert, hm]
  rw [get_eq, this, ha, get_eq]
  split
  · subst k'; rw [Finmap.lookup_insert]
  · rename_i h; rw [Finmap.lookup_insert_of_ne _ h]

@[simp] theorem remove_fst (k : Bytes) : (m.remove k).1 = m.get k := by
  obtain ⟨m', hm, -⟩ := Raw.remove_spec m.2 k
  simp [remove, hm, get_eq]

@[simp] theorem get_remove (k k' : Bytes) :
    (m.remove k).2.get k' = if k' = k then none else m.get k' := by
  obtain ⟨m', hm, -, -, ha⟩ := Raw.remove_spec m.2 k
  have : (m.remove k).2.1 = m' := by simp [remove, hm]
  rw [get_eq, this, ha, get_eq]
  split
  · subst k'; rw [Finmap.lookup_erase]
  · rename_i h; rw [Finmap.lookup_erase_ne h]

@[simp] theorem get_getMut (k k' : Bytes) (f : V → V) :
    (m.getMut k f).get k' = if k' = k then (m.get k').map f else m.get k' := by
  obtain ⟨m', hm, -, -, ha⟩ := Raw.getMut_spec m.2 k f
  have : (m.getMut k f).1 = m' := by simp [getMut, hm]
  rw [get_eq, this, ha, get_eq, Raw.modifyMap]
  by_cases hk : k' = k
  · subst hk
    cases hl : m.1.abs.lookup k' with
    | none => simp [hl]
    | some v => simp [Finmap.lookup_insert]
  · rw [if_neg hk]
    cases m.1.abs.lookup k with
    | none => rfl
    | some v => exact Finmap.lookup_insert_of_ne _ hk

theorem mem_iter {k : Bytes} {v : V} : (k, v) ∈ m.iter ↔ m.get k = some v := by
  rw [get_eq]; exact Raw.mem_iter m.2

theorem iter_nodup : (m.iter.map Prod.fst).Nodup := Raw.iter_keys_nodup m.2

theorem len_eq_iter : m.len = m.iter.length := by
  unfold len iter; rw [m.2.count, Raw.iter, List.length_map]

/-! ### Sums over the stored values -/

/-- The sum of `f` over the stored values. -/
def total (f : V → Nat) : Nat := (m.iter.map fun p => f p.2).sum

/-- The pairs stored under other keys. -/
def others (k : Bytes) : List (Bytes × V) := m.iter.filter fun p => p.1 ≠ k

theorem iter_pairs_nodup : m.iter.Nodup := List.Nodup.of_map _ m.iter_nodup

theorem others_perm {m m' : FlatMap V} {k : Bytes} (h : ∀ k', k' ≠ k → m'.get k' = m.get k') :
    (m'.others k).Perm (m.others k) := by
  rw [others, others, List.perm_ext_iff_of_nodup (m'.iter_pairs_nodup.filter _)
    (m.iter_pairs_nodup.filter _)]
  rintro ⟨k', v⟩
  simp only [List.mem_filter, mem_iter, decide_eq_true_eq]
  constructor
  · rintro ⟨h1, h2⟩; exact ⟨h k' h2 ▸ h1, h2⟩
  · rintro ⟨h1, h2⟩; exact ⟨(h k' h2).symm ▸ h1, h2⟩

theorem iter_perm_some {m : FlatMap V} {k : Bytes} {v : V} (h : m.get k = some v) :
    m.iter.Perm ((k, v) :: m.others k) := by
  have hnd : ((k, v) :: m.others k).Nodup :=
    List.nodup_cons.2 ⟨by simp [others], m.iter_pairs_nodup.filter _⟩
  rw [List.perm_ext_iff_of_nodup m.iter_pairs_nodup hnd]
  rintro ⟨k', v'⟩
  simp only [others, List.mem_cons, List.mem_filter, mem_iter, decide_eq_true_eq, Prod.mk.injEq]
  by_cases hk : k' = k
  · subst hk; simp [h, eq_comm]
  · simp [hk]

theorem iter_perm_none {m : FlatMap V} {k : Bytes} (h : m.get k = none) :
    m.iter.Perm (m.others k) := by
  rw [others, List.filter_eq_self.2]
  rintro ⟨k', v'⟩ hmem
  rw [mem_iter] at hmem
  by_cases hk : k' = k
  · subst hk; rw [h] at hmem; cases hmem
  · simpa using hk

/-- The sum of `f` over the stored pairs. -/
def weight (f : Bytes → V → Nat) : Nat := (m.iter.map fun p => f p.1 p.2).sum

/-- The share of one key in the sum. -/
def share (f : Bytes → V → Nat) (k : Bytes) : Nat := ((m.get k).map (f k)).getD 0

/-- The sum splits into the key's own share and the rest. -/
theorem weight_eq (f : Bytes → V → Nat) (k : Bytes) :
    m.weight f = m.share f k + ((m.others k).map fun p => f p.1 p.2).sum := by
  unfold weight share
  cases h : m.get k with
  | none => rw [((iter_perm_none h).map _).sum_eq]; simp
  | some v => rw [((iter_perm_some h).map _).sum_eq]; simp

/-- A change at one key changes the sum by that key's share. -/
theorem weight_update (m m' : FlatMap V) (f : Bytes → V → Nat) {k : Bytes}
    (h : ∀ k', k' ≠ k → m'.get k' = m.get k') :
    m'.weight f + m.share f k = m.weight f + m'.share f k := by
  rw [m'.weight_eq f k, m.weight_eq f k, ((others_perm h).map _).sum_eq]
  omega

/-- Tables with the same contents have the same sum. -/
theorem weight_congr {m m' : FlatMap V} (h : ∀ k, m'.get k = m.get k) (f : Bytes → V → Nat) :
    m'.weight f = m.weight f := by
  have := weight_update m m' f (k := []) fun k _ => h k
  rw [share, share, h] at this
  exact Nat.add_right_cancel this

theorem len_eq_weight : m.len = m.weight fun _ _ => 1 := by
  rw [len_eq_iter, weight]; simp

theorem share_le_weight (f : Bytes → V → Nat) (k : Bytes) : m.share f k ≤ m.weight f := by
  rw [m.weight_eq f k]; omega

theorem share_some {m : FlatMap V} {k : Bytes} {v : V} (h : m.get k = some v)
    (f : Bytes → V → Nat) : m.share f k = f k v := by rw [share, h]; rfl

theorem share_none {m : FlatMap V} {k : Bytes} (h : m.get k = none) (f : Bytes → V → Nat) :
    m.share f k = 0 := by
  rw [share, h]; rfl

/-- A table without keys weighs nothing. -/
theorem weight_empty {m : FlatMap V} (h : ∀ k, m.get k = none) (f : Bytes → V → Nat) :
    m.weight f = 0 := by
  have hiter : m.iter = [] := List.eq_nil_iff_forall_not_mem.2 fun p hp => by
    have hg := (mem_iter m).1 hp
    rw [h] at hg; cases hg
  rw [weight, hiter]; rfl

theorem get_of_len_zero {m : FlatMap V} (h : m.len = 0) (k : Bytes) : m.get k = none := by
  cases hk : m.get k with
  | none => rfl
  | some v =>
    have hmem := (mem_iter m).2 hk
    rw [List.length_eq_zero_iff.1 (m.len_eq_iter.symm.trans h)] at hmem
    cases hmem

@[simp] theorem weight_new (hasher : Bytes → UInt64) (f : Bytes → V → Nat) :
    (new hasher : FlatMap V).weight f = 0 := weight_empty (fun k => get_new hasher k) f

theorem weight_insert {m : FlatMap V} {k : Bytes} (h : m.get k = none) (v : V)
    (f : Bytes → V → Nat) : (m.insert k v).weight f = m.weight f + f k v := by
  have := weight_update m (m.insert k v) f (k := k) fun k' hk' => by simp [hk']
  rwa [share_none h, share_some (v := v) (by simp), Nat.add_zero] at this

theorem weight_remove {m : FlatMap V} {k : Bytes} {v : V} (h : m.get k = some v)
    (f : Bytes → V → Nat) : (m.remove k).2.weight f + f k v = m.weight f := by
  have := weight_update m (m.remove k).2 f (k := k) fun k' hk' => by simp [hk']
  rwa [share_some h, share_none (by simp), Nat.add_zero] at this

theorem weight_getMut {m : FlatMap V} {k : Bytes} {v : V} (h : m.get k = some v) (g : V → V)
    (f : Bytes → V → Nat) : (m.getMut k g).weight f + f k v = m.weight f + f k (g v) := by
  have := weight_update m (m.getMut k g) f (k := k) fun k' hk' => by simp [hk']
  rwa [share_some h, share_some (v := g v) (by simp [h])] at this

theorem total_getMut {m : FlatMap V} {k : Bytes} {v : V} (h : m.get k = some v) (g : V → V)
    (f : V → Nat) : (m.getMut k g).total f + f v = m.total f + f (g v) :=
  weight_getMut h g fun _ => f

/-- The number of pairs that satisfy `p`. -/
def count (p : V → Bool) : Nat := m.weight fun _ v => if p v then 1 else 0

theorem count_eq (p : V → Bool) : m.count p = (m.iter.filter fun x => p x.2).length := by
  rw [count, weight]
  induction m.iter with
  | nil => rfl
  | cons x l ih =>
    rw [List.map_cons, List.sum_cons, ih, List.filter_cons]
    cases p x.2 <;> simp; omega

theorem count_insert {m : FlatMap V} {k : Bytes} (h : m.get k = none) (v : V) (p : V → Bool) :
    (m.insert k v).count p = m.count p + if p v then 1 else 0 := weight_insert h v _

theorem count_remove {m : FlatMap V} {k : Bytes} {v : V} (h : m.get k = some v) (p : V → Bool) :
    (m.remove k).2.count p + (if p v then 1 else 0) = m.count p := weight_remove h _

theorem count_getMut {m : FlatMap V} {k : Bytes} {v : V} (h : m.get k = some v) (g : V → V)
    (p : V → Bool) :
    (m.getMut k g).count p + (if p v then 1 else 0) = m.count p + if p (g v) then 1 else 0 :=
  weight_getMut h g _

theorem count_pos {m : FlatMap V} {p : V → Bool} (h : 0 < m.count p) :
    ∃ k v, m.get k = some v ∧ p v = true := by
  by_contra hn
  simp only [not_exists, not_and, Bool.not_eq_true] at hn
  have : m.count p = 0 := by
    refine List.sum_eq_zero fun x hx => ?_
    obtain ⟨⟨k, v⟩, hm, rfl⟩ := List.mem_map.1 hx
    simp [hn k v (m.mem_iter.1 hm)]
  omega

theorem count_split (p : V → Bool) : m.count p + m.count (fun v => !p v) = m.len := by
  rw [len_eq_iter, count, count, weight, weight]
  induction m.iter with
  | nil => rfl
  | cons x l ih =>
    simp only [List.map_cons, List.sum_cons, List.length_cons, ← ih]
    cases p x.2 <;> simp <;> omega

/-- Tables with the same keys have the same number of them. -/
theorem len_congr {W : Type} (m : FlatMap V) (m' : FlatMap W)
    (h : ∀ k, (m.get k).isSome = (m'.get k).isSome) : m.len = m'.len := by
  have hkey : ∀ {X : Type} (t : FlatMap X) (k : Bytes), k ∈ t.iter.map Prod.fst ↔
      (t.get k).isSome := by
    intro X t k
    rw [Option.isSome_iff_exists, List.mem_map]
    constructor
    · rintro ⟨⟨k, v⟩, hm, rfl⟩; exact ⟨v, (t.mem_iter).1 hm⟩
    · rintro ⟨v, hv⟩; exact ⟨(k, v), (t.mem_iter).2 hv, rfl⟩
  have hp : (m.iter.map Prod.fst).Perm (m'.iter.map Prod.fst) :=
    (List.perm_ext_iff_of_nodup m.iter_nodup m'.iter_nodup).2 fun k => by rw [hkey, hkey, h k]
  rw [len_eq_iter, len_eq_iter]
  simpa using hp.length_eq

end FlatMap

end Inmem.L2
