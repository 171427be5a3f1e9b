import Inmem.Core.Clock
import Inmem.L2Machine.LazyDelete

/-!
# Whom the policy evicts

* `main_victim`: from the main queue the policy takes the first of the keys that have been hit
  least, and takes from the others the chances that it went past;
* `calm_evict`: while the small queue has its share and holds no key that has been hit
  twice, the victim is the first key of the small queue;
* `scan_resistant`: hence any number of keys that are seen once pass through the small queue
  alone, and every key of the main queue stays.
-/
namespace Inmem.L2.S3Fifo

open Inmem.L1 Inmem.Core
open Inmem.L2 (FlatMap)

variable {s s' : S3Fifo} {k : Bytes}

theorem evictLoop_victim {v : Bytes} (h0 : ¬ (s.smallCount = 0 ∧ s.mainCount = 0))
    (hr : s.round = (some v, s')) (f : Nat) : evictLoop (f + 1) s = some (some v, s') := by
  rw [evictLoop_succ, if_neg h0, hr]

theorem evictLoop_again (h0 : ¬ (s.smallCount = 0 ∧ s.mainCount = 0)) (hr : s.round = (none, s'))
    (f : Nat) : evictLoop (f + 1) s = evictLoop f s' := by
  rw [evictLoop_succ, if_neg h0, hr]

/-! ## The main queue -/

/-- The frequency of a key. -/
def freqOf (s : S3Fifo) (k : Bytes) : Nat := (s.metas.get k).elim 0 Meta.freq

/-- The main queue holds the keys that are tracked there, each once, and is next. -/
structure MainTurn (s : S3Fifo) : Prop where
  turn : s.useSmall = false
  nodup : s.main.Nodup
  live : ∀ k ∈ s.main, ∃ m, s.metas.get k = some m ∧ m.loc = .main

theorem MainTurn.counts (h : MainTurn s) : ¬ (s.smallCount = 0 ∧ s.mainCount = 0) := by
  rintro ⟨-, h0⟩
  have := h.turn
  simp [useSmall, h0] at this

theorem MainTurn.round (h : MainTurn s) : s.round = s.stepMain := by
  rw [S3Fifo.round, h.turn]
  rfl

theorem MainTurn.get (h : MainTurn s) (hk : k ∈ s.main) :
    s.metas.get k = some ⟨s.freqOf k, .main⟩ := by
  obtain ⟨⟨f, l⟩, hm, rfl⟩ := h.live k hk
  rw [freqOf, hm]
  rfl

/-- The first key of the main queue has gone to its end, for one of its hits. -/
def spared (s : S3Fifo) (k : Bytes) (rest : List Bytes) : S3Fifo :=
  { s with metas := s.metas.getMut k fun m => { m with freq := m.freq - 1 }, main := rest ++ [k] }

section Head
variable {rest : List Bytes} (h : MainTurn s) (hq : s.main = k :: rest)
include h hq

theorem MainTurn.get_head : s.metas.get k = some ⟨s.freqOf k, .main⟩ :=
  h.get (by rw [hq]; exact List.mem_cons_self)

theorem MainTurn.round_spares (hf : 0 < s.freqOf k) : s.round = (none, s.spared k rest) := by
  rw [h.round, stepMain_eq hq (h.get_head hq) rfl, if_pos hf]
  rfl

theorem MainTurn.round_evicts (hf : s.freqOf k = 0) :
    s.round = (some k,
      { s with main := rest, metas := (s.metas.remove k).2, mainCount := s.mainCount - 1 }) := by
  rw [h.round, stepMain_eq hq (h.get_head hq) rfl, if_neg (by simp [hf])]

theorem spared_get (y : Bytes) : (s.spared k rest).metas.get y =
    if y = k then some ⟨s.freqOf k - 1, .main⟩ else s.metas.get y := by
  rw [spared, FlatMap.get_getMut]
  split
  · rename_i hy; rw [hy, h.get_head hq, Option.map_some]
  · rfl

theorem spared_freqOf :
    (s.spared k rest).freqOf = Function.update s.freqOf k (s.freqOf k - 1) := by
  funext y
  rw [freqOf, spared_get h hq]
  by_cases hy : y = k
  · subst hy
    rw [if_pos rfl, Function.update_self]
    rfl
  · rw [if_neg hy, Function.update_of_ne hy]
    rfl

theorem MainTurn.spared : MainTurn (s.spared k rest) where
  turn := h.turn
  nodup := List.perm_append_comm.nodup_iff.2 (hq ▸ h.nodup : (k :: rest).Nodup)
  live y hy := by
    rw [spared_get h hq]
    split
    · exact ⟨_, rfl, rfl⟩
    · exact h.live y (by rw [hq]; exact List.perm_append_comm.mem_iff.1 hy)

end Head

/-- What an eviction from the main queue leaves: the frequencies are given for the keys
of the queue. -/
structure MainEvicted (s : S3Fifo) (v : Bytes) (q : List Bytes) (f : Bytes → Nat) (s' : S3Fifo) :
    Prop where
  main : s'.main = q
  kept : ∀ x ∈ q, s'.metas.get x = some ⟨f x, .main⟩
  other : ∀ x, x ∉ s.main → s'.metas.get x = s.metas.get x
  gone : s'.metas.get v = none
  small : s'.small = s.small
  ghost : s'.ghost = s.ghost
  ghostSet : s'.ghostSet = s.ghostSet
  smallCount : s'.smallCount = s.smallCount
  mainCount : s'.mainCount = s.mainCount - 1

/-- The loop does on the main queue what a queue with second chances does. -/
theorem evictLoop_clock {q q' : List Bytes} {f f' : Bytes → Nat} {v : Bytes}
    (h : Clock.Evicts q f v q' f') :
    ∀ {s : S3Fifo}, MainTurn s → s.main = q → s.freqOf = f →
      ∃ n r, evictLoop n s = some (some v, r) ∧ MainEvicted s v q' f' r := by
  induction h with
  | @now v q f hv =>
    rintro s hs hq rfl
    refine ⟨1, _, evictLoop_victim hs.counts (hs.round_evicts hq hv) 0, rfl, fun x hx => ?_,
      fun x hx => ?_, ?_, rfl, rfl, rfl, rfl, rfl⟩
    · have hnd : (v :: q).Nodup := hq ▸ hs.nodup
      have hne : x ≠ v := ne_of_mem_of_not_mem hx (List.nodup_cons.1 hnd).1
      rw [FlatMap.get_remove, if_neg hne]
      exact hs.get (by rw [hq]; exact List.mem_cons_of_mem _ hx)
    · have hne : x ≠ v := by
        rintro rfl
        exact hx (by rw [hq]; exact List.mem_cons_self)
      rw [FlatMap.get_remove, if_neg hne]
    · rw [FlatMap.get_remove, if_pos rfl]
  | @later x v q q' f f' hx _ ih =>
    rintro s hs hq rfl
    obtain ⟨n, r, hloop, hr⟩ := ih (hs.spared hq) rfl (spared_freqOf hs hq)
    refine ⟨n + 1, r, (evictLoop_again hs.counts (hs.round_spares hq hx) n).trans hloop, hr.main,
      hr.kept, fun y hy => ?_, hr.gone, hr.small, hr.ghost, hr.ghostSet, hr.smallCount,
      hr.mainCount⟩
    rw [hq] at hy
    have hrot : y ∉ q ++ [x] := fun h => hy (List.perm_append_comm.mem_iff.1 h)
    rw [hr.other y hrot, spared_get hs hq, if_neg (List.ne_of_not_mem_cons hy)]

/-- Without its stale references a policy is ready for an eviction from the main queue. -/
theorem tidy_mainTurn (h1 : s.Single) (hu : s.useSmall = false) : MainTurn s.tidy where
  turn := hu
  nodup := (List.nodup_append.1 h1).2.1.filter _
  live _ hk := isAt_iff.1 (List.mem_filter.1 hk).2

theorem tidy_main_ne_nil (hi : s.Inv) (hu : s.useSmall = false) : s.tidy.main ≠ [] := by
  have hpos : 0 < s.held .main := by
    rw [← hi.tallies .main]
    by_contra h0
    have hz : s.mainCount = 0 := Nat.eq_zero_of_not_pos h0
    simp [useSmall, hz] at hu
  obtain ⟨k, m, hm, hl⟩ := held_pos hpos
  have hk : k ∈ s.main := by
    have := hi.refs k m hm
    rwa [hl] at this
  exact List.ne_nil_of_mem (List.mem_filter.2 ⟨hk, isAt_iff.2 ⟨m, hm, hl⟩⟩)

/-- **The victim of the main queue.** When it is the main queue's turn and no key has two
references, the victim is the first of the keys with the least frequency, and is no longer
tracked. Those before it have gone to the end and lost that frequency and one more, those behind
it have lost that frequency. Nothing else has changed but the count of the main queue, stale
references apart: not the small queue, nor any other key, nor the ghosts. -/
theorem main_victim (hi : s.Inv) (h1 : s.Single) (hu : s.useSmall = false) :
    ∃ a v b, s.tidy.main = a ++ v :: b ∧
      (∀ x ∈ a, s.freqOf v < s.freqOf x) ∧ (∀ x ∈ b, s.freqOf v ≤ s.freqOf x) ∧
      s.evictOne.1 = some v ∧ s.evictOne.2.tidy.main = b ++ a ∧
      (∀ x ∈ a, s.evictOne.2.metas.get x = some ⟨s.freqOf x - (s.freqOf v + 1), .main⟩) ∧
      (∀ x ∈ b, s.evictOne.2.metas.get x = some ⟨s.freqOf x - s.freqOf v, .main⟩) ∧
      s.evictOne.2.metas.get v = none ∧
      (∀ x, x ∉ s.tidy.main → s.evictOne.2.metas.get x = s.metas.get x) ∧
      s.evictOne.2.tidy.small = s.tidy.small ∧ s.evictOne.2.ghost = s.ghost ∧
      s.evictOne.2.ghostSet = s.ghostSet ∧
      s.evictOne.2.smallCount = s.smallCount ∧ s.evictOne.2.mainCount = s.mainCount - 1 := by
  have hturn := tidy_mainTurn h1 hu
  obtain ⟨a, v, b, hq, hleast⟩ := Clock.exists_firstLeast s.freqOf (tidy_main_ne_nil hi hu)
  have hnd : (a ++ v :: b).Nodup := hq ▸ hturn.nodup
  obtain ⟨n, r, hloop, hr⟩ :=
    evictLoop_clock (Clock.evicts_first_least _ hnd rfl hleast) hturn hq rfl
  obtain ⟨hv, rfl⟩ : s.evictOne.1 = some v ∧ s.evictOne.2.tidy = r := by
    have h := evictLoop_unique (evictLoop_evictOne s.tidy) hloop
    rw [evictOne_tidy hi h1] at h
    exact Prod.ext_iff.1 h
  refine ⟨a, v, b, hq, hleast.before, hleast.behind, hv, hr.main, fun x hx => ?_, fun x hx => ?_,
    hr.gone, hr.other, hr.small, hr.ghost, hr.ghostSet, hr.smallCount, hr.mainCount⟩
  · have hf := hr.kept x (List.mem_append_right _ hx)
    rwa [Clock.settle, if_pos hx] at hf
  · have hxa : x ∉ a := fun h => (List.nodup_append.1 hnd).2.2 x h x (List.mem_cons_of_mem _ hx) rfl
    have hf := hr.kept x (List.mem_append_left _ hx)
    rwa [Clock.settle, if_neg hxa, if_pos (List.mem_cons_of_mem _ hx)] at hf

/-- Three keys in the main queue, hit twice, once and once. -/
def warm : List PolOp :=
  [.insert (lit "a"), .insert (lit "b"), .insert (lit "c"), .touch (lit "a"), .touch (lit "a"),
    .touch (lit "b"), .touch (lit "b"), .touch (lit "c"), .touch (lit "c"), .insert (lit "d"),
    .evictOne, .touch (lit "a"), .touch (lit "a"), .touch (lit "b"), .touch (lit "c")]

theorem main_victim_warm :
    ∃ l, Lts.run (stepBy remove) (Log.fresh (fun _ => 0) fun _ => 0) warm = some l ∧
    ∃ a v b, l.pol.tidy.main = a ++ v :: b ∧
      (∀ x ∈ a, l.pol.freqOf v < l.pol.freqOf x) ∧ (∀ x ∈ b, l.pol.freqOf v ≤ l.pol.freqOf x) ∧
      l.pol.evictOne.1 = some v ∧ l.pol.evictOne.2.tidy.main = b ++ a ∧
      (∀ x ∈ a, l.pol.evictOne.2.metas.get x =
        some ⟨l.pol.freqOf x - (l.pol.freqOf v + 1), .main⟩) ∧
      (∀ x ∈ b, l.pol.evictOne.2.metas.get x = some ⟨l.pol.freqOf x - l.pol.freqOf v, .main⟩) ∧
      l.pol.evictOne.2.metas.get v = none ∧
      (∀ x, x ∉ l.pol.tidy.main → l.pol.evictOne.2.metas.get x = l.pol.metas.get x) ∧
      l.pol.evictOne.2.tidy.small = l.pol.tidy.small ∧ l.pol.evictOne.2.ghost = l.pol.ghost ∧
      l.pol.evictOne.2.ghostSet = l.pol.ghostSet ∧ l.pol.evictOne.2.smallCount = l.pol.smallCount ∧
      l.pol.evictOne.2.mainCount = l.pol.mainCount - 1 := by
  have hrun : (Lts.run (stepBy remove) (Log.fresh (fun _ => 0) fun _ => 0) warm).isSome = true := by
    decide +kernel
  obtain ⟨l, hl⟩ := Option.isSome_iff_exists.1 hrun
  have hstate : ∀ l ∈ Lts.run (stepBy remove) (Log.fresh (fun _ => 0) fun _ => 0) warm,
      l.pol.refs.Nodup ∧ l.pol.useSmall = false := by decide +kernel
  exact ⟨l, hl, main_victim (run_policy_inv _ _ hl) (hstate l hl).1 (hstate l hl).2⟩

/-! ## The small queue -/

/-- The small queue has its share, and none of its keys is due for the main queue. -/
structure Calm (s : S3Fifo) : Prop where
  inv : s.Inv
  capped : s.FreqCapped
  share : s.len * SMALL_PCT ≤ s.smallCount * 100
  cold : ∀ k m, s.metas.get k = some m → m.loc = .small → m.freq ≤ PROMOTE_THRESHOLD

/-- What an eviction from the small queue leaves. -/
def evictedSmall (s : S3Fifo) (v : Bytes) (rest : List Bytes) : S3Fifo :=
  pushGhost { s with small := rest, metas := (s.metas.remove v).2,
                     smallCount := s.smallCount - 1 } v

theorem Calm.round_small (h : s.Calm) (hpos : 0 < s.smallCount) : s.round = s.stepSmall := by
  have hu : s.useSmall = true := by
    have := h.share
    rw [len] at this
    simp only [useSmall, Bool.or_eq_true, beq_iff_eq, Bool.and_eq_true, decide_eq_true_eq]
    exact .inr ⟨hpos, this⟩
  rw [S3Fifo.round, hu]
  rfl

theorem evictLoop_calm (f : Nat) :
    ∀ {s : S3Fifo} {r : Option Bytes × S3Fifo}, s.Calm → 0 < s.smallCount →
    evictLoop f s = some r →
      ∃ v m rest, s.metas.get v = some m ∧ m.loc = .small ∧
      r = (some v, s.evictedSmall v rest) := by
  induction f with
  | zero => intro s r _ _ e; cases e
  | succ f ih =>
    intro s r h hpos e
    have h0 : ¬ (s.smallCount = 0 ∧ s.mainCount = 0) := fun hz => by omega
    have hround := h.round_small hpos
    rcases s.stepSmall_cases with ⟨hs, -⟩ | ⟨k, rest, hs, hst, hstep⟩ |
      ⟨k, rest, m, hs, hm, hl, hf, -⟩ |
      ⟨k, rest, m, hs, hm, hl, hstep⟩
    · -- the queue of a positive counter is not empty
      have : s.smallCount = 0 := (h.inv.tallies .small).trans (held_of_drained h.inv hs)
      omega
    · rw [evictLoop_again h0 (hround.trans hstep)] at e
      have hinv : ({ s with small := rest } : S3Fifo).Inv := (hstep ▸ stepSmall_round h.inv).inv
      obtain ⟨v, m, rest', hm, hl, rfl⟩ :=
        ih (s := { s with small := rest }) ⟨hinv, h.capped, h.share, h.cold⟩ hpos e
      exact ⟨v, m, rest', hm, hl, rfl⟩
    · exact absurd (h.cold k m hm hl) (Nat.not_le.2 hf)
    · rw [evictLoop_victim h0 (hround.trans hstep)] at e
      cases e
      exact ⟨k, m, rest, hm, hl, rfl⟩

/-- The victim is a key of the small queue. -/
theorem calm_evict (h : s.Calm) (hpos : 0 < s.smallCount) :
    ∃ v m rest, s.metas.get v = some m ∧ m.loc = .small ∧
      s.evictOne = (some v, s.evictedSmall v rest) :=
  evictLoop_calm _ h hpos (evictLoop_evictOne s)

/-! ## Scans -/

/-- A key that is not cached comes in and another goes; or a cached one is hit. -/
inductive Visit
  | miss (k : Bytes)
  | hit (k : Bytes)

def visit (s : S3Fifo) : Visit → S3Fifo
  | .miss k => (s.insert k).evictOne.2
  | .hit k => s.touch k

/-- The key is tracked or remembered. -/
def Knows (s : S3Fifo) (k : Bytes) : Prop := s.Tracks k ∨ (s.ghostSet.get k).isSome = true

/-- The policy `s'`, some visits after `s`, of which `seen` were misses. -/
structure Scanned (s s' : S3Fifo) (seen : List Bytes) : Prop where
  calm : s'.Calm
  main : s'.main = s.main
  smallCount : s'.smallCount = s.smallCount
  keys : ∀ k m, s.metas.get k = some m → m.loc = .main →
    ∃ m', s'.metas.get k = some m' ∧ m'.loc = .main ∧ m.freq ≤ m'.freq
  knows : ∀ k, s'.Knows k → s.Knows k ∨ k ∈ seen

theorem Scanned.refl (h : s.Calm) : Scanned s s [] :=
  ⟨h, rfl, rfl, fun _ m hm hl => ⟨m, hm, hl, le_rfl⟩, fun _ hk => .inl hk⟩

theorem Scanned.trans {s₁ s₂ s₃ : S3Fifo} {seen seen' : List Bytes} (h : Scanned s₁ s₂ seen)
    (h' : Scanned s₂ s₃ seen') : Scanned s₁ s₃ (seen ++ seen') where
  calm := h'.calm
  main := h'.main.trans h.main
  smallCount := h'.smallCount.trans h.smallCount
  keys k m hm hl := by
    obtain ⟨m₂, hm₂, hl₂, hf₂⟩ := h.keys k m hm hl
    obtain ⟨m₃, hm₃, hl₃, hf₃⟩ := h'.keys k m₂ hm₂ hl₂
    exact ⟨m₃, hm₃, hl₃, hf₂.trans hf₃⟩
  knows k hk := by
    rcases h'.knows k hk with hk | hk
    · exact (h.knows k hk).imp_right (List.mem_append_left _)
    · exact .inr (List.mem_append_right _ hk)

/-- A hit on a key of the main queue. -/
theorem hit_scanned (h : s.Calm) {m : Meta} (hm : s.metas.get k = some m) (hl : m.loc = .main) :
    Scanned s (s.touch k) [] := by
  have hget : ∀ x, (s.touch k).metas.get x =
      if x = k then some { m with freq := min (m.freq + 1) FREQ_MAX } else s.metas.get x := by
    intro x
    rw [touch, FlatMap.get_getMut]
    split
    · rename_i hx; rw [hx, hm, Option.map_some]
    · rfl
  refine ⟨⟨touch_inv h.inv, touch_freqCapped h.capped, h.share, fun x m' hx hl' => ?_⟩, rfl, rfl,
    fun x m' hx hl' => ?_, fun x hx => ?_⟩
  · rw [hget] at hx
    split at hx
    · cases hx
      cases hl.symm.trans hl'
    · exact h.cold x m' hx hl'
  · rw [hget]
    by_cases hxk : x = k
    · subst hxk
      cases hm.symm.trans hx
      have := h.capped x m hm
      exact ⟨_, if_pos rfl, hl, le_min (Nat.le_succ _) this⟩
    · exact ⟨m', (if_neg hxk).trans hx, hl', le_rfl⟩
  · exact .inl (hx.imp_left (touch_tracks x).1)

/-- A key that is neither tracked nor remembered goes to the small queue. -/
theorem insert_unknown (hk : ¬ s.Knows k) :
    s.insert k =
    { s with ghostSet := (s.ghostSet.remove k).2, metas := s.metas.insert k ⟨0, .small⟩,
             small := s.small ++ [k],
             smallCount := s.smallCount + 1 } := by
  have hghost : s.ghostSet.get k = none := by
    rw [← Option.not_isSome_iff_eq_none]
    exact fun h => hk (.inr h)
  simp [insert, hghost]

theorem insert_calm (h : s.Calm) (hk : ¬ s.Knows k) : (s.insert k).Calm := by
  have hnone : s.metas.get k = none := by
    rw [← Option.not_isSome_iff_eq_none]
    exact fun h => hk (.inl h)
  refine ⟨insert_inv h.inv hnone, insert_freqCapped h.capped, ?_, fun x m hx hl => ?_⟩
  · have := h.share
    rw [insert_unknown hk]
    simp only [len, SMALL_PCT] at this ⊢
    omega
  · rw [insert_unknown hk, FlatMap.get_insert] at hx
    split at hx
    · cases hx; exact Nat.zero_le _
    · exact h.cold x m hx hl

/-- An eviction from the small queue keeps the policy calm, if the share is left. -/
theorem evictedSmall_knows {v : Bytes} {rest : List Bytes} (hv : s.Tracks v) {x : Bytes}
    (h : (s.evictedSmall v rest).Knows x) : s.Knows x := by
  rcases h with h | h
  · exact .inl (get_removed x |>.1 h).2
  · by_contra hx
    rw [Knows, not_or, Option.not_isSome_iff_eq_none] at hx
    have hne : x ≠ v := by
      rintro rfl
      exact hx.1 hv
    have hnone : (s.evictedSmall v rest).ghostSet.get x = none :=
      trimGhost_none _ _ _ (by rw [FlatMap.get_insert, if_neg hne]; exact hx.2)
    rw [hnone] at h
    cases h

/-- A miss takes a key of the small queue, or the new one. -/
theorem miss_scanned (h : s.Calm) (hk : ¬ s.Knows k) : Scanned s (s.insert k).evictOne.2 [k] := by
  have ht := insert_calm h hk
  have hins := insert_unknown hk
  obtain ⟨v, m, rest, hm, hl, he⟩ := calm_evict ht (by rw [hins]; exact Nat.succ_pos _)
  have hinv := (evictOne_round ht.inv).1.inv
  have hcapped := evictOne_freqCapped ht.capped
  rw [he] at hinv hcapped ⊢
  have hget : ∀ x, ((s.insert k).evictedSmall v rest).metas.get x =
      if x = v then none else if x = k then some ⟨0, .small⟩ else s.metas.get x := by
    intro x
    show ((s.insert k).metas.remove v).2.get x = _
    rw [FlatMap.get_remove, hins, FlatMap.get_insert]
  refine ⟨⟨hinv, hcapped, ?_, fun x m' hx hl' => ?_⟩, ?_, ?_, fun x m' hx hl' => ?_, fun x hx => ?_⟩
  · -- one in, one out
    have hshare := h.share
    have hc : ((s.insert k).evictedSmall v rest).smallCount = s.smallCount := by
      show (s.insert k).smallCount - 1 = _
      rw [hins]; rfl
    have hlen : ((s.insert k).evictedSmall v rest).len = s.len := by
      show (s.insert k).smallCount - 1 + (s.insert k).mainCount = _
      rw [hins]; rfl
    rwa [hc, hlen]
  · rw [hget] at hx
    split at hx
    · cases hx
    · split at hx
      · cases hx; exact Nat.zero_le _
      · exact h.cold x m' hx hl'
  · show (s.insert k).main = _
    rw [hins]
  · show (s.insert k).smallCount - 1 = _
    rw [hins]; rfl
  · have hxk : x ≠ k := by
      rintro rfl
      exact hk (.inl (Option.isSome_of_eq_some hx))
    have hxv : x ≠ v := by
      rintro rfl
      rw [hins, FlatMap.get_insert, if_neg hxk, hx] at hm
      cases hm
      cases hl.symm.trans hl'
    exact ⟨m', by rw [hget, if_neg hxv, if_neg hxk, hx], hl', le_rfl⟩
  · rcases evictedSmall_knows (Option.isSome_of_eq_some hm) hx with hx | hx
    · exact ((insert_tracks x).1 hx).symm.imp .inl List.mem_singleton.2
    · rw [hins, FlatMap.get_remove] at hx
      split at hx
      · cases hx
      · exact .inl (.inr hx)

/-- The keys that come in. -/
def misses (vs : List Visit) : List Bytes :=
  vs.filterMap fun
    | .miss k => some k
    | .hit _ => none

theorem scan_run (vs : List Visit) :
    ∀ {s' : S3Fifo} {seen : List Bytes}, Scanned s s' seen → (misses vs).Nodup →
    (∀ k ∈ misses vs, ¬ s.Knows k ∧ k ∉ seen) →
      (∀ k, Visit.hit k ∈ vs → ∃ m, s.metas.get k = some m ∧ m.loc = .main) →
      Scanned s (vs.foldl visit s') (seen ++ misses vs) := by
  induction vs with
  | nil =>
    intro s' seen h _ _ _
    rwa [misses, List.filterMap_nil, List.append_nil]
  | cons v vs ih =>
    intro s' seen h hnd hmiss hhit
    have hhit' : ∀ k, Visit.hit k ∈ vs → ∃ m, s.metas.get k = some m ∧ m.loc = .main :=
      fun k hk => hhit k (List.mem_cons_of_mem _ hk)
    cases v with
    | hit k =>
      obtain ⟨m, hm, hl⟩ := hhit k List.mem_cons_self
      obtain ⟨m', hm', hl', -⟩ := h.keys k m hm hl
      have hnext := h.trans (hit_scanned h.calm hm' hl')
      rw [List.append_nil] at hnext
      exact ih hnext hnd hmiss hhit'
    | miss k =>
      have hcons : misses (.miss k :: vs) = k :: misses vs := rfl
      rw [hcons] at hnd hmiss ⊢
      obtain ⟨hfresh, hnd⟩ := List.nodup_cons.1 hnd
      obtain ⟨hk, hseen⟩ := hmiss k List.mem_cons_self
      have hnext := h.trans (miss_scanned h.calm fun hs => (h.knows k hs).elim hk hseen)
      rw [List.append_cons]
      refine ih hnext hnd (fun x hx => ?_) hhit'
      obtain ⟨hx1, hx2⟩ := hmiss x (List.mem_cons_of_mem _ hx)
      refine ⟨hx1, fun hmem => (List.mem_append.1 hmem).elim hx2 fun hxk => ?_⟩
      rw [List.mem_singleton.1 hxk] at hx
      exact hfresh hx

theorem stepBy_freqCapped {l l' : Log} {op : PolOp} (h : l.pol.FreqCapped)
    (hs : stepBy remove l op = some l') : l'.pol.FreqCapped := by
  cases op with
  | insert key =>
    simp only [stepBy] at hs
    split at hs
    · cases hs; exact insert_freqCapped h
    · cases hs
  | touch key => cases hs; exact touch_freqCapped h
  | remove key => cases hs; exact remove_freqCapped h
  | evictOne => cases hs; exact evictOne_freqCapped h

/-- **Scan resistance.** In a state that some run leads to, the small queue has its share and
holds no key that has been hit twice. Then any number of visits, each a miss of a key that is
neither tracked nor remembered, which comes in and makes another go, or a hit on a key of the
main queue: the main queue stays as it is, every key of it is still tracked there and counts no
less, and the small queue has as many keys as before. -/
theorem scan_resistant (metaHasher ghostHasher : Bytes → UInt64) (ops : List PolOp) {l : Log}
    (hrun : Lts.run (stepBy remove) (Log.fresh metaHasher ghostHasher) ops = some l)
    (hshare : l.pol.len * SMALL_PCT ≤ l.pol.smallCount * 100)
    (hcold : ∀ k m, l.pol.metas.get k = some m → m.loc = .small → m.freq ≤ PROMOTE_THRESHOLD)
    (vs : List Visit) (hnd : (misses vs).Nodup) (hmiss : ∀ k ∈ misses vs, ¬ l.pol.Knows k)
    (hhit : ∀ k, Visit.hit k ∈ vs → ∃ m, l.pol.metas.get k = some m ∧ m.loc = .main) :
    (vs.foldl visit l.pol).main = l.pol.main ∧
      (vs.foldl visit l.pol).smallCount = l.pol.smallCount ∧
      ∀ k m, l.pol.metas.get k = some m → m.loc = .main →
        ∃ m', (vs.foldl visit l.pol).metas.get k = some m' ∧ m'.loc = .main ∧ m.freq ≤ m'.freq := by
  have hcapped :=
    Lts.run_keeps (I := fun l : Log => l.pol.FreqCapped)
      (fun _ _ _ hi hs => stepBy_freqCapped hi hs)
    (new_freqCapped metaHasher ghostHasher) hrun
  have hcalm : l.pol.Calm := ⟨run_policy_inv _ _ hrun, hcapped, hshare, hcold⟩
  have hscan := scan_run vs (.refl hcalm) hnd (fun k hk => ⟨hmiss k hk, List.not_mem_nil⟩) hhit
  exact ⟨hscan.main, hscan.smallCount, hscan.keys⟩

/-- Three keys come in next to a warm main queue. -/
def coldVisits : List Visit := [.miss (lit "x"), .hit (lit "a"), .miss (lit "y"), .miss (lit "z")]

theorem scan_resistant_warm :
    ∃ l, Lts.run (stepBy remove) (Log.fresh (fun _ => 0) fun _ => 0) (warm ++ [.insert (lit "e")]) =
      some l ∧
      (coldVisits.foldl visit l.pol).main = l.pol.main ∧ l.pol.main.length = 3 ∧
      (coldVisits.foldl visit l.pol).smallCount = l.pol.smallCount ∧
      ∀ k m, l.pol.metas.get k = some m → m.loc = .main →
        ∃ m', (coldVisits.foldl visit l.pol).metas.get k = some m' ∧ m'.loc = .main ∧
        m.freq ≤ m'.freq := by
  have hrun :
      (Lts.run (stepBy remove) (Log.fresh (fun _ => 0) fun _ => 0)
        (warm ++ [.insert (lit "e")])).isSome = true := by
    decide +kernel
  obtain ⟨l, hl⟩ := Option.isSome_iff_exists.1 hrun
  have hstate : ∀ l ∈ Lts.run (stepBy remove) (Log.fresh (fun _ => 0) fun _ => 0)
      (warm ++ [.insert (lit "e")]),
      l.pol.len * SMALL_PCT ≤ l.pol.smallCount * 100 ∧ l.pol.main.length = 3 ∧
      (∀ k ∈ misses coldVisits, l.pol.metas.get k = none ∧ l.pol.ghostSet.get k = none) ∧
      l.pol.small = [lit "e"] ∧ l.pol.metas.get (lit "e") = some ⟨0, .small⟩ ∧
      l.pol.metas.get (lit "a") = some ⟨2, .main⟩ := by decide +kernel
  obtain ⟨hshare, hlen, hfresh, hsmall, he, ha⟩ := hstate l hl
  have hinv := run_policy_inv _ _ hl
  have hcold : ∀ k m, l.pol.metas.get k = some m → m.loc = .small → m.freq ≤ PROMOTE_THRESHOLD := by
    intro k m hm hl'
    have hk := hinv.refs k m hm
    rw [hl', queue, hsmall, List.mem_singleton] at hk
    rw [hk, he] at hm
    cases hm
    exact Nat.zero_le _
  obtain ⟨h1, h2, h3⟩ := scan_resistant _ _ _ hl hshare hcold coldVisits (by decide)
    (fun k hk => by rw [Knows, Tracks, (hfresh k hk).1, (hfresh k hk).2]; simp)
    (fun k hk => by
      have hk : k = lit "a" := by simpa [coldVisits] using hk
      exact ⟨_, hk ▸ ha, rfl⟩)
  exact ⟨l, hl, h1, hlen, h2, h3⟩

end Inmem.L2.S3Fifo
