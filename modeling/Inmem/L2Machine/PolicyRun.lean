import Inmem.Core.Lts
import Inmem.L2Machine.PolicyInv

/-!
# Runs of the eviction policy

`PolOp` are the operations of the policy and `stepBy` is one of them, with the
way a key is removed as a parameter: `stepBy remove` is the policy of the source,
which may only be told of keys it does not track yet.

* `round_inv`, `chosen_ne_nil`: a round keeps the invariant and finds its queue non-empty;
* `evictOne_keeps`, `rounds_keep`: what a round keeps, an eviction keeps;
* `evictOne_refs`: an eviction moves or drops references, it never adds one;
* `FreqCapped`: no operation takes a frequency above the cap;
* `evictOne_correct`: in every state that a run leads to, `evict_one` ends, takes out
  exactly one tracked key or finds none, and never pops from an empty queue.
-/
namespace Inmem.L2.S3Fifo

open Inmem.L1 Inmem.Core
open Inmem.L2 (FlatMap)

/-! ## Operations -/

inductive PolOp
  | insert (key : Bytes)
  | touch (key : Bytes)
  | remove (key : Bytes)
  | evictOne
  deriving DecidableEq, Repr

/-- A policy at work: its state and what its evictions have returned. -/
structure Log where
  pol : S3Fifo
  victims : List (Option Bytes)

/-- One operation, `remove` done by `drop`. A key is inserted only when it is not tracked. -/
def stepBy (drop : S3Fifo → Bytes → S3Fifo) (l : Log) : PolOp → Option Log
  | .insert key =>
    if l.pol.metas.get key = none then some { l with pol := l.pol.insert key } else none
  | .touch key => some { l with pol := l.pol.touch key }
  | .remove key => some { l with pol := drop l.pol key }
  | .evictOne => some { pol := l.pol.evictOne.2, victims := l.victims ++ [l.pol.evictOne.1] }

/-- A policy that has not been used. -/
def Log.fresh (metaHasher ghostHasher : Bytes → UInt64) : Log := ⟨new metaHasher ghostHasher, []⟩

variable {s s' : S3Fifo} {k : Bytes}

theorem stepBy_inv {l l' : Log} {op : PolOp} (h : l.pol.Inv) (hs : stepBy remove l op = some l') :
    l'.pol.Inv := by
  cases op with
  | insert key =>
    simp only [stepBy] at hs
    split at hs
    · rename_i hk; cases hs; exact insert_inv h hk
    · cases hs
  | touch key => cases hs; exact touch_inv h
  | remove key => cases hs; exact remove_inv h
  | evictOne => cases hs; exact (evictOne_round h).1.inv

theorem run_policy_inv (metaHasher ghostHasher : Bytes → UInt64) {ops : List PolOp} {l : Log}
    (h : Lts.run (stepBy remove) (.fresh metaHasher ghostHasher) ops = some l) : l.pol.Inv :=
  Lts.run_keeps (I := fun l : Log => l.pol.Inv) (fun _ _ _ hi hs => stepBy_inv hi hs)
    (new_inv metaHasher ghostHasher) h

/-! ## Rounds of the eviction loop -/

/-- The queue that the next round takes from. -/
def chosen (s : S3Fifo) : Loc := if s.useSmall then .small else .main

/-- One round of the loop. -/
def round (s : S3Fifo) : Option Bytes × S3Fifo := if s.useSmall then s.stepSmall else s.stepMain

/-- The states in which the loop starts a round. -/
def rounds : Nat → S3Fifo → List S3Fifo
  | 0, _ => []
  | f + 1, s =>
    if s.smallCount = 0 ∧ s.mainCount = 0 then []
    else s :: match s.round.1 with
      | some _ => []
      | none => rounds f s.round.2

theorem evictLoop_succ (f : Nat) (s : S3Fifo) : evictLoop (f + 1) s =
    if s.smallCount = 0 ∧ s.mainCount = 0 then some (none, s)
    else match s.round.1 with
      | some victim => some (some victim, s.round.2)
      | none => evictLoop f s.round.2 := rfl

theorem round_inv (h : s.Inv) : Round s s.round := by
  unfold round
  split
  · exact stepSmall_round h
  · exact stepMain_round h

/-- While a key is tracked, the chosen queue's counter is not zero. -/
theorem chosen_tally (h : ¬ (s.smallCount = 0 ∧ s.mainCount = 0)) : 0 < s.tally s.chosen := by
  unfold chosen
  by_cases hu : s.useSmall = true
  · rw [if_pos hu]
    simp only [useSmall, Bool.or_eq_true, beq_iff_eq, Bool.and_eq_true, decide_eq_true_eq] at hu
    show 0 < s.smallCount
    omega
  · rw [if_neg hu]
    simp only [useSmall, Bool.or_eq_true, beq_iff_eq, not_or] at hu
    show 0 < s.mainCount
    omega

/-- A round never pops from an empty queue. -/
theorem chosen_ne_nil (h : s.Inv) (hne : ¬ (s.smallCount = 0 ∧ s.mainCount = 0)) :
    s.queue s.chosen ≠ [] := by
  intro hq
  have hpos := chosen_tally hne
  rw [h.tallies, held_of_drained h hq] at hpos
  omega

/-- What a round keeps, the loop keeps. -/
theorem evictLoop_keeps {I : S3Fifo → Prop} (hround : ∀ s, I s → I s.round.2) (f : Nat) :
    ∀ (s : S3Fifo) (r : Option Bytes × S3Fifo), I s → evictLoop f s = some r → I r.2 := by
  induction f with
  | zero => intro s r _ e; cases e
  | succ f ih =>
    intro s r h e
    rw [evictLoop_succ] at e
    split at e
    · cases e; exact h
    · split at e
      · cases e; exact hround s h
      · exact ih _ r (hround s h) e

/-- The loop of `evict_one` returns, with enough rounds. -/
theorem evictLoop_evictOne (s : S3Fifo) : evictLoop (s.effort + 1) s = some s.evictOne :=
  (Option.some_get _).symm

theorem evictOne_keeps {I : S3Fifo → Prop} (hround : ∀ s, I s → I s.round.2) (h : I s) :
    I s.evictOne.2 :=
  evictLoop_keeps hround _ s _ h (evictLoop_evictOne s)

/-- What a round keeps holds at the start of every round, and each starts with a tracked key. -/
theorem rounds_keep {I : S3Fifo → Prop} (hround : ∀ s, I s → I s.round.2) (f : Nat) :
    ∀ s : S3Fifo, I s →
    ∀ t ∈ rounds f s, I t ∧ ¬ (t.smallCount = 0 ∧ t.mainCount = 0) := by
  induction f with
  | zero => intro s _ t ht; cases ht
  | succ f ih =>
    intro s h t ht
    unfold rounds at ht
    split at ht
    · cases ht
    · rename_i hne
      rcases List.mem_cons.1 ht with rfl | ht
      · exact ⟨h, hne⟩
      · split at ht
        · cases ht
        · exact ih _ (hround s h) t ht

/-! ## References -/

/-- The references in the two queues, stale ones included. -/
def refs (s : S3Fifo) : List Bytes := s.small ++ s.main

theorem insert_refs : (s.insert k).refs.Perm (k :: s.refs) := by
  unfold insert refs
  dsimp only
  split
  · rw [← List.append_assoc]
    exact List.perm_append_singleton _ _
  · exact (List.append_assoc ..).symm ▸ List.perm_middle

theorem remove_refs : (s.remove k).refs = s.refs := by
  unfold remove refs
  dsimp only
  split <;> rfl

theorem stepSmall_refs : s.stepSmall.2.refs.Subperm s.refs := by
  rcases s.stepSmall_cases with ⟨-, e⟩ | ⟨k, rest, hs, -, e⟩ | ⟨k, rest, m, hs, -, -, -, e⟩ |
    ⟨k, rest, m, hs, -, -, e⟩
  all_goals rw [e]
  · exact List.Subperm.refl _
  · rw [refs, refs, hs]; exact (List.sublist_cons_self ..).subperm
  · rw [refs, refs, hs]
    dsimp only
    rw [← List.append_assoc]
    exact (List.perm_append_singleton _ _).subperm
  · show (rest ++ s.main).Subperm s.refs
    rw [refs, hs]
    exact (List.sublist_cons_self ..).subperm

theorem stepMain_refs : s.stepMain.2.refs.Subperm s.refs := by
  rcases s.stepMain_cases with ⟨-, e⟩ | ⟨k, rest, hs, -, e⟩ | ⟨k, rest, m, hs, -, -, -, e⟩ |
    ⟨k, rest, m, hs, -, -, e⟩
  all_goals rw [e]
  · exact List.Subperm.refl _
  · rw [refs, refs, hs]
    exact (List.Sublist.append_left (List.sublist_cons_self ..) _).subperm
  · rw [refs, refs, hs]
    exact ((List.perm_append_singleton k rest).append_left _).subperm
  · rw [refs, refs, hs]
    exact (List.Sublist.append_left (List.sublist_cons_self ..) _).subperm

theorem round_refs : s.round.2.refs.Subperm s.refs := by
  unfold round
  split
  · exact stepSmall_refs
  · exact stepMain_refs

/-- An eviction moves or drops references. -/
theorem evictOne_refs : s.evictOne.2.refs.Subperm s.refs :=
  evictOne_keeps (I := fun t => t.refs.Subperm s.refs) (fun _ h => round_refs.trans h)
    (List.Subperm.refl _)

/-! ## Frequencies -/

/-- No frequency is above the cap. -/
def FreqCapped (s : S3Fifo) : Prop := ∀ k m, s.metas.get k = some m → m.freq ≤ FREQ_MAX

theorem new_freqCapped (metaHasher ghostHasher : Bytes → UInt64) :
    (new metaHasher ghostHasher).FreqCapped := by
  intro k m hm
  simp [new] at hm

/-- One key has a new entry within the cap, or one that is as before. -/
theorem FreqCapped.at (h : s.FreqCapped) {g : Bytes → Option Meta}
    (hother : ∀ k', k' ≠ k → g k' = s.metas.get k') (hself : ∀ m, g k = some m → m.freq ≤ FREQ_MAX)
    (hs : ∀ k', s'.metas.get k' = g k') : s'.FreqCapped := by
  intro k' m hm
  rw [hs] at hm
  by_cases hk : k' = k
  · exact hself m (hk ▸ hm)
  · exact h k' m (hother k' hk ▸ hm)

theorem FreqCapped.remove (h : s.FreqCapped) (hs : s'.metas = (s.metas.remove k).2) :
    s'.FreqCapped := by
  refine h.at (k := k) (fun k' hk => ?_) (fun m hm => ?_) (fun k' => by rw [hs])
  · rw [FlatMap.get_remove, if_neg hk]
  · simp at hm

theorem FreqCapped.getMut (h : s.FreqCapped) {f : Meta → Meta}
    (hf : ∀ m, m.freq ≤ FREQ_MAX → (f m).freq ≤ FREQ_MAX) (hs : s'.metas = s.metas.getMut k f) :
    s'.FreqCapped := by
  refine h.at (k := k) (fun k' hk => ?_) (fun m hm => ?_) (fun k' => by rw [hs])
  · rw [FlatMap.get_getMut, if_neg hk]
  · rw [FlatMap.get_getMut, if_pos rfl] at hm
    obtain ⟨m₀, hm₀, rfl⟩ := Option.map_eq_some_iff.1 hm
    exact hf m₀ (h k m₀ hm₀)

theorem insert_metas : ∃ l, (s.insert k).metas = s.metas.insert k ⟨0, l⟩ := by
  unfold insert
  dsimp only
  split
  · exact ⟨.main, rfl⟩
  · exact ⟨.small, rfl⟩

theorem insert_freqCapped (h : s.FreqCapped) : (s.insert k).FreqCapped := by
  obtain ⟨l, hl⟩ := insert_metas (s := s) (k := k)
  refine h.at (k := k) (fun k' hk => ?_) (fun m hm => ?_) (fun k' => by rw [hl])
  · rw [FlatMap.get_insert, if_neg hk]
  · rw [FlatMap.get_insert, if_pos rfl] at hm
    cases hm
    exact Nat.zero_le _

theorem touch_freqCapped (h : s.FreqCapped) : (s.touch k).FreqCapped :=
  h.getMut (fun _ _ => Nat.min_le_right _ _) rfl

theorem remove_metas : (s.remove k).metas = (s.metas.remove k).2 := by
  unfold remove; dsimp only; split <;> rfl

theorem remove_ghost : (s.remove k).ghost = s.ghost ∧ (s.remove k).ghostSet = s.ghostSet := by
  unfold remove; dsimp only; split <;> exact ⟨rfl, rfl⟩

theorem remove_freqCapped (h : s.FreqCapped) : (s.remove k).FreqCapped := h.remove remove_metas

theorem stepSmall_freqCapped (h : s.FreqCapped) : s.stepSmall.2.FreqCapped := by
  rcases s.stepSmall_cases with ⟨-, e⟩ | ⟨k, rest, -, -, e⟩ | ⟨k, rest, m, -, -, -, -, e⟩ |
    ⟨k, rest, m, -, -, -, e⟩
  all_goals rw [e]
  · exact h
  · exact h
  · exact h.getMut (fun _ _ => Nat.zero_le _) rfl
  · exact h.remove (k := k) rfl

theorem stepMain_freqCapped (h : s.FreqCapped) : s.stepMain.2.FreqCapped := by
  rcases s.stepMain_cases with ⟨-, e⟩ | ⟨k, rest, -, -, e⟩ | ⟨k, rest, m, -, -, -, -, e⟩ |
    ⟨k, rest, m, -, -, -, e⟩
  all_goals rw [e]
  · exact h
  · exact h
  · exact h.getMut (fun m hm => (Nat.sub_le m.freq 1).trans hm) rfl
  · exact h.remove (k := k) rfl

theorem round_freqCapped (h : s.FreqCapped) : s.round.2.FreqCapped := by
  unfold round
  split
  · exact stepSmall_freqCapped h
  · exact stepMain_freqCapped h

theorem evictOne_freqCapped (h : s.FreqCapped) : s.evictOne.2.FreqCapped :=
  evictOne_keeps (fun _ => round_freqCapped) h

/-! ## Correctness -/

theorem evictOne_len (h : s.Inv) {v : Bytes} (hv : s.evictOne.1 = some v) :
    s.evictOne.2.len + 1 = s.len := by
  obtain ⟨ht, hi, htracks⟩ := evictOne_some h hv
  obtain ⟨m, hm⟩ := Option.isSome_iff_exists.1 ht
  have hlen : s.evictOne.2.metas.len = (s.metas.remove v).2.len :=
    FlatMap.len_congr _ _ fun k => Bool.eq_iff_iff.2 ((htracks k).trans (get_removed k).symm)
  rw [len_eq hi, len_eq h, hlen, FlatMap.len_eq_weight, FlatMap.len_eq_weight]
  exact FlatMap.weight_remove hm _

/-- **Eviction.** In every state that insertions of untracked keys, touches, removals
and evictions lead to: `evict_one` ends; it returns nothing exactly when no key is
tracked; otherwise it returns a tracked key, which is then the only one no longer
tracked, and the length drops by one; and none of its rounds finds the queue it
takes from empty. -/
theorem evictOne_correct (metaHasher ghostHasher : Bytes → UInt64) (ops : List PolOp) {l : Log}
    (h : Lts.run (stepBy remove) (.fresh metaHasher ghostHasher) ops = some l) :
    let s := l.pol
    evictLoop (s.effort + 1) s = some s.evictOne ∧ (s.evictOne.1 = none ↔ s.len = 0) ∧
      (∀ v, s.evictOne.1 = some v →
        s.Tracks v ∧ (∀ k, s.evictOne.2.Tracks k ↔ k ≠ v ∧ s.Tracks k) ∧
        s.evictOne.2.len + 1 = s.len) ∧
      ∀ t ∈ rounds (s.effort + 1) s, t.queue t.chosen ≠ [] := by
  intro s
  have hi : s.Inv := run_policy_inv metaHasher ghostHasher h
  refine ⟨evictLoop_evictOne s, ⟨fun hn => ?_, fun h0 => ?_⟩, fun v hv => ?_, fun t ht => ?_⟩
  · rw [len_eq hi, FlatMap.len_eq_weight]
    exact FlatMap.weight_empty (fun k => by simpa [Tracks] using evictOne_none hi hn k) _
  · have hz : s.smallCount = 0 ∧ s.mainCount = 0 := by simp only [len] at h0; omega
    have he := evictLoop_evictOne s
    rw [evictLoop_succ, if_pos hz] at he
    rw [← Option.some.inj he]
  · obtain ⟨h1, -, h3⟩ := evictOne_some hi hv
    exact ⟨h1, h3, evictOne_len hi hv⟩
  · obtain ⟨hti, hne⟩ := rounds_keep (I := Inv) (fun _ h => (round_inv h).inv) _ s hi t ht
    exact chosen_ne_nil hti hne

/-- Three keys, one of them removed and one touched twice. -/
def threeKeys : S3Fifo :=
  (((((new (fun _ => 0) fun _ => 0).insert (lit "a")).insert (lit "b")).insert (lit "c")).remove
    (lit "a")).touch (lit "b")
    |>.touch (lit "b")

/-- The touched key is promoted and the third is the victim. -/
theorem evictOne_correct_three :
    threeKeys.evictOne.1 = some (lit "c") ∧ threeKeys.Tracks (lit "c") ∧
    threeKeys.evictOne.2.len + 1 = threeKeys.len := by
  have hv : threeKeys.evictOne.1 = some (lit "c") := by decide +kernel
  obtain ⟨-, -, h, -⟩ :=
    evictOne_correct (l := ⟨threeKeys, []⟩) (fun _ => 0) (fun _ => 0)
      [.insert (lit "a"), .insert (lit "b"), .insert (lit "c"), .remove (lit "a"), .touch (lit "b"),
        .touch (lit "b")] rfl
  exact ⟨hv, (h _ hv).1, (h _ hv).2.2⟩

end Inmem.L2.S3Fifo
