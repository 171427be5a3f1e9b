import Inmem.L2Machine.S3Fifo

/-!
# The eviction policy keeps track

`S3Fifo.Inv` is the policy's invariant: the two counters are the numbers of
tracked keys in each queue, every tracked key has a reference in the queue it
belongs to (there may be stale references besides), and no tracked key is
remembered as a ghost.

* `insert_inv`, `touch_inv`, `remove_inv`: the operations keep it, and track
  one key more, the same keys, or one less;
* `evictOne_some`, `evictOne_none`: eviction returns a tracked key, which is then
  the only one no longer tracked, or there was none.
-/
namespace Inmem.L2.S3Fifo

open Inmem.L1
open Inmem.L2 (FlatMap)

/-- The queue of a location. -/
def queue (s : S3Fifo) : Loc → List Bytes
  | .small => s.small
  | .main => s.main

/-- The counter of a location. -/
def tally (s : S3Fifo) : Loc → Nat
  | .small => s.smallCount
  | .main => s.mainCount

/-- The policy tracks a key. -/
def Tracks (s : S3Fifo) (k : Bytes) : Prop := (s.metas.get k).isSome = true

/-- The number of tracked keys at a location. -/
def held (s : S3Fifo) (l : Loc) : Nat := s.metas.count fun m => m.loc == l

structure Inv (s : S3Fifo) : Prop where
  refs : ∀ k m, s.metas.get k = some m → k ∈ s.queue m.loc
  tallies : ∀ l, s.tally l = s.held l
  ghosts : ∀ k, s.Tracks k → s.ghostSet.get k = none

variable {s s' : S3Fifo} {k : Bytes}

theorem new_inv (metaHasher ghostHasher : Bytes → UInt64) : (new metaHasher ghostHasher).Inv where
  refs k m h := by simp [new] at h
  tallies l := by cases l <;> simp [new, tally, held, FlatMap.count]
  ghosts k h := by simp [new, Tracks] at h

/-- The length the policy reports is the number of tracked keys. -/
theorem len_eq (h : s.Inv) : s.len = s.metas.len := by
  have h1 : s.smallCount = s.held .small := h.tallies .small
  have h2 : s.mainCount = s.held .main := h.tallies .main
  have e : (fun m : Meta => m.loc == Loc.main) = fun m => !(m.loc == Loc.small) := by
    funext m; cases m.loc <;> rfl
  rw [len, h1, h2, held, held, e, FlatMap.count_split]

theorem held_pos {l : Loc} (h : 0 < s.held l) : ∃ k m, s.metas.get k = some m ∧ m.loc = l := by
  obtain ⟨k, m, hm, hl⟩ := FlatMap.count_pos h
  exact ⟨k, m, hm, by simpa using hl⟩

/-- A location whose queue is empty holds no key. -/
theorem held_of_drained (h : s.Inv) {l : Loc} (hq : s.queue l = []) : s.held l = 0 := by
  by_contra hne
  obtain ⟨k, m, hm, rfl⟩ := held_pos (Nat.pos_of_ne_zero hne)
  have := h.refs k m hm
  rw [hq] at this; cases this

/-! ## Insert, touch, remove -/

theorem insert_tracks (k' : Bytes) : (s.insert k).Tracks k' ↔ k' = k ∨ s.Tracks k' := by
  unfold insert
  dsimp only
  split <;> by_cases hk : k' = k <;> simp [Tracks, hk]

/-- Start to track `k` at `l`, with its reference, its count and no ghost. -/
theorem Inv.track (h : s.Inv) (hk : s.metas.get k = none) (l : Loc)
    (hmetas : s'.metas = s.metas.insert k ⟨0, l⟩)
    (hqueue : ∀ l', s'.queue l' = if l' = l then s.queue l' ++ [k] else s.queue l')
    (htally : ∀ l', s'.tally l' = if l' = l then s.tally l' + 1 else s.tally l')
    (hghost : ∀ k', s'.ghostSet.get k' = if k' = k then none else s.ghostSet.get k') : s'.Inv where
  refs k' m hm := by
    rw [hmetas, FlatMap.get_insert] at hm
    rw [hqueue]
    by_cases hkk : k' = k
    · rw [if_pos hkk] at hm; cases hm; simp [hkk]
    · rw [if_neg hkk] at hm
      have := h.refs k' m hm
      split
      · exact List.mem_append_left _ this
      · exact this
  tallies l' := by
    rw [htally, held, hmetas, FlatMap.count_insert hk, h.tallies, held]
    cases l <;> cases l' <;> simp
  ghosts k' ht := by
    rw [hghost]
    by_cases hkk : k' = k
    · rw [if_pos hkk]
    · rw [if_neg hkk]
      apply h.ghosts
      rwa [Tracks, hmetas, FlatMap.get_insert, if_neg hkk] at ht

theorem insert_inv (h : s.Inv) (hk : s.metas.get k = none) : (s.insert k).Inv := by
  unfold insert
  dsimp only
  split
  · exact h.track hk .main rfl (fun l => by cases l <;> rfl)
      (fun l => by cases l <;> rfl) fun k' => by simp
  · exact h.track hk .small rfl (fun l => by cases l <;> rfl)
      (fun l => by cases l <;> rfl) fun k' => by simp

theorem touch_tracks (k' : Bytes) : (s.touch k).Tracks k' ↔ s.Tracks k' := by
  simp only [Tracks, touch, FlatMap.get_getMut]
  split
  · rename_i hk; rw [hk, Option.isSome_map]
  · rfl

theorem getMut_held {m : Meta} (hm : s.metas.get k = some m) {f : Meta → Meta}
    (hf : (f m).loc = m.loc) (l : Loc) :
    (s.metas.getMut k f).count (fun m => m.loc == l) = s.held l := by
  have := FlatMap.count_getMut hm f fun m => m.loc == l
  rw [hf] at this
  exact Nat.add_right_cancel this

theorem Inv.congr (h : s.Inv) (hmetas : ∀ k, s'.metas.get k = s.metas.get k)
    (hqueue : ∀ l, s'.queue l = s.queue l) (htally : ∀ l, s'.tally l = s.tally l)
    (hghost : s'.ghostSet = s.ghostSet) : s'.Inv where
  refs k m hm := by rw [hqueue]; exact h.refs k m (hmetas k ▸ hm)
  tallies l := by
    rw [htally, h.tallies, held, held, FlatMap.count, FlatMap.count, FlatMap.weight_congr hmetas]
  ghosts k ht := by rw [hghost]; exact h.ghosts k (by rwa [Tracks, hmetas] at ht)

theorem touch_inv (h : s.Inv) : (s.touch k).Inv := by
  cases hm : s.metas.get k with
  | none =>
    refine h.congr (fun k' => ?_) (fun l => by cases l <;> rfl) (fun l => by cases l <;> rfl) rfl
    by_cases hk : k' = k
    · simp [touch, hk, hm]
    · simp [touch, hk]
  | some m =>
    refine ⟨fun k' m' hm' => ?_, fun l => ?_, fun k' ht => h.ghosts k' ((touch_tracks k').1 ht)⟩
    · simp only [touch, FlatMap.get_getMut] at hm'
      split at hm'
      · rename_i hk
        subst hk
        obtain ⟨m₀, hm₀, rfl⟩ := Option.map_eq_some_iff.1 hm'
        exact h.refs k' m₀ hm₀
      · exact h.refs k' m' hm'
    · have ht : (s.touch k).tally l = s.tally l := by cases l <;> rfl
      rw [ht, h.tallies]
      exact (getMut_held hm rfl l).symm

theorem get_removed (k' : Bytes) :
    ((s.metas.remove k).2.get k').isSome = true ↔ k' ≠ k ∧ s.Tracks k' := by
  rw [FlatMap.get_remove]
  by_cases hk : k' = k <;> simp [Tracks, hk]

theorem remove_tracks (k' : Bytes) : (s.remove k).Tracks k' ↔ k' ≠ k ∧ s.Tracks k' := by
  have : (s.remove k).metas = (s.metas.remove k).2 := by
    unfold remove; dsimp only; split <;> rfl
  rw [Tracks, this, get_removed]

/-- Stop to track `k`: its count goes, its references may stay behind. -/
theorem Inv.untrack (h : s.Inv) {m : Meta} (hm : s.metas.get k = some m)
    (hmetas : s'.metas = (s.metas.remove k).2)
    (hqueue : ∀ l, ∀ k' ∈ s.queue l, k' ≠ k → k' ∈ s'.queue l)
    (htally : ∀ l, s'.tally l = if l = m.loc then s.tally l - 1 else s.tally l)
    (hghost : ∀ k', k' ≠ k → s.ghostSet.get k' = none → s'.ghostSet.get k' = none) : s'.Inv where
  refs k' m' hm' := by
    rw [hmetas, FlatMap.get_remove] at hm'
    by_cases hk : k' = k
    · rw [if_pos hk] at hm'; cases hm'
    · rw [if_neg hk] at hm'
      exact hqueue _ k' (h.refs k' m' hm') hk
  tallies l := by
    have hc := FlatMap.count_remove hm fun m => m.loc == l
    have ht := h.tallies l
    rw [held] at ht
    rw [htally, held, hmetas, ht]
    by_cases hl : l = m.loc
    · rw [if_pos hl]
      rw [if_pos (by simp [hl])] at hc
      omega
    · rw [if_neg hl]
      rw [if_neg (by simpa using fun e => hl e.symm)] at hc
      omega
  ghosts k' ht := by
    rw [Tracks, hmetas, get_removed] at ht
    exact hghost k' ht.1 (h.ghosts k' ht.2)

theorem remove_inv (h : s.Inv) : (s.remove k).Inv := by
  unfold remove
  simp only [FlatMap.remove_fst]
  cases hm : s.metas.get k with
  | none =>
    refine h.congr (fun k' => ?_) (fun l => by cases l <;> rfl) (fun l => by cases l <;> rfl) rfl
    by_cases hk : k' = k
    · simp [hk, hm]
    · simp [hk]
  | some m =>
    obtain ⟨f, l⟩ := m
    cases l with
    | small =>
      exact h.untrack hm rfl (fun l k' hk' _ => by cases l <;> exact hk')
        (fun l => by cases l <;> rfl) fun _ _ e => e
    | main =>
      exact h.untrack hm rfl (fun l k' hk' _ => by cases l <;> exact hk')
        (fun l => by cases l <;> rfl) fun _ _ e => e

/-! ## Eviction -/

theorem trimGhost_none (cap : Nat) (l : List Bytes) : ∀ g : FlatMap Unit, g.get k = none →
    (trimGhost cap l g).2.get k = none := by
  induction l with
  | nil => intro g h; exact h
  | cons old rest ih =>
    intro g h
    unfold trimGhost
    split
    · exact ih _ (by rw [FlatMap.get_remove]; split <;> [rfl; exact h])
    · exact h

/-- A round of the loop, seen from the keys that are tracked. -/
structure Round (s : S3Fifo) (r : Option Bytes × S3Fifo) : Prop where
  inv : r.2.Inv
  victim : ∀ v, r.1 = some v → s.Tracks v
  tracks : ∀ k, r.2.Tracks k ↔ r.1 ≠ some k ∧ s.Tracks k

/-- Dropping the head of a queue loses no other reference. -/
theorem mem_rest {q rest : List Bytes} (hq : q = k :: rest) {k' : Bytes} (hk' : k' ∈ q)
    (hne : k' ≠ k) : k' ∈ rest := by
  rw [hq] at hk'
  exact (List.mem_cons.1 hk').resolve_left hne

/-- The table is as before, the queue of `l` has lost a stale reference. -/
theorem Inv.skip (h : s.Inv) (l : Loc) (hstale : ∀ m, s.metas.get k = some m → m.loc ≠ l)
    (hmetas : s'.metas = s.metas)
    (hqueue : ∀ l' k', k' ∈ s.queue l' → (l' = l → k' ≠ k) → k' ∈ s'.queue l')
    (htally : ∀ l, s'.tally l = s.tally l) (hghost : s'.ghostSet = s.ghostSet) :
    Round s (none, s') where
  inv := by
    refine ⟨fun k' m hm => ?_, fun l => ?_, fun k' ht => ?_⟩
    · rw [hmetas] at hm
      refine hqueue _ k' (h.refs k' m hm) ?_
      rintro hl rfl
      exact hstale m hm hl
    · rw [htally, h.tallies, held, held, hmetas]
    · rw [hghost]
      apply h.ghosts
      rwa [Tracks, hmetas] at ht
  victim := nofun
  tracks k' := by simp [Tracks, hmetas]

/-- Only the meta entry of a tracked key has changed, its reference is in place. -/
theorem Inv.move (h : s.Inv) {m : Meta} (hm : s.metas.get k = some m) (f : Meta → Meta)
    (hmetas : s'.metas = s.metas.getMut k f) (hself : k ∈ s'.queue (f m).loc)
    (hqueue : ∀ l, ∀ k' ∈ s.queue l, k' ≠ k → k' ∈ s'.queue l)
    (htally : ∀ l, s'.tally l + (if m.loc == l then 1 else 0) = s.tally l + if (f m).loc == l then 1
      else 0)
    (hghost : s'.ghostSet = s.ghostSet) : Round s (none, s') := by
  have htracks : ∀ k', s'.Tracks k' ↔ s.Tracks k' := by
    intro k'
    rw [Tracks, hmetas, FlatMap.get_getMut]
    split
    · rename_i hk; rw [hk, Option.isSome_map]; rfl
    · rfl
  refine ⟨⟨fun k' m' hm' => ?_, fun l => ?_, fun k' ht => ?_⟩, nofun, fun k' => by simp [htracks]⟩
  · rw [hmetas, FlatMap.get_getMut] at hm'
    split at hm'
    · rename_i hk
      rw [hk, hm] at hm'
      cases hm'
      rw [hk]; exact hself
    · rename_i hk
      exact hqueue _ k' (h.refs k' m' hm') hk
  · have hc := FlatMap.count_getMut hm f fun m => m.loc == l
    have ht := h.tallies l
    rw [held] at ht
    have := htally l
    show s'.tally l = _
    rw [held, hmetas]
    omega
  · rw [hghost]; exact h.ghosts k' ((htracks k').1 ht)

theorem stepSmall_round (h : s.Inv) : Round s s.stepSmall := by
  rcases s.stepSmall_cases with ⟨hs, e⟩ | ⟨k, rest, hs, hst, e⟩ | ⟨k, rest, m, hs, hm, hl, -, e⟩ |
    ⟨k, rest, m, hs, hm, hl, e⟩
  all_goals rw [e]
  · -- a drained queue: the counter was zero
    have h0 : s.smallCount = 0 := (h.tallies .small).trans (held_of_drained h hs)
    rw [show ({ s with smallCount := 0 } : S3Fifo) = s by rw [← h0]]
    exact ⟨h, nofun, fun k => by simp⟩
  · refine h.skip .small hst rfl (fun l k' hk' hne => ?_) (fun l => by cases l <;> rfl) rfl
    cases l with
    | small => exact mem_rest hs hk' (hne rfl)
    | main => exact hk'
  · have hpos : 0 < s.smallCount := by
      have := FlatMap.count_remove hm fun m => m.loc == Loc.small
      rw [if_pos (by simp [hl])] at this
      have ht : s.smallCount = s.metas.count _ := h.tallies .small
      omega
    refine h.move hm (fun _ => ⟨0, .main⟩) rfl (List.mem_append_right _ List.mem_cons_self)
      (fun l k' hk' hne => ?_)
      (fun l => ?_) rfl
    · cases l with
      | small => exact mem_rest hs hk' hne
      | main => exact List.mem_append_left _ hk'
    · cases l with
      | small => rw [hl]; simp [tally]; omega
      | main => rw [hl]; simp [tally]
  · refine ⟨h.untrack hm rfl (fun l k' hk' hne => ?_) (fun l => ?_) fun k' hk' hg => ?_, ?_,
      fun k' => ?_⟩
    · cases l with
      | small => exact mem_rest hs hk' hne
      | main => exact hk'
    · rw [hl]; cases l <;> rfl
    · exact trimGhost_none _ _ _ (by rw [FlatMap.get_insert, if_neg hk']; exact hg)
    · rintro v ⟨⟩; simp [Tracks, hm]
    · exact get_removed k' |>.trans (by simp [eq_comm])

theorem stepMain_round (h : s.Inv) : Round s s.stepMain := by
  rcases s.stepMain_cases with ⟨hs, e⟩ | ⟨k, rest, hs, hst, e⟩ | ⟨k, rest, m, hs, hm, hl, -, e⟩ |
    ⟨k, rest, m, hs, hm, hl, e⟩
  all_goals rw [e]
  · have h0 : s.mainCount = 0 := (h.tallies .main).trans (held_of_drained h hs)
    rw [show ({ s with mainCount := 0 } : S3Fifo) = s by rw [← h0]]
    exact ⟨h, nofun, fun k => by simp⟩
  · refine h.skip .main hst rfl (fun l k' hk' hne => ?_) (fun l => by cases l <;> rfl) rfl
    cases l with
    | small => exact hk'
    | main => exact mem_rest hs hk' (hne rfl)
  · refine h.move hm (fun m => { m with freq := m.freq - 1 }) rfl ?_ (fun l k' hk' hne => ?_)
      (fun l => ?_) rfl
    · rw [hl]; exact List.mem_append_right _ List.mem_cons_self
    · cases l with
      | small => exact hk'
      | main => exact List.mem_append_left _ (mem_rest hs hk' hne)
    · cases l <;> rfl
  · refine ⟨h.untrack hm rfl (fun l k' hk' hne => ?_) (fun l => ?_) fun k' _ hg => hg, ?_,
      fun k' => ?_⟩
    · cases l with
      | small => exact hk'
      | main => exact mem_rest hs hk' hne
    · rw [hl]; cases l <;> rfl
    · rintro v ⟨⟩; simp [Tracks, hm]
    · exact get_removed k' |>.trans (by simp [eq_comm])

theorem Round.trans {r : Option Bytes × S3Fifo} (h : Round s (none, s')) (h' : Round s' r) :
    Round s r where
  inv := h'.inv
  victim v hv := ((h.tracks v).1 (h'.victim v hv)).2
  tracks k := by rw [h'.tracks, h.tracks]; simp

/-- What `evict_one` does: a tracked key is taken out, or none was tracked. -/
theorem evictLoop_round (f : Nat) :
    ∀ (s : S3Fifo) (r : Option Bytes × S3Fifo), s.Inv → evictLoop f s = some r →
    Round s r ∧ (r.1 = none → ∀ k, ¬ s.Tracks k) := by
  induction f with
  | zero => intro s r _ e; cases e
  | succ f ih =>
    intro s r h e
    unfold evictLoop at e
    split at e
    · rename_i h0
      cases e
      refine ⟨⟨h, fun v hv => (by cases hv), fun k => by simp⟩, fun _ k hk => ?_⟩
      -- no key is tracked, since both counters are zero
      have hlen : s.metas.len = 0 := by rw [← len_eq h, len, h0.1, h0.2]
      rw [Tracks, FlatMap.get_of_len_zero hlen] at hk
      cases hk
    · have hr : Round s (if s.useSmall then s.stepSmall else s.stepMain) := by
        split
        · exact stepSmall_round h
        · exact stepMain_round h
      dsimp only at e
      generalize (if s.useSmall then s.stepSmall else s.stepMain) = q at e hr
      obtain ⟨v, s'⟩ := q
      cases v with
      | some v => cases e; exact ⟨hr, fun hn => by cases hn⟩
      | none =>
        obtain ⟨h1, h2⟩ := ih s' r hr.inv e
        exact ⟨hr.trans h1, fun hn k hk => h2 hn k ((hr.tracks k).2 ⟨by simp, hk⟩)⟩

theorem evictOne_round (h : s.Inv) :
    Round s s.evictOne ∧ (s.evictOne.1 = none → ∀ k, ¬ s.Tracks k) :=
  evictLoop_round _ s _ h (Option.some_get _).symm

/-- An eviction takes out one tracked key. -/
theorem evictOne_some (h : s.Inv) {v : Bytes} (hv : s.evictOne.1 = some v) :
    s.Tracks v ∧ s.evictOne.2.Inv ∧ ∀ k, s.evictOne.2.Tracks k ↔ k ≠ v ∧ s.Tracks k := by
  obtain ⟨hr, -⟩ := evictOne_round h
  refine ⟨hr.victim v hv, hr.inv, fun k => ?_⟩
  rw [hr.tracks, hv]
  simp [eq_comm]

/-- Without a victim nothing was tracked. -/
theorem evictOne_none (h : s.Inv) (hv : s.evictOne.1 = none) (k : Bytes) : ¬ s.Tracks k :=
  (evictOne_round h).2 hv k

end Inmem.L2.S3Fifo
