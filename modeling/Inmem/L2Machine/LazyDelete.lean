import Inmem.L2Machine.PolicyRun

/-!
# Lazy deletion

`remove` takes a key out of the table and leaves its reference in the queue, to be
skipped when it surfaces. `removeNow` is the reference: the same, and the key leaves
its queue at once.

`tidy` is a policy without its stale references. As long as a key is inserted only
when neither queue still refers to it (`Clear`), the policy behaves like its tidy
state:

* `insert_tidy`, `touch_tidy`, `remove_tidy`: the operations commute with `tidy`;
* `round_tidy`: a round of the loop commutes with `tidy` or skips a stale reference;
* `lazy_agrees`: the two policies return the same victims along every such run.

Without that condition a stale reference acts for the key that has come back
(`stale_acts`).
-/
namespace Inmem.L2.S3Fifo

open Inmem.L1 Inmem.Core
open Inmem.L2 (FlatMap)

/-- Removal that takes the key out of its queue at once. -/
def removeNow (s : S3Fifo) (key : Bytes) : S3Fifo :=
  { s.remove key with small := s.small.filter (· ≠ key), main := s.main.filter (· ≠ key) }

/-- The key is tracked at this location. -/
def isAt (s : S3Fifo) (l : Loc) (k : Bytes) : Bool := (s.metas.get k).any fun m => m.loc == l

/-- The policy without its stale references. -/
def tidy (s : S3Fifo) : S3Fifo :=
  { s with small := s.small.filter (s.isAt .small), main := s.main.filter (s.isAt .main) }

/-- No key has two references. -/
def Single (s : S3Fifo) : Prop := s.refs.Nodup

/-- A key is inserted only when no reference to it is left. -/
def Clear (l : Log) : PolOp → Prop
  | .insert key => key ∉ l.pol.refs
  | _ => True

instance decidableClear (l : Log) : ∀ op, Decidable (Clear l op)
  | .insert key => inferInstanceAs (Decidable (key ∉ l.pol.refs))
  | .touch _ => .isTrue trivial
  | .remove _ => .isTrue trivial
  | .evictOne => .isTrue trivial

variable {s s' : S3Fifo} {k : Bytes}

theorem tidy_queue (s : S3Fifo) (l : Loc) : s.tidy.queue l = (s.queue l).filter (s.isAt l) := by
  cases l <;> rfl

/-- Two policies with the same tables, counters and queues. -/
theorem ext_queues (hm : s.metas = s'.metas) (hq : ∀ l, s.queue l = s'.queue l)
    (ht : ∀ l, s.tally l = s'.tally l) (hg : s.ghost = s'.ghost) (hs : s.ghostSet = s'.ghostSet) :
    s = s' := by
  have h1 : s.small = s'.small := hq .small
  have h2 : s.main = s'.main := hq .main
  have h3 : s.smallCount = s'.smallCount := ht .small
  have h4 : s.mainCount = s'.mainCount := ht .main
  cases s; cases s'
  simp_all

/-! ## Insert, touch, remove -/

/-- The filter of a queue does not look at a key that is not in it. -/
theorem filter_away {t : S3Fifo} {l : Loc} {q : List Bytes}
    (hother : ∀ k', k' ≠ k → t.metas.get k' = s.metas.get k') (hk : k ∉ q) :
    q.filter (t.isAt l) = q.filter (s.isAt l) :=
  List.filter_congr fun k' hk' => by
    have hne : k' ≠ k := fun e => hk (e ▸ hk')
    simp only [isAt, hother k' hne]

/-- `k` joins the end of the queue it then belongs to. -/
theorem filter_join {t : S3Fifo} {l : Loc} {m : Meta} {q : List Bytes} (hm : t.metas.get k = some m)
    (hl : m.loc = l) (hother : ∀ k', k' ≠ k → t.metas.get k' = s.metas.get k') (hk : k ∉ q) :
    (q ++ [k]).filter (t.isAt l) = q.filter (s.isAt l) ++ [k] := by
  rw [List.filter_append, filter_away hother hk]
  simp [isAt, hm, hl]

theorem not_mem_queue (h : k ∉ s.refs) (l : Loc) : k ∉ s.queue l := by
  simp only [refs, List.mem_append, not_or] at h
  cases l with
  | small => exact h.1
  | main => exact h.2

theorem insert_tidy (hk : k ∉ s.refs) : (s.insert k).tidy = s.tidy.insert k := by
  have hother : ∀ l k', k' ≠ k → (s.metas.insert k ⟨0, l⟩).get k' = s.metas.get k' := by
    intro l k' hne; simp [hne]
  have hself : ∀ l, (s.metas.insert k ⟨0, l⟩).get k = some ⟨0, l⟩ := by simp
  unfold insert
  by_cases hg : (s.ghostSet.remove k).1.isSome = true
  · have hg' : (s.tidy.ghostSet.remove k).1.isSome = true := hg
    simp only [hg, hg', if_true]
    refine ext_queues rfl (fun l' => ?_) (fun l' => by cases l' <;> rfl) rfl rfl
    rw [tidy_queue]
    cases l' with
    | small => exact filter_away (hother .main) (not_mem_queue hk .small)
    | main => exact filter_join (hself .main) rfl (hother .main) (not_mem_queue hk .main)
  · have hg' : ¬ (s.tidy.ghostSet.remove k).1.isSome = true := hg
    simp only [hg, hg', if_false, Bool.false_eq_true]
    refine ext_queues rfl (fun l' => ?_) (fun l' => by cases l' <;> rfl) rfl rfl
    rw [tidy_queue]
    cases l' with
    | small => exact filter_join (hself .small) rfl (hother .small) (not_mem_queue hk .small)
    | main => exact filter_away (hother .small) (not_mem_queue hk .main)

theorem touch_tidy : (s.touch k).tidy = s.tidy.touch k := by
  refine ext_queues rfl (fun l => ?_) (fun l => by cases l <;> rfl) rfl rfl
  have hat : (s.touch k).isAt l = s.isAt l := by
    funext k'
    simp only [isAt, touch, FlatMap.get_getMut]
    split
    · rename_i h; rw [h]; cases s.metas.get k <;> rfl
    · rfl
  have hq : (s.tidy.touch k).queue l = s.tidy.queue l := by cases l <;> rfl
  have hq' : (s.touch k).queue l = s.queue l := by cases l <;> rfl
  rw [tidy_queue, hq, hq', tidy_queue, hat]

theorem remove_tidy : (s.remove k).tidy = s.tidy.removeNow k := by
  have hq' : ∀ l, (s.remove k).queue l = s.queue l := by
    intro l
    unfold remove
    dsimp only
    split <;> cases l <;> rfl
  have hat : ∀ l k', (s.remove k).isAt l k' = (decide (k' ≠ k) && s.isAt l k') := by
    intro l k'
    simp only [isAt, remove_metas, FlatMap.get_remove]
    by_cases h : k' = k <;> simp [h]
  have hfilter : ∀ l, (s.remove k).tidy.queue l = (s.tidy.queue l).filter (· ≠ k) := by
    intro l
    rw [tidy_queue, tidy_queue, hq', List.filter_filter]
    exact List.filter_congr fun k' _ => hat l k'
  have hrest : ∀ t : S3Fifo, t = s.tidy →
      (t.remove k).metas = (s.remove k).metas ∧ (t.remove k).ghost = (s.remove k).ghost ∧
        (t.remove k).ghostSet = (s.remove k).ghostSet ∧ ∀ l,
        (t.remove k).tally l = (s.remove k).tally l := by
    rintro t rfl
    unfold remove tidy
    dsimp only
    split <;> exact ⟨rfl, rfl, rfl, fun l => by cases l <;> rfl⟩
  obtain ⟨h1, h2, h3, h4⟩ := hrest s.tidy rfl
  refine ext_queues h1.symm (fun l => ?_) (fun l => ?_) h2.symm h3.symm
  · rw [hfilter]; cases l <;> rfl
  · have e1 : (s.remove k).tidy.tally l = (s.remove k).tally l := by cases l <;> rfl
    have e2 : (s.tidy.removeNow k).tally l = (s.tidy.remove k).tally l := by cases l <;> rfl
    rw [e1, e2, h4]

/-! ## Eviction -/

/-- A step on the small queue whose head is tracked there. -/
theorem stepSmall_eq {rest : List Bytes} {m : Meta} (hs : s.small = k :: rest)
    (hm : s.metas.get k = some m) (hl : m.loc = .small) :
    s.stepSmall =
      if m.freq > PROMOTE_THRESHOLD then
        (none, { s with small := rest, metas := s.metas.getMut k fun _ => ⟨0, .main⟩,
                        smallCount := s.smallCount - 1,
                        mainCount := s.mainCount + 1, main := s.main ++ [k] })
      else (some k,
        pushGhost { s with small := rest, metas := (s.metas.remove k).2,
                           smallCount := s.smallCount - 1 } k) := by
  simp only [stepSmall, hs, hm, hl, ne_eq, not_true_eq_false, if_false]

/-- A step on the main queue whose head is tracked there. -/
theorem stepMain_eq {rest : List Bytes} {m : Meta} (hs : s.main = k :: rest)
    (hm : s.metas.get k = some m) (hl : m.loc = .main) :
    s.stepMain =
      if m.freq > 0 then
        (none, { s with metas := s.metas.getMut k fun m => { m with freq := m.freq - 1 },
                        main := rest ++ [k] })
      else (some k,
        { s with main := rest, metas := (s.metas.remove k).2, mainCount := s.mainCount - 1 }) := by
  simp only [stepMain, hs, hm, hl, ne_eq, not_true_eq_false, if_false]

theorem isAt_iff {l : Loc} : s.isAt l k = true ↔ ∃ m, s.metas.get k = some m ∧ m.loc = l := by
  cases hm : s.metas.get k <;> simp [isAt, hm]

/-- A stale reference at the head of a queue is not in the tidy one. -/
theorem filter_stale {l : Loc} {rest : List Bytes} (hat : ¬ s.isAt l k = true) :
    (k :: rest).filter (s.isAt l) = rest.filter (s.isAt l) := List.filter_cons_of_neg hat

theorem stepSmall_tidy (h : s.Single) (hne : s.small ≠ []) :
    s.stepSmall.1 = none ∧ s.stepSmall.2.tidy = s.tidy ∨
      s.tidy.stepSmall = (s.stepSmall.1, s.stepSmall.2.tidy) := by
  obtain ⟨k, rest, hs⟩ := List.exists_cons_of_ne_nil hne
  obtain ⟨hrest, hmain⟩ : k ∉ rest ∧ k ∉ s.main := by
    rw [Single, refs, hs, List.cons_append, List.nodup_cons, List.mem_append, not_or] at h
    exact h.1
  by_cases hat : s.isAt .small k = true
  · right
    obtain ⟨m, hm, hl⟩ := isAt_iff.1 hat
    have hs' : s.tidy.small = k :: rest.filter (s.isAt .small) := by simp [tidy, hs, hat]
    rw [stepSmall_eq hs hm hl, stepSmall_eq hs' hm hl]
    split
    · have hother : ∀ k', k' ≠ k →
          (s.metas.getMut k fun _ => ⟨0, .main⟩).get k' = s.metas.get k' := by
        intro k' hne; simp [hne]
      refine Prod.ext rfl (ext_queues rfl (fun l => ?_) (fun l => by cases l <;> rfl) rfl rfl)
      rw [tidy_queue]
      cases l with
      | small => exact (filter_away hother hrest).symm
      | main =>
        have hself : (s.metas.getMut k fun _ => ⟨0, .main⟩).get k = some ⟨0, .main⟩ := by simp [hm]
        exact (filter_join
          (t := { s with metas := s.metas.getMut k fun _ => ⟨0, .main⟩ }) hself rfl hother
            hmain).symm
    · have hother : ∀ k', k' ≠ k → (s.metas.remove k).2.get k' = s.metas.get k' := by
        intro k' hne; simp [hne]
      refine Prod.ext rfl (ext_queues rfl (fun l => ?_) (fun l => by cases l <;> rfl) rfl rfl)
      rw [tidy_queue]
      cases l with
      | small => exact (filter_away hother hrest).symm
      | main => exact (filter_away hother hmain).symm
  · left
    have e : s.stepSmall = (none, { s with small := rest }) := by
      simp only [stepSmall, hs]
      cases hm : s.metas.get k with
      | none => rfl
      | some m => exact if_pos fun hl => hat (isAt_iff.2 ⟨m, hm, hl⟩)
    rw [e]
    refine ⟨rfl, ext_queues rfl (fun l => ?_) (fun l => by cases l <;> rfl) rfl rfl⟩
    cases l with
    | small =>
      show rest.filter (s.isAt .small) = s.small.filter (s.isAt .small)
      rw [hs, filter_stale hat]
    | main => rfl

theorem stepMain_tidy (h : s.Single) (hne : s.main ≠ []) :
    s.stepMain.1 = none ∧ s.stepMain.2.tidy = s.tidy ∨
      s.tidy.stepMain = (s.stepMain.1, s.stepMain.2.tidy) := by
  obtain ⟨k, rest, hs⟩ := List.exists_cons_of_ne_nil hne
  obtain ⟨hrest, hsmall⟩ : k ∉ rest ∧ k ∉ s.small := by
    rw [Single, refs, hs, List.perm_middle.nodup_iff, List.nodup_cons, List.mem_append, not_or] at h
    exact h.1.symm
  by_cases hat : s.isAt .main k = true
  · right
    obtain ⟨m, hm, hl⟩ := isAt_iff.1 hat
    have hs' : s.tidy.main = k :: rest.filter (s.isAt .main) := by simp [tidy, hs, hat]
    rw [stepMain_eq hs hm hl, stepMain_eq hs' hm hl]
    split
    · have hother : ∀ k', k' ≠ k →
          (s.metas.getMut k fun m => { m with freq := m.freq - 1 }).get k' = s.metas.get k' := by
        intro k' hne; simp [hne]
      refine Prod.ext rfl (ext_queues rfl (fun l => ?_) (fun l => by cases l <;> rfl) rfl rfl)
      rw [tidy_queue]
      cases l with
      | small => exact (filter_away hother hsmall).symm
      | main =>
        have hself : (s.metas.getMut k fun m => { m with freq := m.freq - 1 }).get k =
            some { m with freq := m.freq - 1 } := by simp [hm]
        exact (filter_join
          (t := { s with metas := s.metas.getMut k fun m => { m with freq := m.freq - 1 } }) hself
            hl
          hother hrest).symm
    · have hother : ∀ k', k' ≠ k → (s.metas.remove k).2.get k' = s.metas.get k' := by
        intro k' hne; simp [hne]
      refine Prod.ext rfl (ext_queues rfl (fun l => ?_) (fun l => by cases l <;> rfl) rfl rfl)
      rw [tidy_queue]
      cases l with
      | small => exact (filter_away hother hsmall).symm
      | main => exact (filter_away hother hrest).symm
  · left
    have e : s.stepMain = (none, { s with main := rest }) := by
      simp only [stepMain, hs]
      cases hm : s.metas.get k with
      | none => rfl
      | some m => exact if_pos fun hl => hat (isAt_iff.2 ⟨m, hm, hl⟩)
    rw [e]
    refine ⟨rfl, ext_queues rfl (fun l => ?_) (fun l => by cases l <;> rfl) rfl rfl⟩
    cases l with
    | small => rfl
    | main =>
      show rest.filter (s.isAt .main) = s.main.filter (s.isAt .main)
      rw [hs, filter_stale hat]

/-- A round skips a stale reference or is the round of the tidy policy. -/
theorem round_tidy (h : s.Single) (hne : s.queue s.chosen ≠ []) :
    s.round.1 = none ∧ s.round.2.tidy = s.tidy ∨ s.tidy.round = (s.round.1, s.round.2.tidy) := by
  have hu : s.tidy.useSmall = s.useSmall := rfl
  unfold round
  rw [hu]
  unfold chosen at hne
  split
  · rename_i hs; rw [if_pos hs] at hne; exact stepSmall_tidy h hne
  · rename_i hs; rw [if_neg hs] at hne; exact stepMain_tidy h hne

theorem round_single (h : s.Single) : s.round.2.Single := by
  obtain ⟨l, hp, hs⟩ := round_refs (s := s)
  exact (hp.nodup_iff.1 (h.sublist hs))

/-- What the loop returns does not depend on the fuel. -/
theorem evictLoop_more {f : Nat} :
    ∀ {s : S3Fifo} {r : Option Bytes × S3Fifo} (g : Nat), evictLoop f s = some r →
    evictLoop (f + g) s = some r := by
  induction f with
  | zero => intro s r g h; cases h
  | succ f ih =>
    intro s r g h
    rw [Nat.succ_add, evictLoop_succ]
    rw [evictLoop_succ] at h
    split
    · rename_i h0; rwa [if_pos h0] at h
    · rename_i h0
      rw [if_neg h0] at h
      cases hv : s.round.1 with
      | some v => rw [hv] at h; exact h
      | none => rw [hv] at h; exact ih g h

theorem evictLoop_unique {f g : Nat} {r r' : Option Bytes × S3Fifo} (h : evictLoop f s = some r)
    (h' : evictLoop g s = some r') : r = r' := by
  have h1 := evictLoop_more g h
  rw [Nat.add_comm, evictLoop_more f h'] at h1
  exact (Option.some.inj h1).symm

/-- The loop on the tidy policy does what the loop does, without the skips. -/
theorem evictLoop_tidy (f : Nat) :
    ∀ (s : S3Fifo) (r : Option Bytes × S3Fifo), s.Inv → s.Single → evictLoop f s = some r →
    ∃ g, evictLoop g s.tidy = some (r.1, r.2.tidy) := by
  induction f with
  | zero => intro s r _ _ h; cases h
  | succ f ih =>
    intro s r hi h1 h
    rw [evictLoop_succ] at h
    by_cases h0 : s.smallCount = 0 ∧ s.mainCount = 0
    · rw [if_pos h0] at h
      cases h
      have h0' : s.tidy.smallCount = 0 ∧ s.tidy.mainCount = 0 := h0
      exact ⟨1, by rw [evictLoop_succ, if_pos h0']⟩
    · rw [if_neg h0] at h
      have h0' : ¬ (s.tidy.smallCount = 0 ∧ s.tidy.mainCount = 0) := h0
      have hnext := ih s.round.2 r (round_inv hi).inv (round_single h1)
      rcases round_tidy h1 (chosen_ne_nil hi h0) with ⟨hv, e⟩ | e
      · rw [hv] at h
        rw [← e]
        exact hnext h
      · cases hv : s.round.1 with
        | some v =>
          rw [hv] at h e
          cases h
          exact ⟨1, by rw [evictLoop_succ, if_neg h0', e]⟩
        | none =>
          rw [hv] at h e
          obtain ⟨g, hg⟩ := hnext h
          exact ⟨g + 1, by rw [evictLoop_succ, if_neg h0', e]; exact hg⟩

theorem evictOne_tidy (hi : s.Inv) (h1 : s.Single) :
    s.tidy.evictOne = (s.evictOne.1, s.evictOne.2.tidy) := by
  obtain ⟨g, hg⟩ := evictLoop_tidy _ s _ hi h1 (evictLoop_evictOne s)
  exact evictLoop_unique (evictLoop_evictOne s.tidy) hg

/-! ## Runs -/

theorem stepBy_single {l l' : Log} {op : PolOp} (h : l.pol.Single) (hc : Clear l op)
    (hs : stepBy remove l op = some l') : l'.pol.Single := by
  cases op with
  | insert key =>
    simp only [stepBy] at hs
    split at hs
    · cases hs; exact insert_refs.nodup_iff.2 (List.nodup_cons.2 ⟨hc, h⟩)
    · cases hs
  | touch key => cases hs; exact h
  | remove key => cases hs; show (l.pol.remove key).refs.Nodup; rw [remove_refs]; exact h
  | evictOne =>
    cases hs
    obtain ⟨q, hp, hq⟩ := evictOne_refs (s := l.pol)
    exact hp.nodup_iff.1 (h.sublist hq)

/-- One operation of the policy is one of the reference. -/
theorem stepBy_tidy {l l' : Log} {op : PolOp} (hi : l.pol.Inv) (h : l.pol.Single) (hc : Clear l op)
    (hs : stepBy remove l op = some l') :
    stepBy removeNow ⟨l.pol.tidy, l.victims⟩ op = some ⟨l'.pol.tidy, l'.victims⟩ := by
  cases op with
  | insert key =>
    simp only [stepBy] at hs
    split at hs
    · rename_i hk
      cases hs
      have hk' : l.pol.tidy.metas.get key = none := hk
      rw [stepBy, if_pos hk', insert_tidy hc]
    · cases hs
  | touch key => cases hs; rw [stepBy, touch_tidy]
  | remove key => cases hs; rw [stepBy, remove_tidy]
  | evictOne => cases hs; rw [stepBy, evictOne_tidy hi h]

theorem run_tidy {ops : List PolOp} : ∀ {l l' : Log}, l.pol.Inv → l.pol.Single →
    Lts.Along (stepBy remove) Clear l ops → Lts.run (stepBy remove) l ops = some l' →
    Lts.run (stepBy removeNow) ⟨l.pol.tidy, l.victims⟩ ops = some ⟨l'.pol.tidy, l'.victims⟩ := by
  induction ops with
  | nil => intro l l' _ _ _ hr; cases hr; rfl
  | cons op ops ih =>
    intro l l' hi h1 ha hr
    obtain ⟨t, ht, hr⟩ := Lts.run_cons hr
    rw [Lts.run_step (stepBy_tidy hi h1 ha.1 ht)]
    exact ih (stepBy_inv hi ht) (stepBy_single h1 ha.1 ht) (ha.2 t ht) hr

/-- **Lazy deletion.** In every run in which a key is inserted only when neither queue
still refers to it, the policy returns the victims of the reference policy, whose
queues are the policy's without their stale references. -/
theorem lazy_agrees (metaHasher ghostHasher : Bytes → UInt64) (ops : List PolOp) {l : Log}
    (h : Lts.run (stepBy remove) (.fresh metaHasher ghostHasher) ops = some l)
    (hclear : Lts.Along (stepBy remove) Clear (.fresh metaHasher ghostHasher) ops) :
    ∃ l', Lts.run (stepBy removeNow) (.fresh metaHasher ghostHasher) ops = some l' ∧
      l'.victims = l.victims ∧
      ∀ q, l'.pol.queue q = (l.pol.queue q).filter (l.pol.isAt q) :=
  ⟨⟨l.pol.tidy, l.victims⟩, run_tidy (l := .fresh metaHasher ghostHasher)
    (new_inv ..) List.nodup_nil hclear h, rfl, tidy_queue l.pol⟩

/-- A key that is removed and inserted again before its first reference has surfaced. -/
def backAgain : List PolOp :=
  [.insert (lit "a"), .insert (lit "b"), .remove (lit "a"), .insert (lit "a"), .evictOne]

/-- The stale reference to `a` evicts it at its old place; in the reference policy `b`
is the older key. -/
theorem stale_acts :
    (Lts.run (stepBy remove) (.fresh (fun _ => 0) fun _ => 0) backAgain).map Log.victims =
      some [some (lit "a")] ∧
      (Lts.run (stepBy removeNow) (.fresh (fun _ => 0) fun _ => 0) backAgain).map Log.victims =
        some [some (lit "b")] := by
  decide +kernel

/-- Once its stale reference has surfaced, a key can come back. -/
def surfaced : List PolOp :=
  [.insert (lit "a"), .insert (lit "b"), .remove (lit "a"), .evictOne, .insert (lit "a"),
    .insert (lit "c"), .evictOne]

theorem lazy_agrees_surfaced :
    (Lts.run (stepBy remove) (.fresh (fun _ => 0) fun _ => 0) surfaced).map Log.victims =
      some [some (lit "b"), some (lit "a")] ∧
      (Lts.run (stepBy removeNow) (.fresh (fun _ => 0) fun _ => 0) surfaced).map Log.victims =
        some [some (lit "b"), some (lit "a")] := by
  have hv : (Lts.run (stepBy remove) (.fresh (fun _ => 0) fun _ => 0) surfaced).map Log.victims =
      some [some (lit "b"), some (lit "a")] := by decide +kernel
  refine ⟨hv, ?_⟩
  obtain ⟨l, hl, hvl⟩ := Option.map_eq_some_iff.1 hv
  obtain ⟨l', hl', hv', -⟩ := lazy_agrees (fun _ => 0) (fun _ => 0) surfaced hl (by decide +kernel)
  rw [hl', Option.map_some, hv', hvl]

end Inmem.L2.S3Fifo
