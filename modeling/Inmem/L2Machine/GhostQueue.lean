import Inmem.L2Machine.PolicyRun

/-!
# The ghost queue

`push_ghost` keeps the recently evicted keys twice: in a deque, in order, and in a set,
for membership. `insert` takes a key out of the set and leaves it in the deque, and the
trimming loop of `push_ghost` looks at the size of the set alone.

`Remembers q g`: the deque `q` has no duplicates and holds the keys of the set `g`.

* `trimGhost_remembers`: the trimming loop keeps this, and then also caps the deque;
* `insert_remembers`: an insertion keeps it exactly when the key is not a ghost;
* `ghosts_agree`: in a run, the two agree and the deque is capped in every state exactly
  when no insertion is of a ghost.

With one key that is evicted, comes back, is removed and comes back again, the deque
outgrows every cap (`ghosts_drift`).
-/
namespace Inmem.L2.S3Fifo

open Inmem.L1 Inmem.Core
open Inmem.L2 (FlatMap)

/-- The deque holds each key of the set once, and no other. -/
def Remembers (q : List Bytes) (g : FlatMap Unit) : Prop :=
  q.Nodup ∧ ∀ k, k ∈ q ↔ (g.get k).isSome = true

/-- The states of an eviction right after a `push_ghost`: only a step on the small queue
that finds a victim makes one. -/
def pushes (s : S3Fifo) : List S3Fifo :=
  (rounds (s.effort + 1) s).filterMap fun t => if t.useSmall && t.stepSmall.1.isSome
    then some t.stepSmall.2 else none

/-- After every `push_ghost` of an eviction the deque is within its cap. -/
def Capped (s : S3Fifo) : Prop := ∀ t ∈ s.pushes, t.ghost.length ≤ max 16 t.len

/-- No ghost is inserted. -/
def NotGhost (l : Log) : PolOp → Prop
  | .insert key => l.pol.ghostSet.get key = none
  | _ => True

instance decidableNotGhost (l : Log) : ∀ op, Decidable (NotGhost l op)
  | .insert key => inferInstanceAs (Decidable (l.pol.ghostSet.get key = none))
  | .touch _ => .isTrue trivial
  | .remove _ => .isTrue trivial
  | .evictOne => .isTrue trivial

variable {s s' : S3Fifo} {k : Bytes} {q : List Bytes} {g : FlatMap Unit}

/-! ## The deque and the set -/

theorem Remembers.len_eq (h : Remembers q g) : g.len = q.length := by
  have hp : (g.iter.map Prod.fst).Perm q := by
    refine (List.perm_ext_iff_of_nodup g.iter_nodup h.1).2 fun k => ?_
    rw [h.2, List.mem_map]
    constructor
    · rintro ⟨⟨_, u⟩, hm, rfl⟩
      rw [g.mem_iter.1 hm]; rfl
    · intro hk
      obtain ⟨u, hu⟩ := Option.isSome_iff_exists.1 hk
      exact ⟨(k, u), g.mem_iter.2 hu, rfl⟩
  rw [g.len_eq_iter, ← hp.length_eq, List.length_map]

/-- A new key joins both. -/
theorem Remembers.push (h : Remembers q g) (hk : g.get k = none) :
    Remembers (q ++ [k]) (g.insert k ()) := by
  have hq : k ∉ q := by rw [h.2, hk]; simp
  refine ⟨List.nodup_append.2 ⟨h.1, List.nodup_singleton k, ?_⟩, fun k' => ?_⟩
  · intro a ha b hb hab
    rw [List.mem_singleton.1 hb] at hab
    exact hq (hab ▸ ha)
  · rw [List.mem_append, List.mem_singleton, h.2, FlatMap.get_insert]
    by_cases hkk : k' = k <;> simp [hkk]

/-- The oldest key leaves both. -/
theorem Remembers.pop (h : Remembers (k :: q) g) : Remembers q (g.remove k).2 := by
  obtain ⟨hk, hq⟩ := List.nodup_cons.1 h.1
  refine ⟨hq, fun k' => ?_⟩
  rw [FlatMap.get_remove]
  by_cases hkk : k' = k
  · simp [hkk, hk]
  · have := h.2 k'
    rw [List.mem_cons, or_iff_right hkk] at this
    rw [if_neg hkk, this]

/-- The loop looks at the size of the set, which is the length of the deque. -/
theorem trimGhost_remembers (cap : Nat) (q : List Bytes) : ∀ g : FlatMap Unit, Remembers q g →
    Remembers (trimGhost cap q g).1 (trimGhost cap q g).2 ∧ (trimGhost cap q g).1.length ≤ cap := by
  induction q with
  | nil => intro g h; exact ⟨h, Nat.zero_le _⟩
  | cons old rest ih =>
    intro g h
    unfold trimGhost
    split
    · exact ih _ h.pop
    · rename_i hcap
      rw [h.len_eq] at hcap
      exact ⟨h, Nat.le_of_not_lt hcap⟩

theorem pushGhost_remembers (h : Remembers s.ghost s.ghostSet) (hk : s.ghostSet.get k = none) :
    Remembers (s.pushGhost k).ghost (s.pushGhost k).ghostSet ∧
      (s.pushGhost k).ghost.length ≤ max 16 (s.pushGhost k).len := by
  obtain ⟨h1, h2⟩ := trimGhost_remembers (max s.len 16) _ _ (h.push hk)
  rw [Nat.max_comm s.len 16] at h1 h2
  unfold pushGhost
  rw [Nat.max_comm s.len 16]
  exact ⟨h1, h2⟩

/-! ## The operations -/

theorem insert_ghost : (s.insert k).ghost = s.ghost := by
  unfold insert; dsimp only; split <;> rfl

theorem insert_ghostSet : (s.insert k).ghostSet = (s.ghostSet.remove k).2 := by
  unfold insert; dsimp only; split <;> rfl

/-- An insertion takes the key out of the set alone. -/
theorem insert_remembers (h : Remembers s.ghost s.ghostSet) :
    Remembers (s.insert k).ghost (s.insert k).ghostSet ↔ s.ghostSet.get k = none := by
  rw [insert_ghost, insert_ghostSet]
  constructor
  · intro h'
    by_contra hk
    have hmem : k ∈ s.ghost := (h.2 k).2 (Option.isSome_iff_ne_none.2 hk)
    have := (h'.2 k).1 hmem
    simp at this
  · intro hk
    refine ⟨h.1, fun k' => ?_⟩
    rw [h.2, FlatMap.get_remove]
    by_cases hkk : k' = k <;> simp [hkk, hk]

/-- A step on the small queue that finds a victim ends in a `push_ghost` of a key that was
tracked until then, so was not a ghost. The other steps leave the ghosts alone. -/
theorem stepSmall_remembers (hi : s.Inv) (h : Remembers s.ghost s.ghostSet) :
    Remembers s.stepSmall.2.ghost s.stepSmall.2.ghostSet ∧
      (s.stepSmall.1.isSome = true → s.stepSmall.2.ghost.length ≤ max 16 s.stepSmall.2.len) := by
  rcases s.stepSmall_cases with ⟨-, e⟩ | ⟨k, rest, -, -, e⟩ | ⟨k, rest, m, -, -, -, -, e⟩ |
    ⟨k, rest, m, -, hm, -, e⟩
  all_goals rw [e]
  · exact ⟨h, fun hv => by cases hv⟩
  · exact ⟨h, fun hv => by cases hv⟩
  · exact ⟨h, fun hv => by cases hv⟩
  · have hk : s.ghostSet.get k = none := hi.ghosts k (by rw [Tracks, hm]; rfl)
    obtain ⟨h1, h2⟩ := pushGhost_remembers (k := k)
      (s := { s with small := rest, metas := (s.metas.remove k).2, smallCount := s.smallCount - 1 })
        h hk
    exact ⟨h1, fun _ => h2⟩

theorem stepMain_remembers (h : Remembers s.ghost s.ghostSet) :
    Remembers s.stepMain.2.ghost s.stepMain.2.ghostSet := by
  rcases s.stepMain_cases with ⟨-, e⟩ | ⟨k, rest, -, -, e⟩ | ⟨k, rest, m, -, -, -, -, e⟩ |
    ⟨k, rest, m, -, -, -, e⟩
  all_goals rw [e]; exact h

/-- The policy's invariant and the agreement of the two. -/
def Ghosts (s : S3Fifo) : Prop := s.Inv ∧ Remembers s.ghost s.ghostSet

theorem round_ghosts (h : s.Ghosts) : s.round.2.Ghosts := by
  refine ⟨(round_inv h.1).inv, ?_⟩
  unfold round
  split
  · exact (stepSmall_remembers h.1 h.2).1
  · exact stepMain_remembers h.2

theorem Ghosts.capped (h : s.Ghosts) : s.Capped := by
  intro t ht
  obtain ⟨u, hu, he⟩ := List.mem_filterMap.1 ht
  obtain ⟨⟨hui, hur⟩, -⟩ := rounds_keep (fun _ => round_ghosts) _ s h u hu
  split at he
  · rename_i hv
    cases he
    exact (stepSmall_remembers hui hur).2 (Bool.and_eq_true_iff.1 hv).2
  · cases he

/-! ## Runs -/

/-- One operation keeps the agreement exactly when it does not insert a ghost. -/
theorem stepBy_ghosts {l l' : Log} {op : PolOp} (h : l.pol.Ghosts)
    (hs : stepBy remove l op = some l') : l'.pol.Ghosts ↔ NotGhost l op := by
  rw [Ghosts, and_iff_right (stepBy_inv h.1 hs)]
  cases op with
  | insert key =>
    simp only [stepBy] at hs
    split at hs
    · cases hs; exact insert_remembers h.2
    · cases hs
  | touch key => cases hs; exact iff_of_true h.2 trivial
  | remove key =>
    cases hs
    have hg := remove_ghost (s := l.pol) (k := key)
    rw [hg.1, hg.2]
    exact iff_of_true h.2 trivial
  | evictOne =>
    cases hs
    exact iff_of_true (evictOne_keeps (fun _ => round_ghosts) h).2 trivial

/-- **Ghosts.** In a run of insertions of untracked keys, touches, removals and
evictions: in every state on the way the ghost deque has no duplicates, its elements are
the keys of the ghost set, and an eviction leaves it with at most `max 16 len` elements
after each `push_ghost`, exactly when no insertion of the run is of a ghost. -/
theorem ghosts_agree (metaHasher ghostHasher : Bytes → UInt64) (ops : List PolOp) {l : Log}
    (h : Lts.run (stepBy remove) (.fresh metaHasher ghostHasher) ops = some l) :
    (∀ t : Log, Lts.Reached (stepBy remove) (.fresh metaHasher ghostHasher) ops t →
      Remembers t.pol.ghost t.pol.ghostSet ∧ t.pol.Capped) ↔
    Lts.Along (stepBy remove) NotGhost (.fresh metaHasher ghostHasher) ops := by
  have hfresh : (Log.fresh metaHasher ghostHasher).pol.Ghosts :=
    ⟨new_inv metaHasher ghostHasher, List.nodup_nil, fun k => by simp [Log.fresh, new]⟩
  rw [← Lts.reached_iff (fun _ _ _ hi hs => stepBy_ghosts hi hs) hfresh h]
  refine forall_congr' fun t => imp_congr_right fun hr => ?_
  obtain ⟨pre, -, hpre⟩ := hr
  have hi : t.pol.Inv := run_policy_inv metaHasher ghostHasher hpre
  exact ⟨fun hg => ⟨hi, hg.1⟩, fun hg => ⟨hg.2, hg.capped⟩⟩

/-- Two keys are evicted; one of them was removed and inserted before that. -/
def evictTwo : List PolOp :=
  [.insert (lit "a"), .remove (lit "a"), .insert (lit "a"), .insert (lit "b"), .evictOne,
    .touch (lit "b"), .evictOne]

theorem ghosts_agree_evictTwo :
    ∃ l, Lts.run (stepBy remove) (.fresh (fun _ => 0) fun _ => 0) evictTwo = some l ∧
      l.pol.ghost = [lit "a", lit "b"] ∧ Remembers l.pol.ghost l.pol.ghostSet ∧ l.pol.Capped := by
  have hq : (Lts.run (stepBy remove) (.fresh (fun _ => 0) fun _ => 0) evictTwo).map (·.pol.ghost) =
      some [lit "a", lit "b"] := by decide +kernel
  obtain ⟨l, hl, hg⟩ := Option.map_eq_some_iff.1 hq
  exact ⟨l, hl, hg, (ghosts_agree (fun _ => 0) (fun _ => 0) evictTwo hl).2 (by decide +kernel) l
    ⟨evictTwo, List.prefix_rfl, hl⟩⟩

/-- A key is inserted and evicted, comes back into the main queue, is removed, and so on. -/
def comeBack : Nat → List PolOp
  | 0 => []
  | n + 1 => [.insert (lit "x"), .evictOne, .insert (lit "x"), .remove (lit "x")] ++ comeBack n

/-- After `insert x`, `evict_one`, `insert x` the key is in the deque and not in the set;
once it is removed, inserted and evicted again it is in the deque twice; and the
deque grows past its cap while the set has one key. -/
theorem ghosts_drift :
    (Lts.run (stepBy remove) (.fresh (fun _ => 0) fun _ => 0)
      [.insert (lit "x"), .evictOne, .insert (lit "x")]).map
        (fun l => (l.pol.ghost, l.pol.ghostSet.get (lit "x"))) = some ([lit "x"], none) ∧
      (Lts.run (stepBy remove) (.fresh (fun _ => 0) fun _ => 0)
          (comeBack 1 ++ [.insert (lit "x"), .evictOne])).map (·.pol.ghost) =
            some [lit "x", lit "x"] ∧
      (Lts.run (stepBy remove) (.fresh (fun _ => 0) fun _ => 0)
          (comeBack 16 ++ [.insert (lit "x"), .evictOne])).map
            (fun l => (l.pol.ghost.length, max 16 l.pol.len)) =
        some (17, 16) := by
  decide +kernel

end Inmem.L2.S3Fifo
