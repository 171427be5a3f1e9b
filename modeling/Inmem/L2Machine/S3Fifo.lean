import Inmem.L2Machine.FlatMapRefine

/-!
# The S3-FIFO eviction policy

`crates/core/src/s3fifo.rs`: a small and a main FIFO queue with lazy
deletion, a ghost queue of recently evicted keys, and a frequency counter per
tracked key.

`evict_one` loops until it finds a victim. `evictLoop` is that loop with fuel
and `evictLoop_ends` shows that `effort s + 1` rounds are enough from every
state, so `evictOne` is total: a stale skip or a promotion shortens the small
queue, a stale skip shortens the main queue, a second chance lowers a
frequency, and a drained queue has its count reset.
-/
namespace Inmem.L2

open Inmem.L1

/-- mirrors crates/core/src/s3fifo.rs:20-23 -/
def PROMOTE_THRESHOLD : Nat := 1
def FREQ_MAX : Nat := 3
def SMALL_PCT : Nat := 10

/-- mirrors crates/core/src/s3fifo.rs:26-29 -/
inductive Loc
  | small
  | main
  deriving DecidableEq, Repr

/-- mirrors crates/core/src/s3fifo.rs:32-35 -/
structure Meta where
  freq : Nat
  loc : Loc
  deriving DecidableEq, Repr

/-- mirrors crates/core/src/s3fifo.rs:37-47 -/
structure S3Fifo where
  small : List Bytes
  main : List Bytes
  ghost : List Bytes
  metas : FlatMap Meta
  ghostSet : FlatMap Unit
  smallCount : Nat
  mainCount : Nat

namespace S3Fifo

/-- mirrors crates/core/src/s3fifo.rs:56-66; the two tables draw their own hashers. -/
def new (metaHasher ghostHasher : Bytes → UInt64) : S3Fifo :=
  { small := [], main := [], ghost := [], metas := FlatMap.new metaHasher,
    ghostSet := FlatMap.new ghostHasher, smallCount := 0, mainCount := 0 }

/-- mirrors crates/core/src/s3fifo.rs:70-72 -/
def len (s : S3Fifo) : Nat := s.smallCount + s.mainCount

/-- mirrors crates/core/src/s3fifo.rs:81-104 -/
def insert (s : S3Fifo) (key : Bytes) : S3Fifo :=
  let g := s.ghostSet.remove key
  let s := { s with ghostSet := g.2 }
  if g.1.isSome then
    { s with metas := s.metas.insert key ⟨0, .main⟩, main := s.main ++ [key],
             mainCount := s.mainCount + 1 }
  else
    { s with metas := s.metas.insert key ⟨0, .small⟩, small := s.small ++ [key],
             smallCount := s.smallCount + 1 }

/-- mirrors crates/core/src/s3fifo.rs:108-112 -/
def touch (s : S3Fifo) (key : Bytes) : S3Fifo :=
  { s with metas := s.metas.getMut key fun m => { m with freq := min (m.freq + 1) FREQ_MAX } }

/-- mirrors crates/core/src/s3fifo.rs:115-123 -/
def remove (s : S3Fifo) (key : Bytes) : S3Fifo :=
  let r := s.metas.remove key
  let s := { s with metas := r.2 }
  match r.1 with
  | none => s
  | some ⟨_, .small⟩ => { s with smallCount := s.smallCount - 1 }
  | some ⟨_, .main⟩ => { s with mainCount := s.mainCount - 1 }

/-- The trimming loop of `push_ghost`, mirrors crates/core/src/s3fifo.rs:217-223 -/
def trimGhost (cap : Nat) : List Bytes → FlatMap Unit → List Bytes × FlatMap Unit
  | [], g => ([], g)
  | old :: rest, g => if cap < g.len then trimGhost cap rest (g.remove old).2 else (old :: rest, g)

/-- mirrors crates/core/src/s3fifo.rs:212-224 -/
def pushGhost (s : S3Fifo) (key : Bytes) : S3Fifo :=
  let r := trimGhost (max s.len 16) (s.ghost ++ [key]) (s.ghostSet.insert key ())
  { s with ghost := r.1, ghostSet := r.2 }

/-- mirrors crates/core/src/s3fifo.rs:156-184 -/
def stepSmall (s : S3Fifo) : Option Bytes × S3Fifo :=
  match s.small with
  | [] => (none, { s with smallCount := 0 })
  | k :: rest =>
    let s := { s with small := rest }
    match s.metas.get k with
    | none => (none, s)
    | some m =>
      if m.loc ≠ .small then (none, s)
      else if m.freq > PROMOTE_THRESHOLD then
        (none, { s with metas := s.metas.getMut k fun _ => ⟨0, .main⟩,
                        smallCount := s.smallCount - 1, mainCount := s.mainCount + 1, main :=
                          s.main ++ [k] })
      else
        (some k,
          pushGhost { s with metas := (s.metas.remove k).2, smallCount := s.smallCount - 1 } k)

/-- mirrors crates/core/src/s3fifo.rs:187-210 -/
def stepMain (s : S3Fifo) : Option Bytes × S3Fifo :=
  match s.main with
  | [] => (none, { s with mainCount := 0 })
  | k :: rest =>
    let s := { s with main := rest }
    match s.metas.get k with
    | none => (none, s)
    | some m =>
      if m.loc ≠ .main then (none, s)
      else if m.freq > 0 then
        (none, { s with metas := s.metas.getMut k fun m => { m with freq := m.freq - 1 },
                        main := s.main ++ [k] })
      else (some k, { s with metas := (s.metas.remove k).2, mainCount := s.mainCount - 1 })

/-- mirrors crates/core/src/s3fifo.rs:140-142 -/
def useSmall (s : S3Fifo) : Bool :=
  s.mainCount == 0 ||
    (0 < s.smallCount && s.smallCount * 100 ≥ (s.smallCount + s.mainCount) * SMALL_PCT)

/-- The loop of `evict_one`; the outer `none` stands for fuel that ran out.
mirrors crates/core/src/s3fifo.rs:133-153 -/
def evictLoop : Nat → S3Fifo → Option (Option Bytes × S3Fifo)
  | 0, _ => none
  | f + 1, s =>
    if s.smallCount = 0 ∧ s.mainCount = 0 then some (none, s)
    else
      let r := if s.useSmall then s.stepSmall else s.stepMain
      match r.1 with
      | some victim => some (some victim, r.2)
      | none => evictLoop f r.2

/-- What a round of the loop without a victim lowers. -/
def effort (s : S3Fifo) : Nat :=
  2 * s.small.length + s.main.length + s.metas.total Meta.freq + min s.smallCount 1 +
    min s.mainCount 1

/-- What one step on the small queue does: a drained queue, a stale reference, a
promotion or an eviction. -/
theorem stepSmall_cases (s : S3Fifo) :
    (s.small = [] ∧ s.stepSmall = (none, { s with smallCount := 0 })) ∨
    (∃ k rest, s.small = k :: rest ∧ (∀ m, s.metas.get k = some m → m.loc ≠ .small) ∧
      s.stepSmall = (none, { s with small := rest })) ∨
    (∃ k rest m, s.small = k :: rest ∧ s.metas.get k = some m ∧ m.loc = .small ∧
      PROMOTE_THRESHOLD < m.freq ∧ s.stepSmall = (none,
        { s with small := rest, metas := s.metas.getMut k fun _ => ⟨0, .main⟩,
                 smallCount := s.smallCount - 1, mainCount := s.mainCount + 1, main :=
                   s.main ++ [k] })) ∨
    ∃ k rest m, s.small = k :: rest ∧ s.metas.get k = some m ∧ m.loc = .small ∧
      s.stepSmall = (some k,
        pushGhost { s with small := rest, metas := (s.metas.remove k).2,
                           smallCount := s.smallCount - 1 } k) := by
  unfold stepSmall
  cases hs : s.small with
  | nil => exact .inl ⟨rfl, rfl⟩
  | cons k rest =>
    refine .inr ?_
    dsimp only
    cases hm : s.metas.get k with
    | none => exact .inl ⟨k, rest, rfl, by simp [hm], rfl⟩
    | some m =>
      dsimp only
      by_cases h1 : m.loc = .small
      · rw [if_neg (not_not.2 h1)]
        by_cases h2 : m.freq > PROMOTE_THRESHOLD
        · rw [if_pos h2]; exact .inr (.inl ⟨k, rest, m, rfl, hm, h1, h2, rfl⟩)
        · rw [if_neg h2]; exact .inr (.inr ⟨k, rest, m, rfl, hm, h1, rfl⟩)
      · rw [if_pos h1]
        exact .inl ⟨k, rest, rfl, fun m' h' => by rw [hm] at h'; cases h'; exact h1, rfl⟩

/-- What one step on the main queue does: a drained queue, a stale reference, a
second chance or an eviction. -/
theorem stepMain_cases (s : S3Fifo) :
    (s.main = [] ∧ s.stepMain = (none, { s with mainCount := 0 })) ∨
    (∃ k rest, s.main = k :: rest ∧ (∀ m, s.metas.get k = some m → m.loc ≠ .main) ∧
      s.stepMain = (none, { s with main := rest })) ∨
    (∃ k rest m, s.main = k :: rest ∧ s.metas.get k = some m ∧ m.loc = .main ∧ 0 < m.freq ∧
      s.stepMain = (none,
        { s with metas := s.metas.getMut k fun m => { m with freq := m.freq - 1 },
                 main := rest ++ [k] })) ∨
    ∃ k rest m, s.main = k :: rest ∧ s.metas.get k = some m ∧ m.loc = .main ∧
      s.stepMain =
        (some k,
          { s with main := rest, metas := (s.metas.remove k).2,
                   mainCount := s.mainCount - 1 }) := by
  unfold stepMain
  cases hs : s.main with
  | nil => exact .inl ⟨rfl, rfl⟩
  | cons k rest =>
    refine .inr ?_
    dsimp only
    cases hm : s.metas.get k with
    | none => exact .inl ⟨k, rest, rfl, by simp [hm], rfl⟩
    | some m =>
      dsimp only
      by_cases h1 : m.loc = .main
      · rw [if_neg (not_not.2 h1)]
        by_cases h2 : m.freq > 0
        · rw [if_pos h2]; exact .inr (.inl ⟨k, rest, m, rfl, hm, h1, h2, rfl⟩)
        · rw [if_neg h2]; exact .inr (.inr ⟨k, rest, m, rfl, hm, h1, rfl⟩)
      · rw [if_pos h1]
        exact .inl ⟨k, rest, rfl, fun m' h' => by rw [hm] at h'; cases h'; exact h1, rfl⟩

theorem stepSmall_effort {s s' : S3Fifo} (h0 : 0 < s.smallCount) (h : s.stepSmall = (none, s')) :
    s'.effort < s.effort := by
  rcases s.stepSmall_cases with ⟨-, e⟩ | ⟨k, rest, hs, -, e⟩ | ⟨k, rest, m, hs, hm, -, hf, e⟩ |
    ⟨k, rest, m, -, -, -, e⟩
  · cases e.symm.trans h; simp only [effort]; omega
  · cases e.symm.trans h; simp only [effort, hs, List.length_cons]; omega
  · cases e.symm.trans h
    have hsum := FlatMap.total_getMut hm (fun _ => ⟨0, .main⟩) Meta.freq
    simp only [effort, hs, List.length_cons, List.length_append, List.length_nil] at hsum ⊢
    rw [PROMOTE_THRESHOLD] at hf
    omega
  · cases e.symm.trans h

theorem stepMain_effort {s s' : S3Fifo} (h0 : 0 < s.mainCount) (h : s.stepMain = (none, s')) :
    s'.effort < s.effort := by
  rcases s.stepMain_cases with ⟨-, e⟩ | ⟨k, rest, hs, -, e⟩ | ⟨k, rest, m, hs, hm, -, hf, e⟩ |
    ⟨k, rest, m, -, -, -, e⟩
  · cases e.symm.trans h; simp only [effort]; omega
  · cases e.symm.trans h; simp only [effort, hs, List.length_cons]; omega
  · cases e.symm.trans h
    have hsum := FlatMap.total_getMut hm (fun m => { m with freq := m.freq - 1 }) Meta.freq
    simp only [effort, hs, List.length_cons, List.length_append, List.length_nil] at hsum ⊢
    omega
  · cases e.symm.trans h

theorem evictLoop_ends (f : Nat) : ∀ s : S3Fifo, s.effort < f → (evictLoop f s).isSome := by
  induction f with
  | zero => intro s h; omega
  | succ f ih =>
    intro s h
    unfold evictLoop
    split
    · rfl
    · rename_i hne
      dsimp only
      split
      · rfl
      · rename_i hnone
        apply ih
        by_cases hu : s.useSmall = true
        · simp only [hu, if_true] at hnone ⊢
          have h0 : 0 < s.smallCount := by
            rw [useSmall] at hu
            simp only [Bool.or_eq_true, beq_iff_eq, Bool.and_eq_true, decide_eq_true_eq] at hu
            omega
          have := stepSmall_effort h0 (Prod.ext hnone rfl : s.stepSmall = (none, s.stepSmall.2))
          omega
        · simp only [hu, if_false, Bool.false_eq_true] at hnone ⊢
          have h0 : 0 < s.mainCount := by
            rw [useSmall] at hu
            simp only [Bool.or_eq_true, beq_iff_eq, not_or] at hu
            omega
          have := stepMain_effort h0 (Prod.ext hnone rfl : s.stepMain = (none, s.stepMain.2))
          omega

/-- mirrors crates/core/src/s3fifo.rs:133-153 -/
def evictOne (s : S3Fifo) : Option Bytes × S3Fifo :=
  (evictLoop (s.effort + 1) s).get (evictLoop_ends _ s (Nat.lt_succ_self _))

end S3Fifo

end Inmem.L2
