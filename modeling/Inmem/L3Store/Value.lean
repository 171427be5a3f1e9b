import Inmem.L1Encoding.Bytes
import Mathlib.Data.Finmap
import Mathlib.Data.List.Lex
import Mathlib.Data.List.Sort
import Mathlib.Data.Multiset.Sort
import Mathlib.Data.Prod.Lex

/-!
# Stored values

The value types of `crates/core/src/store.rs`.

* Scores are `f64` ordered by `total_cmp`. `Score σ` collects what the code
  uses of them: the total order, the tests and conversions of `fmt_score`, and
  `parse`. The last three fields are the only facts about floating point that
  the development relies on; they say that the text of an integer score reads
  back as that score. Equality on `σ` is equality of bits.
* A `HashMap` is a finite map, a `HashSet` a finite set; in what order they are
  iterated is left to the environment (`Env` in `Shard`).
* A `BTreeSet` is its strictly increasing list. `RawZSet` is the pair of
  indexes a sorted set keeps, `ZSet` the pairs that agree; `insert` and `remove`
  keep the agreement.
-/
namespace Inmem.L3

open Inmem.L1 Inmem.Core.Decimal

instance byteOrder : LinearOrder UInt8 where
  le_refl _ := UInt8.le_refl _
  le_trans _ _ _ := UInt8.le_trans
  le_antisymm _ _ := UInt8.le_antisymm
  le_total := UInt8.le_total
  lt_iff_le_not_ge _ _ := by simp only [UInt8.lt_iff_toNat_lt, UInt8.le_iff_toNat_le]; omega
  toDecidableLE := inferInstance
  toDecidableEq := inferInstance
  toDecidableLT := inferInstance

/-- What the code uses of `f64`. -/
class Score (σ : Type) extends LinearOrder σ where
  /-- `==` -/
  feq : σ → σ → Bool
  /-- `f64::trunc` -/
  trunc : σ → σ
  /-- `f64::is_finite` -/
  isFinite : σ → Bool
  /-- `s as i64`, which saturates -/
  asI64 : σ → Int
  /-- `format!("{s}")` -/
  display : σ → Bytes
  /-- `str::from_utf8(b).ok().and_then(|s| s.parse::<f64>().ok())` -/
  parse : Bytes → Option σ
  /-- the integer a score is, if it is one (negative zero is not) -/
  toInt : σ → Option Int
  toInt_whole : ∀ s n, toInt s = some n → feq s (trunc s) = true ∧ isFinite s = true
  toInt_asI64 : ∀ s n, toInt s = some n → InI64 n → asI64 s = n
  toInt_parse : ∀ s n, toInt s = some n → parse (intText n) = some s

/-- mirrors crates/core/src/store.rs:912-918 -/
def fmtScore {σ : Type} [Score σ] (s : σ) : Bytes :=
  if Score.feq s (Score.trunc s) && Score.isFinite s then intText (Score.asI64 s)
  else Score.display s

/-- The text of an integer score in the `i64` range reads back as the score. -/
theorem parse_fmtScore {σ : Type} [Score σ] {s : σ} {n : Int} (h : Score.toInt s = some n)
    (hn : InI64 n) : Score.parse (fmtScore s) = some s := by
  obtain ⟨h1, h2⟩ := Score.toInt_whole s n h
  rw [fmtScore, h1, h2, Score.toInt_asI64 s n h hn]
  exact Score.toInt_parse s n h

/-- The score that the text of a score is read back as. -/
def readBack {σ : Type} [Score σ] (s : σ) : σ := (Score.parse (fmtScore s)).getD s

theorem readBack_int {σ : Type} [Score σ] {s : σ} {n : Int} (h : Score.toInt s = some n)
    (hn : InI64 n) : readBack s = s := by
  rw [readBack, parse_fmtScore h hn, Option.getD_some]

/-- Integers as scores: what `f64` is on the integers it represents exactly. -/
instance : Score Int where
  feq a b := a == b
  trunc := id
  isFinite _ := true
  asI64 s := max i64Min (min s i64Max)
  display := intText
  parse := readInt
  toInt := some
  toInt_whole s n _ := by simp
  toInt_asI64 s n h hn := by
    obtain ⟨h1, h2⟩ := hn
    cases h; omega
  toInt_parse s n h := by cases h; exact readInt_intText s

/-! ## Sorted sets -/

/-- An element of the ordered index: compared by score, then by member. -/
abbrev Ranked (σ : Type) := σ ×ₗ Bytes

section
variable {α : Type} [LinearOrder α]

/-- `BTreeSet::insert` -/
def btInsert (x : α) (l : List α) : List α := if x ∈ l then l else l.orderedInsert (· ≤ ·) x

/-- `BTreeSet::remove` -/
def btRemove (x : α) (l : List α) : List α := l.erase x

theorem mem_btInsert {x y : α} {l : List α} : y ∈ btInsert x l ↔ y = x ∨ y ∈ l := by
  unfold btInsert
  split
  · rename_i h
    exact ⟨.inr, fun h' => h'.elim (fun e => e ▸ h) id⟩
  · exact List.mem_orderedInsert _

theorem btInsert_sorted {x : α} {l : List α} (h : l.Pairwise (· < ·)) :
    (btInsert x l).Pairwise (· < ·) := by
  unfold btInsert
  split
  · exact h
  · rename_i hx
    have h1 : (l.orderedInsert (· ≤ ·) x).Pairwise (· ≤ ·) :=
      (h.imp le_of_lt).orderedInsert x l
    have h2 : (l.orderedInsert (· ≤ ·) x).Nodup :=
      (List.perm_orderedInsert _ x l).nodup_iff.2 (List.nodup_cons.2 ⟨hx, h.imp ne_of_lt⟩)
    exact h1.imp₂ (fun _ _ hle hne => lt_of_le_of_ne hle hne) h2

theorem mem_btRemove {x y : α} {l : List α} (h : l.Pairwise (· < ·)) :
    y ∈ btRemove x l ↔ y ≠ x ∧ y ∈ l :=
  List.Nodup.mem_erase_iff (h.imp ne_of_lt)

theorem btRemove_sorted {x : α} {l : List α} (h : l.Pairwise (· < ·)) :
    (btRemove x l).Pairwise (· < ·) :=
  h.sublist List.erase_sublist

end

/-- mirrors crates/core/src/store.rs:47-50 -/
structure RawZSet (σ : Type) where
  scores : Finmap fun _ : Bytes => σ
  sorted : List (Ranked σ)

namespace RawZSet

variable {σ : Type} [Score σ]

/-- mirrors crates/core/src/store.rs:57-69 -/
def insert (z : RawZSet σ) (member : Bytes) (score : σ) : Bool × RawZSet σ :=
  let scores := z.scores.insert member score
  match z.scores.lookup member with
  | some old =>
    (false, { scores,
              sorted :=
                btInsert (toLex (score, member)) (btRemove (toLex (old, member)) z.sorted) })
  | none => (true, { scores, sorted := btInsert (toLex (score, member)) z.sorted })

/-- mirrors crates/core/src/store.rs:70-77 -/
def remove (z : RawZSet σ) (member : Bytes) : Bool × RawZSet σ :=
  match z.scores.lookup member with
  | some score =>
    (true, { scores := z.scores.erase member, sorted := btRemove (toLex (score, member)) z.sorted })
  | none => (false, z)

theorem insert_fst (z : RawZSet σ) (m : Bytes) (s : σ) :
    (z.insert m s).1 = (z.scores.lookup m).isNone := by
  unfold insert
  cases z.scores.lookup m <;> rfl

theorem insert_scores (z : RawZSet σ) (m : Bytes) (s : σ) :
    (z.insert m s).2.scores = z.scores.insert m s := by
  unfold insert
  cases z.scores.lookup m <;> rfl

theorem remove_fst (z : RawZSet σ) (m : Bytes) : (z.remove m).1 = (z.scores.lookup m).isSome := by
  unfold remove
  cases z.scores.lookup m <;> rfl

theorem remove_scores (z : RawZSet σ) (m : Bytes) : (z.remove m).2.scores = z.scores.erase m := by
  unfold remove
  cases h : z.scores.lookup m with
  | some s => rfl
  | none =>
    refine (Finmap.ext_lookup fun k => ?_).symm
    by_cases hk : k = m
    · rw [hk, Finmap.lookup_erase, h]
    · rw [Finmap.lookup_erase_ne hk]

/-- The two indexes agree. -/
structure Inv (z : RawZSet σ) : Prop where
  sorted : z.sorted.Pairwise (· < ·)
  agree : ∀ s m, toLex (s, m) ∈ z.sorted ↔ z.scores.lookup m = some s

theorem insert_inv {z : RawZSet σ} (h : z.Inv) (member : Bytes) (score : σ) :
    (z.insert member score).2.Inv := by
  unfold insert
  cases hl : z.scores.lookup member with
  | none =>
    refine ⟨btInsert_sorted h.sorted, fun s m => ?_⟩
    simp only [mem_btInsert, h.agree, EmbeddingLike.apply_eq_iff_eq, Prod.mk.injEq]
    by_cases hm : m = member
    · subst hm; simp [hl, Finmap.lookup_insert, eq_comm]
    · simp [hm, Finmap.lookup_insert_of_ne _ hm]
  | some old =>
    refine ⟨btInsert_sorted (btRemove_sorted h.sorted), fun s m => ?_⟩
    simp only [mem_btInsert, mem_btRemove h.sorted, h.agree, ne_eq, EmbeddingLike.apply_eq_iff_eq,
      Prod.mk.injEq]
    by_cases hm : m = member
    · subst hm
      simp only [hl, Finmap.lookup_insert, and_true, Option.some.injEq]
      constructor
      · rintro (rfl | ⟨h1, rfl⟩)
        · rfl
        · exact absurd rfl h1
      · rintro rfl; exact .inl rfl
    · simp [hm, Finmap.lookup_insert_of_ne _ hm]

theorem remove_inv {z : RawZSet σ} (h : z.Inv) (member : Bytes) : (z.remove member).2.Inv := by
  unfold remove
  cases hl : z.scores.lookup member with
  | none => exact h
  | some score =>
    refine ⟨btRemove_sorted h.sorted, fun s m => ?_⟩
    simp only [mem_btRemove h.sorted, h.agree, ne_eq, EmbeddingLike.apply_eq_iff_eq, Prod.mk.injEq]
    by_cases hm : m = member
    · subst hm
      simp only [hl, Finmap.lookup_erase, and_true, Option.some.injEq, reduceCtorEq, iff_false,
        not_and]
      rintro h1 rfl; exact h1 rfl
    · simp [hm, Finmap.lookup_erase_ne hm]

end RawZSet

/-- A sorted set whose two indexes agree. -/
def ZSet (σ : Type) [Score σ] := { z : RawZSet σ // z.Inv }

/-- `i64` addition in a release build. -/
def wrapI64 (z : Int) : Int := z.bmod (2 ^ 64)

/-- The rank window of `ZSet::range` over the ordered index,
mirrors crates/core/src/store.rs:83-104 -/
def rankRange {σ : Type} (sorted : List (Ranked σ)) (start stop : Int) : List (Bytes × σ) :=
  let n : Int := sorted.length
  if n = 0 then []
  else
    let norm (i : Int) : Int := if i < 0 then max (wrapI64 (n + i)) 0 else min i (n - 1)
    let s := norm start
    let e := norm stop
    if s > e then []
    else ((sorted.drop s.toNat).take (e - s + 1).toNat).map fun p => ((ofLex p).2, (ofLex p).1)

/-- The members of a score map in rank order. -/
def rankList {σ : Type} [Score σ] (scores : Finmap fun _ : Bytes => σ) : List (Ranked σ) :=
  (scores.entries.map fun p => toLex (p.2, p.1)).sort (· ≤ ·)

namespace ZSet

variable {σ : Type} [Score σ] (z : ZSet σ)

/-- `ZSet::default()` -/
def empty : ZSet σ := ⟨⟨∅, []⟩, ⟨.nil, fun s m => by simp⟩⟩

def scores : Finmap fun _ : Bytes => σ := z.1.scores

def sorted : List (Ranked σ) := z.1.sorted

/-- mirrors crates/core/src/store.rs:53-55 -/
def len : Nat := z.scores.keys.card

def insert (member : Bytes) (score : σ) : Bool × ZSet σ :=
  ((z.1.insert member score).1, ⟨(z.1.insert member score).2, RawZSet.insert_inv z.2 member score⟩)

def remove (member : Bytes) : Bool × ZSet σ :=
  ((z.1.remove member).1, ⟨(z.1.remove member).2, RawZSet.remove_inv z.2 member⟩)

/-- mirrors crates/core/src/store.rs:78-80 -/
def score (member : Bytes) : Option σ := z.scores.lookup member

/-- mirrors crates/core/src/store.rs:83-104 -/
def range (start stop : Int) : List (Bytes × σ) := rankRange z.sorted start stop

/-- mirrors crates/core/src/store.rs:105-107 -/
def bytes : Nat := (z.scores.entries.map fun p => p.1.length + 8 + 24).sum

@[simp] theorem scores_empty : (empty : ZSet σ).scores = ∅ := rfl

@[simp] theorem insert_fst (m : Bytes) (s : σ) : (z.insert m s).1 = (z.scores.lookup m).isNone :=
  RawZSet.insert_fst z.1 m s

@[simp] theorem scores_insert (m : Bytes) (s : σ) : (z.insert m s).2.scores = z.scores.insert m s :=
  RawZSet.insert_scores z.1 m s

@[simp] theorem remove_fst (m : Bytes) : (z.remove m).1 = (z.scores.lookup m).isSome :=
  RawZSet.remove_fst z.1 m

@[simp] theorem scores_remove (m : Bytes) : (z.remove m).2.scores = z.scores.erase m :=
  RawZSet.remove_scores z.1 m

theorem mem_sorted {s : σ} {m : Bytes} : toLex (s, m) ∈ z.sorted ↔ z.scores.lookup m = some s :=
  z.2.agree s m

/-- The ordered index is determined by the scores. -/
theorem sorted_eq : z.sorted = rankList z.scores := by
  have hinj : (z.scores.entries.map fun p => (toLex (p.2, p.1) : Ranked σ)).Nodup := by
    refine Multiset.Nodup.map_on ?_ z.scores.nodupKeys.nodup
    rintro ⟨a, b⟩ - ⟨c, d⟩ - h
    simp only [EmbeddingLike.apply_eq_iff_eq, Prod.mk.injEq] at h
    obtain ⟨rfl, rfl⟩ := h; rfl
  have hnd : z.sorted.Nodup := z.2.sorted.imp ne_of_lt
  have hnd' : (rankList z.scores).Nodup := by
    rw [← Multiset.coe_nodup]
    unfold rankList
    rw [Multiset.sort_eq]; exact hinj
  have hperm : z.sorted.Perm (rankList z.scores) := by
    rw [List.perm_ext_iff_of_nodup hnd hnd']
    intro x
    obtain ⟨⟨s, m⟩, rfl⟩ : ∃ p, x = toLex p := ⟨ofLex x, rfl⟩
    unfold rankList
    rw [mem_sorted, Multiset.mem_sort, Multiset.mem_map, Finmap.lookup_eq_some_iff]
    constructor
    · intro h; exact ⟨⟨m, s⟩, h, rfl⟩
    · rintro ⟨⟨a, b⟩, h, h2⟩
      simp only [EmbeddingLike.apply_eq_iff_eq, Prod.mk.injEq] at h2
      obtain ⟨rfl, rfl⟩ := h2; exact h
  exact hperm.eq_of_pairwise (fun _ _ _ _ => le_antisymm) (z.2.sorted.imp le_of_lt)
    (Multiset.pairwise_sort _ _)

/-- A sorted set is determined by its scores. -/
theorem ext_scores {z z' : ZSet σ} (h : z.scores = z'.scores) : z = z' := by
  have hs : z.sorted = z'.sorted := by rw [sorted_eq, sorted_eq, h]
  apply Subtype.ext
  unfold scores at h
  unfold sorted at hs
  cases hz : z.1; cases hz' : z'.1
  simp_all

end ZSet

/-! ## Values -/

/-- mirrors crates/core/src/store.rs:112-118 -/
inductive Value (σ : Type) [Score σ]
  | str (b : Bytes)
  | list (l : List Bytes)
  | hash (h : Finmap fun _ : Bytes => Bytes)
  | set (s : Finset Bytes)
  | zset (z : ZSet σ)

/-- The `TYPE` names. -/
inductive TypeName
  | none
  | string
  | list
  | hash
  | set
  | zset
  deriving DecidableEq, Repr

/-- mirrors crates/core/src/store.rs:122-130 and 420, 426 -/
def TypeName.text : TypeName → Bytes
  | .none => lit "none"
  | .string => lit "string"
  | .list => lit "list"
  | .hash => lit "hash"
  | .set => lit "set"
  | .zset => lit "zset"

namespace Value

variable {σ : Type} [Score σ]

/-- mirrors crates/core/src/store.rs:122-130 -/
def typeName : Value σ → TypeName
  | str _ => .string
  | list _ => .list
  | hash _ => .hash
  | set _ => .set
  | zset _ => .zset

/-- mirrors crates/core/src/store.rs:132-140 -/
def bytes : Value σ → Nat
  | str s => s.length
  | list l => (l.map fun e => e.length + 16).sum
  | hash h => (h.entries.map fun p => p.1.length + p.2.length + 32).sum
  | set s => s.sum fun m => m.length + 16
  | zset z => z.bytes

end Value

end Inmem.L3
