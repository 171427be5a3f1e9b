import Mathlib.Algebra.BigOperators.Group.Finset.Piecewise
import Mathlib.Data.Fintype.Basic

/-!
# Lists merged by a schedule

Each client has a list, and a schedule says which client is next to use an element of its
own: `merge` is what is used, in this order. `running` adds the elements up on the way.

* `merge_own`: of each list a front part is used, as long as the client has turns.
* `merge_sum`: when all the lists have been used up, the sum is that of all of them,
  whatever the schedule.
-/
namespace Inmem.Core.Merge

variable {I A : Type} [DecidableEq I]

/-- The elements in the order of a schedule; a client whose list is used up is passed over. -/
def merge (xs : I → List A) : List I → List (I × A)
  | [] => []
  | i :: sched =>
    match xs i with
    | [] => merge xs sched
    | a :: as => (i, a) :: merge (Function.update xs i as) sched

theorem merge_done {xs : I → List A} {i : I} (h : xs i = []) (sched : List I) :
    merge xs (i :: sched) = merge xs sched := by
  rw [merge, h]

theorem merge_next {xs : I → List A} {i : I} {a : A} {as : List A} (h : xs i = a :: as)
    (sched : List I) : merge xs (i :: sched) = (i, a) :: merge (Function.update xs i as) sched := by
  rw [merge, h]

/-- The elements of one client. -/
def ofClient {B : Type} (i : I) (l : List (I × B)) : List B :=
  (l.filter fun p => p.1 = i).map Prod.snd

theorem ofClient_self {B : Type} (i : I) (b : B) (l : List (I × B)) :
    ofClient i ((i, b) :: l) = b :: ofClient i l := by
  simp [ofClient]

theorem ofClient_other {B : Type} {i j : I} (h : j ≠ i) (b : B) (l : List (I × B)) :
    ofClient i ((j, b) :: l) = ofClient i l := by
  simp [ofClient, h]

/-- More actions of one client. -/
theorem ofClient_append_map {B : Type} (l : List (I × B)) (i j : I) (bs : List B) :
    ofClient j (l ++ bs.map (Prod.mk i)) = ofClient j l ++ if i = j then bs else [] := by
  unfold ofClient
  rw [List.filter_append, List.map_append]
  congr 1
  by_cases hij : i = j
  · subst hij
    simp [List.filter_map, Function.comp_def]
  · simp [List.filter_map, Function.comp_def, hij]

theorem merge_own (i : I) (sched : List I) :
    ∀ xs : I → List A, ofClient i (merge xs sched) = (xs i).take (sched.count i) := by
  induction sched with
  | nil => intro xs; simp [merge, ofClient]
  | cons j sched ih =>
    intro xs
    cases hj : xs j with
    | nil =>
      rw [merge_done hj, ih]
      by_cases hij : j = i
      · subst hij
        rw [hj, List.take_nil, List.take_nil]
      · rw [List.count_cons_of_ne hij]
    | cons a as =>
      rw [merge_next hj]
      by_cases hij : j = i
      · subst hij
        rw [ofClient_self, ih, Function.update_self, List.count_cons_self, hj, List.take_succ_cons]
      · rw [ofClient_other hij, ih, Function.update_of_ne (Ne.symm hij), List.count_cons_of_ne hij]

section
variable [AddCommMonoid A]

/-- A sum, client by client. -/
theorem sum_ofClient [Fintype I] (l : List (I × A)) :
    (l.map Prod.snd).sum = ∑ i, (ofClient i l).sum := by
  induction l with
  | nil => simp [ofClient]
  | cons p l ih =>
    have hstep : ∀ i, (ofClient i (p :: l)).sum =
        (if p.1 = i then p.2 else 0) + (ofClient i l).sum := by
      intro i
      by_cases h : p.1 = i
      · rw [if_pos h, ← h, show p = (p.1, p.2) from rfl, ofClient_self, List.sum_cons]
      · rw [if_neg h, zero_add, show p = (p.1, p.2) from rfl, ofClient_other h]
    rw [List.map_cons, List.sum_cons, ih, Finset.sum_congr rfl fun i _ => hstep i,
      Finset.sum_add_distrib, Finset.sum_ite_eq, if_pos (Finset.mem_univ _)]

theorem merge_sum [Fintype I] {xs : I → List A} {sched : List I}
    (h : ∀ i, (xs i).length ≤ sched.count i) :
    ((merge xs sched).map Prod.snd).sum = ∑ i, (xs i).sum := by
  rw [sum_ofClient]
  refine Finset.sum_congr rfl fun i _ => ?_
  rw [merge_own, List.take_of_length_le (h i)]

/-- The sums up to each element, from a first value on. -/
def running (n : A) : List (I × A) → List (I × A)
  | [] => []
  | p :: l => (p.1, n + p.2) :: running (n + p.2) l

end

end Inmem.Core.Merge
