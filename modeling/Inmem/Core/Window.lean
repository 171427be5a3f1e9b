import Mathlib.Data.List.Basic

/-!
# Windows of a list

`window l lo hi` are the elements of `l` at the indices from `lo` to `hi`; the
bounds are integers and may lie outside the list. An index that counts from the
end when it is negative is turned into a position by `position`.

* `window_eq`: the window, cut out with `drop` and `take`.
* `window_eq_nil`: when it is empty.
* `span_past`: from past the end on there is nothing.
-/
namespace Inmem.Core.Window

variable {α : Type}

/-- The elements at the indices from `lo` to `hi`. -/
def window (l : List α) (lo hi : Int) : List α :=
  (l.zipIdx.filter fun p => decide (lo ≤ p.2) && decide (p.2 ≤ hi)).map Prod.fst

/-- The position that an index of a list of `n` elements stands for. -/
def position (n i : Int) : Int := if 0 ≤ i then i else n + i

/-- The elements from one index to another, either of which may count from the end. -/
def span (l : List α) (start stop : Int) : List α :=
  window l (max 0 (position l.length start)) (min (l.length - 1) (position l.length stop))

theorem window_from (l : List α) (lo hi : Int) : ∀ i : Nat,
    ((l.zipIdx i).filter fun p => decide (lo ≤ p.2) && decide (p.2 ≤ hi)).map Prod.fst =
      (l.drop (lo - i).toNat).take (hi + 1 - max lo i).toNat := by
  induction l with
  | nil => intro i; simp
  | cons a l ih =>
    intro i
    rw [List.zipIdx_cons, List.filter_cons]
    by_cases hlo : lo ≤ i
    · rw [show (lo - i).toNat = 0 by omega, List.drop_zero]
      by_cases hhi : (i : Int) ≤ hi
      · -- inside: this element and the rest of the window
        rw [if_pos (by simp [hlo, hhi]), List.map_cons, ih (i + 1)]
        rw [show (lo - (i + 1 : Nat)).toNat = 0 by omega, List.drop_zero,
          show (hi + 1 - max lo i).toNat =
            (hi + 1 - max lo (i + 1 : Nat)).toNat + 1 by omega, List.take_succ_cons]
      · -- past the window
        rw [if_neg (by simp [hhi]), ih (i + 1)]
        rw [show (hi + 1 - max lo i).toNat = 0 by omega,
          show (hi + 1 - max lo (i + 1 : Nat)).toNat = 0 by omega]
        simp
    · -- before the window
      rw [if_neg (by simp [hlo]), ih (i + 1)]
      rw [show (lo - i).toNat = (lo - (i + 1 : Nat)).toNat + 1 by omega, List.drop_succ_cons,
        show max lo (i : Int) = max lo (i + 1 : Nat) by omega]

/-- A window that does not start before the list, cut out. -/
theorem window_eq (l : List α) {lo : Int} (hi : Int) (h : 0 ≤ lo) :
    window l lo hi = (l.drop lo.toNat).take (hi - lo + 1).toNat := by
  have hw := window_from l lo hi 0
  rw [show lo - ((0 : Nat) : Int) = lo by omega, show max lo ((0 : Nat) : Int) = lo by omega,
    show hi + 1 - lo = hi - lo + 1 by omega] at hw
  exact hw

theorem window_eq_nil (l : List α) {lo hi : Int} (h : 0 ≤ lo) :
    window l lo hi = [] ↔ hi < lo ∨ l.length ≤ lo := by
  rw [window_eq l hi h, List.take_eq_nil_iff, List.drop_eq_nil_iff]
  omega

/-- Nothing lies past the end. -/
theorem span_past (l : List α) {start : Int} (stop : Int) (h : l.length ≤ start) :
    span l start stop = [] := by
  have h0 : 0 ≤ start := by omega
  refine (window_eq_nil l (by omega)).2 (.inr ?_)
  rw [position, if_pos h0]
  omega

end Inmem.Core.Window
