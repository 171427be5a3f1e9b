import Mathlib.Tactic.Common
import Mathlib.Data.Nat.Bitwise

/-!
# Positions on a ring of `n` slots

Positions are naturals below `n`. `next` is the clockwise neighbour, `adv a k`
the position `k` steps after `a`, `dist a b` the number of steps from `a` to
`b`. All three are written with a comparison instead of `%`, so that linear
arithmetic decides what follows from them.

`and_mask`, `succ_and_mask`: on a ring of `2 ^ k` slots, masking with
`2 ^ k - 1` wraps an index and `(i + 1) &&& mask` is `next`.
-/
namespace Inmem.Core.Ring

def next (n i : Nat) : Nat := if i + 1 < n then i + 1 else 0

def adv (n a k : Nat) : Nat := if a + k < n then a + k else a + k - n

def dist (n a b : Nat) : Nat := if a ≤ b then b - a else b + n - a

variable {n a b c k : Nat}

theorem next_lt (h : 0 < n) : next n a < n := by unfold next; split <;> omega

@[simp] theorem adv_zero (ha : a < n) : adv n a 0 = a := by unfold adv; split <;> omega

theorem adv_next (ha : a < n) (hk : k < n) : adv n (next n a) k = adv n a (k + 1) := by
  unfold next adv; split <;> split <;> split <;> omega

theorem dist_lt (ha : a < n) (hb : b < n) : dist n a b < n := by unfold dist; split <;> omega

@[simp] theorem dist_self : dist n a a = 0 := by unfold dist; split <;> omega

theorem dist_eq_zero (ha : a < n) (h : dist n a b = 0) : a = b := by
  unfold dist at h; split at h <;> omega

theorem adv_dist (ha : a < n) (hb : b < n) : adv n a (dist n a b) = b := by
  unfold adv dist; split <;> split <;> omega

theorem dist_adv (ha : a < n) (hk : k < n) : dist n a (adv n a k) = k := by
  unfold adv dist; split <;> split <;> omega

theorem dist_next (ha : a < n) (hb : b < n) (h : next n b ≠ a) :
    dist n a (next n b) = dist n a b + 1 := by
  unfold next dist at *; split_ifs at * <;> omega

theorem dist_next_left (ha : a < n) (hb : b < n) (h : a ≠ b) :
    dist n (next n a) b + 1 = dist n a b := by
  unfold next dist; split <;> split <;> split <;> omega

/-- Two positions at the same distance coincide. -/
theorem dist_inj (ha : a < n) (hb : b < n) (hc : c < n) (h : dist n a b = dist n a c) : b = c := by
  unfold dist at h; split at h <;> split at h <;> omega

/-- `c` on the way from `a` to `b`. -/
theorem dist_add (ha : a < n) (hb : b < n) (hc : c < n) (h : dist n a c ≤ dist n a b) :
    dist n a c + dist n c b = dist n a b := by
  unfold dist at *; split_ifs at * <;> omega

theorem adv_adv {j : Nat} (ha : a < n) (h : k + j < n) : adv n (adv n a k) j = adv n a (k + j) := by
  unfold adv; split_ifs <;> omega

/-- Outside the half-open arc `(a, b]`, one meets `a` before `b`. -/
theorem dist_via (ha : a < n) (hc : c < n)
    (h : ¬ (0 < dist n a c ∧ dist n a c ≤ dist n a b)) : dist n c a + dist n a b = dist n c b := by
  unfold dist at *; split_ifs at * <;> omega

theorem dist_swap (ha : a < n) (hb : b < n) (h : a ≠ b) : dist n a b + dist n b a = n := by
  unfold dist; split <;> split <;> omega

theorem and_mask (x j : Nat) : x &&& (2 ^ j - 1) = x % 2 ^ j := Nat.and_two_pow_sub_one_eq_mod x j

theorem and_mask_lt (x j : Nat) : x &&& (2 ^ j - 1) < 2 ^ j := by
  rw [and_mask]; exact Nat.mod_lt _ (Nat.two_pow_pos j)

theorem succ_and_mask (i j : Nat) (h : i < 2 ^ j) : (i + 1) &&& (2 ^ j - 1) = next (2 ^ j) i := by
  rw [and_mask]
  unfold next
  split
  · exact Nat.mod_eq_of_lt ‹_›
  · rw [show i + 1 = 2 ^ j by omega, Nat.mod_self]

end Inmem.Core.Ring
