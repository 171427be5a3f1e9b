import Mathlib.Data.List.Nodup
import Mathlib.Logic.Function.Basic
import Mathlib.Order.Basic

/-!
# A queue with second chances

Each element of a queue has a counter. An eviction takes the head: if its counter is
positive, it is lowered and the head goes to the end; otherwise the head is the victim.

* `evicts_pass`: going past elements that all have a chance left;
* `evicts_first_least`: the victim is the first element with the least counter. Those
  before it go once more around than those behind it.
-/
namespace Inmem.Core.Clock

variable {α : Type*} [DecidableEq α]

/-- `Evicts q f v q' f'`: from the queue `q` and the counters `f`, the victim is `v`, and
`q'` and `f'` are left. -/
inductive Evicts : List α → (α → Nat) → α → List α → (α → Nat) → Prop
  | now {v : α} {q : List α} {f : α → Nat} : f v = 0 → Evicts (v :: q) f v q f
  | later {x v : α} {q q' : List α} {f f' : α → Nat} :
    0 < f x → Evicts (q ++ [x]) (Function.update f x (f x - 1)) v q' f' → Evicts (x :: q) f v q' f'

/-- The counters after a pass over `a`. -/
def spend (a : List α) (f : α → Nat) (x : α) : Nat := if x ∈ a then f x - 1 else f x

theorem spend_cons {x : α} {a : List α} (hx : x ∉ a) (f : α → Nat) :
    spend a (Function.update f x (f x - 1)) = spend (x :: a) f := by
  funext y
  unfold spend
  by_cases hy : y = x
  · subst hy
    simp [hx]
  · simp [hy]

theorem evicts_pass (a : List α) :
    ∀ {b q' : List α} {v : α} {f f' : α → Nat}, a.Nodup → (∀ x ∈ a, 0 < f x) →
    Evicts (b ++ a) (spend a f) v q' f' → Evicts (a ++ b) f v q' f' := by
  induction a with
  | nil =>
    intro b q' v f f' _ _ h
    have hspend : spend [] f = f := funext fun x => if_neg (List.not_mem_nil)
    rwa [hspend, List.append_nil] at h
  | cons x a ih =>
    intro b q' v f f' hnd hpos h
    obtain ⟨hx, hnd⟩ := List.nodup_cons.1 hnd
    rw [List.cons_append]
    refine .later (hpos x List.mem_cons_self) ?_
    rw [List.append_assoc]
    refine ih hnd (fun y hy => ?_) ?_
    · rw [Function.update_of_ne (ne_of_mem_of_not_mem hy hx)]
      exact hpos y (List.mem_cons_of_mem _ hy)
    · rw [spend_cons hx, List.append_assoc]
      exact h

/-- What is left of the counters: `a` has been passed over once more often than `b`. -/
def settle (a b : List α) (n : Nat) (f : α → Nat) (x : α) : Nat :=
  if x ∈ a then f x - (n + 1) else if x ∈ b then f x - n else f x

/-- The first element with the least counter. -/
structure FirstLeast (f : α → Nat) (a : List α) (v : α) (b : List α) : Prop where
  before : ∀ x ∈ a, f v < f x
  behind : ∀ x ∈ b, f v ≤ f x

omit [DecidableEq α] in
theorem exists_firstLeast (f : α → Nat) {q : List α} (hq : q ≠ []) :
    ∃ a v b, q = a ++ v :: b ∧ FirstLeast f a v b := by
  induction q with
  | nil => exact absurd rfl hq
  | cons x q ih =>
    by_cases hnil : q = []
    · exact ⟨[], x, [], by rw [hnil, List.nil_append], fun y hy => absurd hy List.not_mem_nil,
        fun y hy => absurd hy List.not_mem_nil⟩
    · obtain ⟨a, v, b, rfl, h⟩ := ih hnil
      rcases Nat.lt_or_ge (f v) (f x) with hlt | hge
      · exact ⟨x :: a, v, b, rfl, List.forall_mem_cons.2 ⟨hlt, h.before⟩, h.behind⟩
      · refine ⟨[], x, a ++ v :: b, rfl, fun y hy => absurd hy List.not_mem_nil,
          fun y hy => Nat.le_trans hge ?_⟩
        rcases List.mem_append.1 hy with hy | hy
        · exact Nat.le_of_lt (h.before y hy)
        · rcases List.mem_cons.1 hy with rfl | hy
          · exact Nat.le_refl _
          · exact h.behind y hy

theorem evicts_first_least {a b : List α} {v : α} :
    ∀ (n : Nat) {f : α → Nat}, (a ++ v :: b).Nodup → f v = n →
    FirstLeast f a v b → Evicts (a ++ v :: b) f v (b ++ a) (settle a (v :: b) n f) := by
  intro n
  induction n with
  | zero =>
    intro f hnd hv hl
    obtain ⟨ha, -, hdisj⟩ := List.nodup_append.1 hnd
    refine evicts_pass a ha (fun x hx => hv ▸ hl.before x hx) ?_
    have hva : v ∉ a := fun h => hdisj v h v List.mem_cons_self rfl
    have hcount : spend a f = settle a (v :: b) 0 f := by
      funext x
      unfold spend settle
      split
      · rfl
      · rw [Nat.sub_zero, ite_self]
    rw [← hcount]
    refine .now ?_
    rw [spend, if_neg hva, hv]
  | succ n ih =>
    -- once around, and then the same with every counter one less
    intro f hnd hv hl
    have hpos : ∀ x ∈ a ++ v :: b, 0 < f x := by
      intro x hx
      rcases List.mem_append.1 hx with hx | hx
      · have := hl.before x hx; omega
      · rcases List.mem_cons.1 hx with rfl | hx
        · omega
        · have := hl.behind x hx; omega
    have hspend : ∀ x ∈ a ++ v :: b, spend (a ++ v :: b) f x = f x - 1 := fun x hx => if_pos hx
    have hmem : ∀ x ∈ a, x ∈ a ++ v :: b := fun x hx => List.mem_append_left _ hx
    have hmem' : ∀ x ∈ v :: b, x ∈ a ++ v :: b := fun x hx => List.mem_append_right _ hx
    have hv' : spend (a ++ v :: b) f v = f v - 1 := hspend v (hmem' v List.mem_cons_self)
    have hnext := ih (f := spend (a ++ v :: b) f) hnd (by omega)
      ⟨fun x hx => by rw [hv', hspend x (hmem x hx)]; have := hl.before x hx; omega,
        fun x hx =>
          by rw [hv',
            hspend x (hmem' x (List.mem_cons_of_mem _ hx))]; have := hl.behind x hx; omega⟩
    have hcount : settle a (v :: b) n (spend (a ++ v :: b) f) = settle a (v :: b) (n + 1) f := by
      funext x
      unfold settle
      split
      · rename_i hx; rw [hspend x (hmem x hx)]; omega
      · split
        · rename_i hx; rw [hspend x (hmem' x hx)]; omega
        · rename_i hx hx'
          exact if_neg fun h => (List.mem_append.1 h).elim hx hx'
    rw [hcount] at hnext
    have := evicts_pass (a ++ v :: b) (b := []) hnd hpos hnext
    rwa [List.append_nil] at this

end Inmem.Core.Clock
