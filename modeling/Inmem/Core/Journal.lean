import Mathlib.Data.List.Basic

/-!
# A state machine that keeps a journal

Each step may add an entry to a journal, and what the state looks like is what the
entries add up to. Then whoever has read a front part of the journal sees the state as it
was after some front part of the steps.

* `view_run`: the state looks like the fold of the journal;
* `cut`: which steps the first `m` entries stand for.
-/
namespace Inmem.Core

/-- `step` and the entries it adds; `view` and what an entry does to it. -/
structure Journal (S R A V : Type*) where
  step : S → R → S
  entries : S → R → List A
  view : S → V
  apply : V → A → V

namespace Journal

variable {S R A V : Type*} (J : Journal S R A V)

def run (s : S) (rs : List R) : S := rs.foldl J.step s

/-- The journal of a run. -/
def log : S → List R → List A
  | _, [] => []
  | s, r :: rs => J.entries s r ++ log (J.step s r) rs

theorem log_cons (s : S) (r : R) (rs : List R) :
    J.log s (r :: rs) = J.entries s r ++ J.log (J.step s r) rs := rfl

variable {J} {I : S → Prop} {L : R → Prop}

theorem exists_of_mem_log {a : A} (rs : List R) :
    ∀ s, a ∈ J.log s rs → ∃ r ∈ rs, ∃ s, a ∈ J.entries s r := by
  induction rs with
  | nil => intro s h; cases h
  | cons r rs ih =>
    intro s h
    rcases List.mem_append.1 h with h | h
    · exact ⟨r, List.mem_cons_self, s, h⟩
    · obtain ⟨x, hx, hs⟩ := ih _ h
      exact ⟨x, List.mem_cons_of_mem _ hx, hs⟩

/-- What every step keeps. -/
structure Sound (J : Journal S R A V) (I : S → Prop) (L : R → Prop) : Prop where
  keeps : ∀ s r, I s → L r → I (J.step s r)
  view : ∀ s r, I s → L r → J.view (J.step s r) = (J.entries s r).foldl J.apply (J.view s)
  single : ∀ s r, (J.entries s r).length ≤ 1

theorem Sound.view_run (h : Sound J I L) (rs : List R) : ∀ s, I s → (∀ r ∈ rs, L r) →
    J.view (J.run s rs) = (J.log s rs).foldl J.apply (J.view s) := by
  induction rs with
  | nil => exact fun s _ _ => rfl
  | cons r rs ih =>
    intro s hs hl
    rw [log_cons, List.foldl_append, ← h.view s r hs (hl r List.mem_cons_self)]
    exact ih _ (h.keeps s r hs (hl r List.mem_cons_self)) fun x hx =>
      hl x (List.mem_cons_of_mem _ hx)

/-- The journal grows at its end. -/
theorem log_take_isPrefix (rs : List R) :
    ∀ (s : S) (j : Nat), J.log s (rs.take j) <+: J.log s rs := by
  induction rs with
  | nil => intro s j; simp
  | cons r rs ih =>
    intro s j
    cases j with
    | zero => exact List.nil_prefix
    | succ j => exact (List.prefix_append_right_inj _).2 (ih _ j)

/-- The first `m` entries are the journal of the first `i` steps, for an `i` as large as
possible. -/
theorem exists_cut (h : ∀ s r, (J.entries s r).length ≤ 1) (rs : List R) :
    ∀ (s : S) (m : Nat), m ≤ (J.log s rs).length →
    ∃ i ≤ rs.length, J.log s (rs.take i) = (J.log s rs).take m ∧
      ∀ j ≤ rs.length, (J.log s (rs.take j)).length ≤ m ↔ j ≤ i := by
  induction rs with
  | nil =>
    intro s m hm
    refine ⟨0, Nat.le_refl 0, by simp [log], fun j hj => ?_⟩
    obtain rfl := Nat.le_zero.1 hj
    simp [log]
  | cons r rs ih =>
    intro s m hm
    rw [log_cons, List.length_append] at hm
    by_cases he : (J.entries s r).length ≤ m
    · obtain ⟨i, hi, htake, hiff⟩ := ih (J.step s r) (m - (J.entries s r).length) (by omega)
      refine ⟨i + 1, by simpa using hi, ?_, ?_⟩
      · rw [List.take_succ_cons, log_cons, log_cons, htake, List.take_append,
          List.take_of_length_le he]
      · intro j hj
        cases j with
        | zero => simp [log]
        | succ j =>
          rw [List.take_succ_cons, log_cons, List.length_append, Nat.add_le_add_iff_right,
            ← hiff j (by simpa using hj)]
          omega
    · -- the first step's only entry is not among them
      have hm0 : m = 0 := by have := h s r; omega
      subst hm0
      refine ⟨0, Nat.zero_le _, by simp [log], fun j _ => ?_⟩
      cases j with
      | zero => simp [log]
      | succ j =>
        rw [List.take_succ_cons, log_cons, List.length_append]
        omega

/-- Whoever applies the first `m` entries sees the state as it was after `i` steps. -/
theorem Sound.cut (h : Sound J I L) {s : S} {rs : List R} (hs : I s) (hl : ∀ r ∈ rs, L r) {m : Nat}
    (hm : m ≤ (J.log s rs).length) :
    ∃ i ≤ rs.length, ((J.log s rs).take m).foldl J.apply (J.view s) = J.view (J.run s (rs.take i)) ∧
      ∀ j ≤ rs.length, (J.log s (rs.take j)).length ≤ m ↔ j ≤ i := by
  obtain ⟨i, hi, htake, hiff⟩ := exists_cut h.single rs s m hm
  refine ⟨i, hi, ?_, hiff⟩
  rw [← htake, h.view_run _ s hs fun r hr => hl r (List.mem_of_mem_take hr)]

end Journal

end Inmem.Core
