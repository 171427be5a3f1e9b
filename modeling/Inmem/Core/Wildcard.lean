import Mathlib.Data.List.Forall2
import Mathlib.Tactic.Common

/-!
# Matching with wildcards

A pattern is a list of tokens: a star takes any string, every other token one
letter that its test accepts. `Matches` is the declarative meaning: the text is a
concatenation of strings that the tokens take, in order.

A matcher that remembers only the last star it met is in a state of a pattern and
a text still to be matched, and a pattern and a text to go back to. `Hope` says
that it can still succeed: the rest matches, or the pattern after the star matches
after the star has taken at least one letter more. `Tied` ties the two together:
since the star, the matcher has moved through single-letter tokens only.

* `hope_star`: at the next star the older one can be forgotten.
* `hope_one`, `hope_back`, `hope_end`: the other steps of such a matcher.
-/
namespace Inmem.Core.Wildcard

variable {α : Type}

inductive Tok (α : Type)
  | star
  | one (test : α → Bool)

/-- The strings a token takes. -/
def Tok.Takes : Tok α → List α → Prop
  | star, _ => True
  | one test, s => ∃ c, s = [c] ∧ test c = true

/-- The text is a concatenation of strings that the tokens take. -/
def Matches (ts : List (Tok α)) (s : List α) : Prop :=
  ∃ parts : List (List α), parts.flatten = s ∧ List.Forall₂ Tok.Takes ts parts

variable {ts ts₀ : List (Tok α)} {s s₀ : List α} {test : α → Bool} {c : α}

theorem matches_nil : Matches [] s ↔ s = [] := by
  constructor
  · rintro ⟨parts, rfl, h⟩
    cases h
    rfl
  · rintro rfl
    exact ⟨[], rfl, .nil⟩

theorem matches_one :
    Matches (.one test :: ts) s ↔ ∃ c t, s = c :: t ∧ test c = true ∧ Matches ts t := by
  constructor
  · rintro ⟨parts, rfl, h⟩
    cases h with
    | cons hc hrest =>
      obtain ⟨c, rfl, hc⟩ := hc
      exact ⟨c, _, rfl, hc, _, rfl, hrest⟩
  · rintro ⟨c, t, rfl, hc, parts, rfl, h⟩
    exact ⟨[c] :: parts, rfl, .cons ⟨c, rfl, hc⟩ h⟩

theorem matches_star : Matches (.star :: ts) s ↔ ∃ n, n ≤ s.length ∧ Matches ts (s.drop n) := by
  constructor
  · rintro ⟨parts, rfl, h⟩
    cases h with
    | cons hc hrest =>
      rename_i part parts
      exact ⟨part.length, by simp, parts, by simp, hrest⟩
  · rintro ⟨n, -, parts, hparts, h⟩
    exact ⟨s.take n :: parts, by rw [List.flatten_cons, hparts, List.take_append_drop],
      .cons trivial h⟩

/-- Single-letter tokens in front take a letter each. -/
theorem matches_ones {pre : List (Tok α)} (hpre : ∀ t ∈ pre, t ≠ .star)
    (h : Matches (pre ++ ts) s) : pre.length ≤ s.length ∧ Matches ts (s.drop pre.length) := by
  induction pre generalizing s with
  | nil => exact ⟨Nat.zero_le _, h⟩
  | cons t pre ih =>
    cases t with
    | star => exact absurd rfl (hpre .star List.mem_cons_self)
    | one test =>
      obtain ⟨c, u, rfl, -, h⟩ := matches_one.1 h
      obtain ⟨hlen, hu⟩ := ih (fun t ht => hpre t (List.mem_cons_of_mem _ ht)) h
      exact ⟨Nat.succ_le_succ hlen, hu⟩

/-- The empty text is matched by stars alone. -/
theorem matches_empty : Matches ts [] ↔ ∀ t ∈ ts, t = .star := by
  induction ts with
  | nil => simp [matches_nil]
  | cons t ts ih =>
    cases t with
    | star => simp [matches_star, ih]
    | one test => simp [matches_one]

/-! ## A matcher with one way back -/

/-- What to go back to: the tokens after a star, and the text from where it stands. -/
abbrev Back (α : Type) := Option (List (Tok α) × List α)

/-- Since the star, the matcher has moved through single-letter tokens only. -/
def Tied (b : Back α) (ts : List (Tok α)) (s : List α) : Prop :=
  ∀ ts₀ s₀, b = some (ts₀, s₀) →
    ∃ pre, ts₀ = pre ++ ts ∧ (∀ t ∈ pre, t ≠ .star) ∧ pre.length ≤ s₀.length ∧
    s = s₀.drop pre.length

/-- The star takes at least one letter more and the rest matches. -/
def Again (b : Back α) : Prop :=
  ∃ ts₀ s₀ n, b = some (ts₀, s₀) ∧ 1 ≤ n ∧ n ≤ s₀.length ∧ Matches ts₀ (s₀.drop n)

/-- The matcher can still succeed. -/
def Hope (b : Back α) (ts : List (Tok α)) (s : List α) : Prop := Matches ts s ∨ Again b

variable {b : Back α}

theorem again_none : ¬ Again (none : Back α) := by
  rintro ⟨ts₀, s₀, n, h, -⟩
  cases h

theorem tied_none : Tied none ts s := fun _ _ h => by cases h

theorem tied_self : Tied (some (ts, s)) ts s := by
  intro ts₀ s₀ h
  cases h
  exact ⟨[], rfl, fun _ hm => (List.not_mem_nil hm).elim, Nat.zero_le _, rfl⟩

/-- The star takes one letter more: this letter only, or more. -/
theorem hope_again : Hope (some (ts, s)) ts s ↔ Matches (.star :: ts) s := by
  rw [matches_star]
  constructor
  · rintro (h | ⟨ts₀, s₀, n, e, -, hn, h⟩)
    · exact ⟨0, Nat.zero_le _, h⟩
    · cases e; exact ⟨n, hn, h⟩
  · rintro ⟨n, hn, h⟩
    cases n with
    | zero => exact .inl h
    | succ n => exact .inr ⟨ts, s, n + 1, rfl, Nat.succ_pos _, hn, h⟩

/-- At a star the older one can be forgotten: what it could still take, the new one can. -/
theorem hope_star (ht : Tied b (.star :: ts) s) :
    Hope b (.star :: ts) s ↔ Hope (some (ts, s)) ts s := by
  rw [hope_again]
  refine ⟨fun h => ?_, .inl⟩
  rcases h with h | ⟨ts₀, s₀, n, rfl, -, hn, h⟩
  · exact h
  · obtain ⟨pre, rfl, hpre, -, rfl⟩ := ht _ _ rfl
    obtain ⟨hlen, h⟩ := matches_ones hpre h
    obtain ⟨m, hm, h⟩ := matches_star.1 h
    rw [List.length_drop] at hlen
    rw [List.length_drop, List.length_drop] at hm
    refine matches_star.2 ⟨n + m, by rw [List.length_drop]; omega, ?_⟩
    rw [List.drop_drop, List.drop_drop] at h
    rwa [List.drop_drop, show pre.length + (n + m) = n + (pre.length + m) by omega]

/-- A letter that its token accepts. -/
theorem hope_one (hc : test c = true) (ht : Tied b (.one test :: ts) (c :: s)) :
    Tied b ts s ∧ (Hope b (.one test :: ts) (c :: s) ↔ Hope b ts s) := by
  constructor
  · intro ts₀ s₀ e
    obtain ⟨pre, rfl, hpre, hlen, hs⟩ := ht ts₀ s₀ e
    have hlt : pre.length < s₀.length := by
      by_contra hge
      rw [List.drop_eq_nil_of_le (by omega)] at hs
      cases hs
    refine ⟨pre ++ [.one test], by simp, ?_, by rw [List.length_append]; exact hlt, ?_⟩
    · intro t hm
      rcases List.mem_append.1 hm with hm | hm
      · exact hpre t hm
      · rw [List.mem_singleton.1 hm]; exact fun e => by cases e
    · rw [List.length_append, ← List.drop_drop, ← hs]
      rfl
  · refine or_congr_left ?_
    rw [matches_one]
    constructor
    · rintro ⟨c', t, e, -, h⟩
      cases e; exact h
    · exact fun h => ⟨c, s, rfl, hc, h⟩

/-- A text that does not match from here: the star takes one letter more. -/
theorem hope_back (h : ¬ Matches ts s) :
    Hope (some (ts₀, c :: s₀)) ts s ↔ Hope (some (ts₀, s₀)) ts₀ s₀ := by
  rw [hope_again, matches_star, Hope, or_iff_right h]
  constructor
  · rintro ⟨_, _, n, e, hpos, hn, h⟩
    cases e
    obtain ⟨n, rfl⟩ : ∃ m, n = m + 1 := ⟨n - 1, by omega⟩
    exact ⟨n, Nat.le_of_succ_le_succ hn, h⟩
  · rintro ⟨n, hn, h⟩
    exact ⟨ts₀, c :: s₀, n + 1, rfl, Nat.succ_pos _, Nat.succ_le_succ hn, h⟩

/-- At the end of the text only stars may be left; going back would leave too little text. -/
theorem hope_end (ht : Tied b ts []) : Hope b ts [] ↔ ∀ t ∈ ts, t = .star := by
  rw [← matches_empty]
  refine ⟨fun h => h.resolve_right ?_, .inl⟩
  rintro ⟨ts₀, s₀, n, rfl, hpos, hn, h⟩
  obtain ⟨pre, rfl, hpre, hlen, hs⟩ := ht _ _ rfl
  have hend : s₀.length ≤ pre.length := List.drop_eq_nil_iff.1 hs.symm
  obtain ⟨hlen', -⟩ := matches_ones hpre h
  rw [List.length_drop] at hlen'
  omega

end Inmem.Core.Wildcard
