import Inmem.L1Encoding.Bytes

/-!
# The glob matcher

`glob_match` of crates/server/src/commands.rs, used by `KEYS` and `SCAN`:
`*`, `?` and `[...]` classes, with one backtracking point (the last star).
The loop has fuel; between two backtracks the pattern position only grows, and
each backtrack moves the star's text position, so `(|s| + 1) (|p| + 1)` rounds
are enough.
-/
namespace Inmem.L1

/-- The loop of `match_class` over the rest of the class: the index after it, and
whether a member matched. mirrors crates/server/src/commands.rs:805-820 -/
def classLoop (c : UInt8) : Bytes → Nat → Bool → Nat × Bool
  | [], i, m => (i, m)
  | [a], i, m => if a = 93 then (i + 1, m) else (i + 1, m || a == c)
  | [a, b], i, m => if a = 93 then (i + 1, m) else classLoop c [b] (i + 1) (m || a == c)
  | a :: b :: d :: rest, i, m =>
    if a = 93 then (i + 1, m)
    else if b = 45 ∧ d ≠ 93 then classLoop c rest (i + 3) (m || (a ≤ c && c ≤ d))
    else classLoop c (b :: d :: rest) (i + 1) (m || a == c)

/-- mirrors crates/server/src/commands.rs:798-822 -/
def matchClass (p : Bytes) (c : UInt8) : Nat × Bool :=
  let negate := p[1]? == some 94
  let i := if negate then 2 else 1
  let r := classLoop c (p.drop i) i false
  (r.1, r.2 ^^ negate)

/-- mirrors crates/server/src/commands.rs:824-868 -/
def globLoop (pat s : Bytes) : Nat → Nat → Nat → Option (Nat × Nat) → Option Bool
  | 0, _, _, _ => none
  | f + 1, pi, si, star =>
    match s[si]? with
    | none => some ((pat.drop pi).all (· == 42))
    | some c =>
      let backtrack :=
        match star with
        | some (sp, ss) => globLoop pat s f (sp + 1) (ss + 1) (some (sp, ss + 1))
        | none => some false
      match pat[pi]? with
      | none => backtrack
      | some p =>
        if p = 42 then globLoop pat s f (pi + 1) si (some (pi, si))
        else if p = 63 then globLoop pat s f (pi + 1) (si + 1) star
        else if p = 91 then
          let r := matchClass (pat.drop pi) c
          if r.2 then globLoop pat s f (pi + r.1) (si + 1) star else backtrack
        else if p = c then globLoop pat s f (pi + 1) (si + 1) star
        else backtrack

/-- mirrors crates/server/src/commands.rs:797-869 -/
def globMatch (pat s : Bytes) : Bool :=
  (globLoop pat s ((s.length + 1) * (pat.length + 1) + 1) 0 0 none).getD false

example : globMatch (lit "us?r:[a-c^]*x") (lit "user:bxyx") = true := by decide

example : globMatch (lit "a[^b]c") (lit "abc") = false := by decide

end Inmem.L1
