import Inmem.L4App.Commands

/-!
# The options of `SET`

The option loop of `SET` goes over words that stand alone (`plainWord`) and words that
take a number (`expiryWord`), which ask for a deadline (`Ask`).

* `setOptions_last`, `setOptions_cons`: the loop in terms of its rounds (`optionRound`);
* `setOptions_inv`: what every round keeps holds at the end. The invariant may speak of
  the words that are left.
-/
namespace Inmem.L4

open Inmem.L1 Inmem.L3

/-! ## Words -/

/-- An amount of time, from now or from the epoch. -/
structure Ask where
  n : Int
  unit : Nat
  absolute : Bool
  deriving DecidableEq, Repr

/-- The deadline that is meant. -/
def Ask.want (a : Ask) (now : Nat) : Nat := (if a.absolute then 0 else now) + a.n.toNat * a.unit

/-- The unit of an expiry option of `SET`, and whether it counts from the epoch. -/
def expiryWord (opt : Bytes) : Option (Nat × Bool) :=
  if opt = lit "EX" then some (1000, false)
  else if opt = lit "PX" then some (1, false)
  else if opt = lit "EXAT" then some (1000, true)
  else if opt = lit "PXAT" then some (1, true)
  else none

/-- The deadline the code computes. -/
theorem deadlineAfter_want (a : Ask) (now : Nat) :
    deadlineAfter (if a.absolute then 0 else now) a.n a.unit = a.want now % 2 ^ 64 := rfl

/-- An option word of `SET` that stands alone. -/
def plainWord (opt : Bytes) (opts : SetOptions) (get : Bool) : Option (SetOptions × Bool) :=
  if opt = lit "NX" then some ({ opts with nx := true }, get)
  else if opt = lit "XX" then some ({ opts with xx := true }, get)
  else if opt = lit "KEEPTTL" then some ({ opts with keepTtl := true }, get)
  else if opt = lit "GET" then some (opts, true)
  else none

theorem plainWord_spec {opt : Bytes} {opts : SetOptions} {get : Bool} {r : SetOptions × Bool}
    (h : plainWord opt opts get = some r) :
    expiryWord opt = none ∧ r.1.expireAt = opts.expireAt ∧ r.1.xx = (opts.xx || opt == lit "XX") ∧
      r.1.keepTtl = (opts.keepTtl || opt == lit "KEEPTTL") := by
  unfold plainWord at h
  split at h
  · rename_i ho
    cases h
    rw [ho]
    exact ⟨by decide, rfl, (Bool.or_false _).symm, (Bool.or_false _).symm⟩
  split at h
  · rename_i ho
    cases h
    rw [ho]
    exact ⟨by decide, rfl, (Bool.or_true _).symm, (Bool.or_false _).symm⟩
  split at h
  · rename_i ho
    cases h
    rw [ho]
    exact ⟨by decide, rfl, (Bool.or_false _).symm, (Bool.or_true _).symm⟩
  split at h
  · rename_i ho
    cases h
    rw [ho]
    exact ⟨by decide, rfl, (Bool.or_false _).symm, (Bool.or_false _).symm⟩
  · cases h

/-- The four words that take a number. -/
theorem expiryWord_isSome (opt : Bytes) : (expiryWord opt).isSome = true ↔
    opt = lit "EX" ∨ opt = lit "PX" ∨ opt = lit "EXAT" ∨ opt = lit "PXAT" := by
  unfold expiryWord
  split
  · rename_i h; exact iff_of_true rfl (.inl h)
  split
  · rename_i h; exact iff_of_true rfl (.inr (.inl h))
  split
  · rename_i h; exact iff_of_true rfl (.inr (.inr (.inl h)))
  split
  · rename_i h; exact iff_of_true rfl (.inr (.inr (.inr h)))
  · rename_i h1 h2 h3 h4
    refine iff_of_false Bool.false_ne_true fun h => ?_
    exact h4 (((h.resolve_left h1).resolve_left h2).resolve_left h3)

/-! ## The loop -/

/-- What the loop does with the word it is at: `next` goes on after a word that stands
alone, `timed` after one that takes a number. -/
def optionRound (a : Bytes) (opts : SetOptions) (get : Bool) {α : Type}
    (next : SetOptions → Bool → Except Outcome α) (timed : Nat × Bool → Except Outcome α) :
    Except Outcome α :=
  (plainWord (optionWord a) opts get).elim
    ((expiryWord (optionWord a)).elim (.error (.r (err (lit "syntax error")))) timed) fun q =>
      next q.1 q.2

theorem optionRound_ok {a : Bytes} {opts : SetOptions} {get : Bool} {α : Type}
    {next : SetOptions → Bool → Except Outcome α} {timed : Nat × Bool → Except Outcome α} {r : α}
    (h : optionRound a opts get next timed = .ok r) :
    (∃ q, plainWord (optionWord a) opts get = some q ∧ next q.1 q.2 = .ok r) ∨
      ∃ u, expiryWord (optionWord a) = some u ∧ timed u = .ok r := by
  unfold optionRound at h
  cases hq : plainWord (optionWord a) opts get with
  | some q =>
    rw [hq] at h
    exact .inl ⟨q, rfl, h⟩
  | none =>
    rw [hq] at h
    cases hu : expiryWord (optionWord a) with
    | none => rw [hu] at h; cases h
    | some u =>
      rw [hu] at h
      exact .inr ⟨u, rfl, h⟩

/-- Two rounds from different options that agree on what `f` sees of the result. -/
theorem optionRound_map {a : Bytes} {opts opts' : SetOptions} {get : Bool} {α β : Type} {f : α → β}
    {next next' : SetOptions → Bool → Except Outcome α}
    {timed timed' : Nat × Bool → Except Outcome α}
    (hnext : ∀ o o' g, (next o g).map f = (next' o' g).map f)
    (htimed : ∀ u, (timed u).map f = (timed' u).map f) :
    (optionRound a opts get next timed).map f = (optionRound a opts' get next' timed').map f := by
  unfold optionRound plainWord
  split
  · exact hnext ..
  split
  · exact hnext ..
  split
  · exact hnext ..
  split
  · exact hnext ..
  · cases expiryWord (optionWord a) with
    | none => rfl
    | some u => exact htimed u

theorem setOptions_last (now : Nat) (a : Bytes) (opts : SetOptions) (get : Bool) :
    setOptions now [a] opts get =
      optionRound a opts get (fun o g => .ok (o, g)) fun _ => .error notInteger := by
  rw [setOptions]
  unfold optionRound plainWord
  dsimp only
  split
  · rfl
  split
  · rfl
  split
  · rfl
  split
  · rfl
  split
  · rename_i h
    obtain ⟨u, hu⟩ := Option.isSome_iff_exists.1 ((expiryWord_isSome _).2 h)
    rw [hu]
    rfl
  · rename_i h
    rw [Option.not_isSome_iff_eq_none.1 (mt (expiryWord_isSome _).1 h)]
    rfl

theorem setOptions_cons (now : Nat) (a b : Bytes) (rest : List Bytes) (opts : SetOptions)
    (get : Bool) :
    setOptions now (a :: b :: rest) opts get =
      optionRound a opts get (setOptions now (b :: rest)) fun u =>
        (parseI64 b).elim (.error notInteger) fun n =>
          setOptions now rest
            { opts with expireAt := some ((Ask.mk n u.1 u.2).want now % 2 ^ 64) } get := by
  rw [setOptions]
  unfold optionRound plainWord
  dsimp only
  split
  · rfl
  split
  · rfl
  split
  · rfl
  split
  · rfl
  split
  · rename_i h
    cases parseI64 b with
    | none =>
      obtain ⟨u, hu⟩ := Option.isSome_iff_exists.1 ((expiryWord_isSome _).2 h)
      rw [hu]
      rfl
    | some n =>
      dsimp only
      unfold expiryWord
      split
      · rfl
      split
      · rfl
      split
      · rfl
      · rename_i h1 h2 h3
        rw [if_pos (((h.resolve_left h1).resolve_left h2).resolve_left h3)]
        rfl
  · rename_i h
    rw [Option.not_isSome_iff_eq_none.1 (mt (expiryWord_isSome _).1 h)]
    rfl

/-- **Loop rule.** An invariant of the words that are left and the options read so far. -/
theorem setOptions_inv (now : Nat) {I : List Bytes → SetOptions × Bool → Prop}
    (hplain : ∀ a rest q q', I (a :: rest) q → plainWord (optionWord a) q.1 q.2 = some q' →
      I rest q')
    (htimed : ∀ a b rest opts get u n, I (a :: b :: rest) (opts, get) →
      expiryWord (optionWord a) = some u → parseI64 b = some n →
      I rest ({ opts with expireAt := some ((Ask.mk n u.1 u.2).want now % 2 ^ 64) }, get)) :
    ∀ (words : List Bytes) (opts : SetOptions) (get : Bool) {r : SetOptions × Bool},
    I words (opts, get) → setOptions now words opts get = .ok r → I [] r
  | [], _, _, _, hi, hr => by cases hr; exact hi
  | [a], opts, get, r, hi, hr => by
    rw [setOptions_last] at hr
    rcases optionRound_ok hr with ⟨q, hq, hr⟩ | ⟨u, -, hr⟩
    · cases hr
      exact hplain a [] (opts, get) q hi hq
    · cases hr
  | a :: b :: rest, opts, get, r, hi, hr => by
    rw [setOptions_cons] at hr
    rcases optionRound_ok hr with ⟨q, hq, hr⟩ | ⟨u, hu, hr⟩
    · exact setOptions_inv now hplain htimed (b :: rest) q.1 q.2
        (hplain a (b :: rest) (opts, get) q hi hq) hr
    · cases hn : parseI64 b with
      | none => rw [hn] at hr; cases hr
      | some n =>
        rw [hn] at hr
        exact setOptions_inv now hplain htimed rest _ get (htimed a b rest opts get u n hi hu hn) hr

/-- Whether `SET` has the option `GET` does not depend on the clock. -/
theorem setOptions_get (now now' : Nat) :
    ∀ (args : List Bytes) (opts opts' : SetOptions) (get : Bool),
    (setOptions now args opts get).map Prod.snd = (setOptions now' args opts' get).map Prod.snd
  | [], _, _, _ => rfl
  | [a], opts, opts', get => by
    rw [setOptions_last, setOptions_last]
    exact optionRound_map (fun _ _ _ => rfl) fun _ => rfl
  | a :: b :: rest, opts, opts', get => by
    rw [setOptions_cons, setOptions_cons]
    refine optionRound_map (setOptions_get now now' (b :: rest)) fun u => ?_
    cases parseI64 b with
    | none => rfl
    | some n => exact setOptions_get now now' rest ..

end Inmem.L4
