import Inmem.Core.Wildcard
import Inmem.L1Encoding.Glob

/-!
# What the glob matcher matches

`tokens` reads a pattern from left to right: `*`, `?`, a class `[...]` or `[^...]`
of single bytes and ranges (one that is not closed runs to the end of the pattern),
any other byte for itself. `Matches (tokens pat) key` is the declarative meaning.

* `classLoop_eq`: `match_class` reads the class that `classItems` describes.
* `globLoop_spec`: the loop ends and answers whether its state has hope; the
  measure is the text left to the last star, then the pattern left.
* `glob_exact`: the whole matcher.
-/
namespace Inmem.L1

open Inmem.Core.Wildcard

/-! ## Reading a pattern -/

inductive ClassItem
  | byte (b : UInt8)
  | range (lo hi : UInt8)
  deriving DecidableEq, Repr

def ClassItem.has (c : UInt8) : ClassItem → Bool
  | byte b => b == c
  | range lo hi => lo ≤ c && c ≤ hi

/-- The members of a class, and what follows its closing bracket. -/
def classItems : Bytes → List ClassItem × Bytes
  | [] => ([], [])
  | [a] => if a = 93 then ([], []) else ([.byte a], [])
  | [a, b] =>
    if a = 93 then ([], [b])
    else
      let r := classItems [b]
      (.byte a :: r.1, r.2)
  | a :: b :: d :: rest =>
    if a = 93 then ([], b :: d :: rest)
    else if b = 45 ∧ d ≠ 93 then
      let r := classItems rest
      (.range a d :: r.1, r.2)
    else
      let r := classItems (b :: d :: rest)
      (.byte a :: r.1, r.2)

/-- A class: whether it is negated, its members and what follows it. -/
def readClass (p : Bytes) : Bool × List ClassItem × Bytes :=
  match p with
  | 94 :: rest => (true, classItems rest)
  | _ => (false, classItems p)

/-- Whether a byte belongs to a class. -/
def inClass (negate : Bool) (items : List ClassItem) (c : UInt8) : Bool :=
  items.any (ClassItem.has c) ^^ negate

theorem classItems_suffix (p : Bytes) : (classItems p).2 <:+ p := by
  fun_induction classItems p with
  | case1 => exact List.suffix_rfl
  | case2 => exact List.nil_suffix
  | case3 a h => exact List.nil_suffix
  | case4 b => exact List.suffix_cons ..
  | case5 a b h r ih => exact ih.trans (List.suffix_cons ..)
  | case6 b d rest => exact List.suffix_cons ..
  | case7 a b d rest h hr r ih =>
    exact ih.trans
      ((List.suffix_cons d rest).trans ((List.suffix_cons b _).trans (List.suffix_cons a _)))
  | case8 a b d rest h hr r ih => exact ih.trans (List.suffix_cons ..)

theorem readClass_suffix (p : Bytes) : (readClass p).2.2 <:+ p := by
  unfold readClass
  split
  · exact (classItems_suffix _).trans (List.suffix_cons ..)
  · exact classItems_suffix p

/-- The tokens of a pattern. -/
def tokens : Bytes → List (Tok UInt8)
  | [] => []
  | b :: p =>
    if b = 42 then .star :: tokens p
    else if b = 63 then .one (fun _ => true) :: tokens p
    else if b = 91 then
      let r := readClass p
      .one (inClass r.1 r.2.1) :: tokens r.2.2
    else .one (fun c => b == c) :: tokens p
termination_by p => p.length
decreasing_by
  all_goals simp only [List.length_cons]
  · omega
  · omega
  · have := (readClass_suffix p).length_le; omega
  · omega

theorem tokens_star (p : Bytes) : tokens (42 :: p) = .star :: tokens p := by rw [tokens, if_pos rfl]

theorem tokens_any (p : Bytes) : tokens (63 :: p) = .one (fun _ => true) :: tokens p := by
  rw [tokens, if_neg (by decide), if_pos rfl]

theorem tokens_class (p : Bytes) :
    tokens (91 :: p) = .one (inClass (readClass p).1 (readClass p).2.1) :: tokens
      (readClass p).2.2 := by
  rw [tokens, if_neg (by decide), if_neg (by decide), if_pos rfl]

theorem tokens_byte {b : UInt8} (h1 : b ≠ 42) (h2 : b ≠ 63) (h3 : b ≠ 91) (p : Bytes) :
    tokens (b :: p) = .one (fun c => b == c) :: tokens p := by
  rw [tokens, if_neg h1, if_neg h2, if_neg h3]

/-- Only stars are read as stars. -/
theorem tokens_stars (p : Bytes) : (∀ t ∈ tokens p, t = .star) ↔ p.all (· == 42) = true := by
  induction p with
  | nil => simp [tokens]
  | cons b p ih =>
    by_cases h1 : b = 42
    · subst h1
      rw [tokens_star, List.forall_mem_cons, ih]
      simp
    · have hone : ∃ test ts, tokens (b :: p) = .one test :: ts := by
        by_cases h2 : b = 63
        · subst h2; exact ⟨_, _, tokens_any p⟩
        · by_cases h3 : b = 91
          · subst h3; exact ⟨_, _, tokens_class p⟩
          · exact ⟨_, _, tokens_byte h1 h2 h3 p⟩
      obtain ⟨test, ts, e⟩ := hone
      rw [e, List.forall_mem_cons]
      simp [h1]

/-! ## Classes -/

/-- The class loop finds whether a member has the byte, and the end of the class. -/
theorem classLoop_eq (c : UInt8) (p : Bytes) (i : Nat) (m : Bool) :
    classLoop c p i m = (i + (p.length - (classItems p).2.length),
      m || (classItems p).1.any (ClassItem.has c)) := by
  fun_induction classLoop c p i m with
  | case1 i m => simp [classItems]
  | case2 i m => simp [classItems]
  | case3 a i m h => simp [classItems, h, ClassItem.has]
  | case4 b i m => simp [classItems]
  | case5 a b i m h ih =>
    have hle := (classItems_suffix [b]).length_le
    rw [ih, show classItems [a, b] =
      (.byte a :: (classItems [b]).1, (classItems [b]).2) from if_neg h]
    simp only [List.any_cons, ClassItem.has, Bool.or_assoc, List.length_cons] at hle ⊢
    congr 1
    omega
  | case6 b d rest i m => simp [classItems]
  | case7 a b d rest i m h hr ih =>
    have hle := (classItems_suffix rest).length_le
    rw [ih, classItems, if_neg h, if_pos hr]
    simp only [List.any_cons, ClassItem.has, Bool.or_assoc, List.length_cons]
    congr 1
    omega
  | case8 a b d rest i m h hr ih =>
    have hle := (classItems_suffix (b :: d :: rest)).length_le
    rw [ih, classItems, if_neg h, if_neg hr]
    simp only [List.any_cons, ClassItem.has, Bool.or_assoc, List.length_cons] at hle ⊢
    congr 1
    omega

/-- `match_class` at a bracket: whether the byte belongs to the class, and its length. -/
theorem matchClass_eq (p : Bytes) (c : UInt8) :
    (matchClass (91 :: p) c).2 = inClass (readClass p).1 (readClass p).2.1 c ∧
      (91 :: p).drop (matchClass (91 :: p) c).1 = (readClass p).2.2 ∧
      1 ≤ (matchClass (91 :: p) c).1 ∧ (matchClass (91 :: p) c).1 ≤ p.length + 1 := by
  -- the end of the class is where its rest begins
  have hdrop : ∀ q r : Bytes, r <:+ q → q.drop (q.length - r.length) = r := by
    rintro q r ⟨u, rfl⟩
    simp
  by_cases hneg : ∃ rest, p = 94 :: rest
  · obtain ⟨rest, rfl⟩ := hneg
    have hle := (classItems_suffix rest).length_le
    simp only [matchClass, readClass, inClass, List.getElem?_cons_succ, List.getElem?_cons_zero,
      beq_self_eq_true, if_true, List.drop_succ_cons, List.drop_zero, classLoop_eq, Bool.false_or,
      List.length_cons]
    refine ⟨trivial, ?_, by omega, by omega⟩
    rw [Nat.add_comm 2, List.drop_succ_cons, List.drop_succ_cons]
    exact hdrop _ _ (classItems_suffix rest)
  · have h1 : ((91 :: p)[1]? == some (94 : UInt8)) = false := by
      cases p with
      | nil => rfl
      | cons a p =>
        simp only [List.getElem?_cons_succ, List.getElem?_cons_zero]
        rw [beq_eq_false_iff_ne]
        intro e
        cases e
        exact hneg ⟨p, rfl⟩
    have hread : readClass p = (false, classItems p) := by
      unfold readClass
      split
      · exact absurd ⟨_, rfl⟩ hneg
      · rfl
    have hle := (classItems_suffix p).length_le
    simp only [matchClass, hread, inClass, h1, Bool.false_eq_true, if_false, List.drop_succ_cons,
      List.drop_zero, classLoop_eq, Bool.false_or]
    refine ⟨trivial, ?_, by omega, by omega⟩
    rw [Nat.add_comm 1, List.drop_succ_cons]
    exact hdrop _ _ (classItems_suffix p)

/-! ## The loop -/

section
variable {pat s : Bytes}

/-- What the loop goes back to. -/
def backOf (pat s : Bytes) (star : Option (Nat × Nat)) : Back UInt8 :=
  star.map fun p => (tokens (pat.drop (p.1 + 1)), s.drop p.2)

/-- The remembered star is in the pattern, and stands before the place in the text. -/
def StarOk (pat : Bytes) (si : Nat) (star : Option (Nat × Nat)) : Prop :=
  ∀ sp ss, star = some (sp, ss) → sp < pat.length ∧ ss ≤ si

/-- What is left to do: the text from the star on, then the pattern. -/
def work (pat s : Bytes) (pi : Nat) (star : Option (Nat × Nat)) : Nat :=
  (s.length - (star.map Prod.snd).getD 0) * (pat.length + 1) + (pat.length - pi)

/-- Moving on in the pattern. -/
theorem work_forward (pat s : Bytes) {pi pi' : Nat} (star : Option (Nat × Nat)) (h : pi < pi')
    (hp : pi' ≤ pat.length) : work pat s pi' star < work pat s pi star := by
  unfold work
  omega

/-- A new star. -/
theorem work_star {pi si : Nat} {star : Option (Nat × Nat)} (hok : StarOk pat si star)
    (h : pi < pat.length) : work pat s (pi + 1) (some (pi, si)) < work pat s pi star := by
  have hle : (star.map Prod.snd).getD 0 ≤ si := by
    cases star with
    | none => exact Nat.zero_le _
    | some p => exact (hok p.1 p.2 rfl).2
  have hmul : (s.length - si) * (pat.length + 1) ≤
      (s.length - (star.map Prod.snd).getD 0) * (pat.length + 1) :=
    Nat.mul_le_mul_right _ (by omega)
  unfold work
  simp only [Option.map_some, Option.getD_some]
  omega

/-- Going back. -/
theorem work_back (pat : Bytes) (pi sp : Nat) {ss : Nat} (h : ss < s.length) :
    work pat s (sp + 1) (some (sp, ss + 1)) < work pat s pi (some (sp, ss)) := by
  have hmul : (s.length - ss) * (pat.length + 1) =
      (s.length - (ss + 1)) * (pat.length + 1) + (pat.length + 1) := by
    rw [← Nat.succ_mul]
    congr 1
    omega
  unfold work
  simp only [Option.map_some, Option.getD_some]
  omega

/-- The part of a round that goes back to the star. -/
def globBack (pat s : Bytes) (f : Nat) : Option (Nat × Nat) → Option Bool
  | some (sp, ss) => globLoop pat s f (sp + 1) (ss + 1) (some (sp, ss + 1))
  | none => some false

/-- A round of the loop before the end of the text. -/
theorem globLoop_round (f : Nat) {pi si : Nat} {c : UInt8} (star : Option (Nat × Nat))
    (hs : s[si]? = some c) :
    globLoop pat s (f + 1) pi si star =
      (pat[pi]?).elim (globBack pat s f star) fun p =>
        if p = 42 then globLoop pat s f (pi + 1) si (some (pi, si))
        else if p = 63 then globLoop pat s f (pi + 1) (si + 1) star
        else if p = 91 then
          if (matchClass (pat.drop pi) c).2
            then globLoop pat s f (pi + (matchClass (pat.drop pi) c).1) (si + 1) star
          else globBack pat s f star
        else if p = c then globLoop pat s f (pi + 1) (si + 1) star
        else globBack pat s f star := by
  conv_lhs => unfold globLoop
  simp only [hs]
  cases star <;> cases pat[pi]? <;> rfl

/-- What a state of the loop answers. -/
def Answers (pat s : Bytes) (pi si : Nat) (star : Option (Nat × Nat)) (r : Option Bool) : Prop :=
  ∃ b, r = some b ∧ (b = true ↔ Hope (backOf pat s star) (tokens (pat.drop pi)) (s.drop si))

/-- The states of the loop. -/
structure GlobInv (pat s : Bytes) (pi si : Nat) (star : Option (Nat × Nat)) : Prop where
  pattern : pi ≤ pat.length
  text : si ≤ s.length
  found : StarOk pat si star
  tied : Tied (backOf pat s star) (tokens (pat.drop pi)) (s.drop si)

/-- Going back to a star. -/
theorem back_inv {pi si sp ss : Nat} (h : GlobInv pat s pi si (some (sp, ss)))
    (hs : si < s.length) : GlobInv pat s (sp + 1) (ss + 1) (some (sp, ss + 1)) := by
  obtain ⟨hsp, hss⟩ := h.found sp ss rfl
  refine ⟨hsp, by omega, fun sp' ss' e => ?_, tied_self⟩
  cases e
  exact ⟨hsp, le_rfl⟩

/-- The text does not match from here, so the loop goes back. -/
theorem back_answers {f pi si : Nat} {star : Option (Nat × Nat)} (h : GlobInv pat s pi si star)
    (hs : si < s.length) (hno : ¬ Matches (tokens (pat.drop pi)) (s.drop si))
    (ih : ∀ sp ss, star = some (sp, ss) →
      Answers pat s (sp + 1) (ss + 1) (some (sp, ss + 1))
        (globLoop pat s f (sp + 1) (ss + 1) (some (sp, ss + 1)))) :
    Answers pat s pi si star (globBack pat s f star) := by
  cases star with
  | none =>
    refine ⟨false, rfl, iff_of_false (by decide) fun hope => hope.elim hno again_none⟩
  | some p =>
    obtain ⟨sp, ss⟩ := p
    obtain ⟨b, hb, hiff⟩ := ih sp ss rfl
    have hss : ss < s.length := lt_of_le_of_lt (h.found sp ss rfl).2 hs
    refine ⟨b, hb, hiff.trans ?_⟩
    show Hope (some (tokens (pat.drop (sp + 1)), s.drop (ss + 1))) (tokens (pat.drop (sp + 1)))
      (s.drop (ss + 1)) ↔
      Hope (some (tokens (pat.drop (sp + 1)), s.drop ss)) (tokens (pat.drop pi)) (s.drop si)
    rw [List.drop_eq_getElem_cons hss]
    exact (hope_back hno).symm

/-- A token that takes one byte. -/
theorem one_answers {f pi si n : Nat} {star : Option (Nat × Nat)} {c : UInt8} {test : UInt8 → Bool}
    (h : GlobInv pat s pi si star) (hc : s[si]? = some c) (hn : pi + n ≤ pat.length)
    (htok : tokens (pat.drop pi) = .one test :: tokens (pat.drop (pi + n)))
    (hforward : GlobInv pat s (pi + n) (si + 1) star →
      Answers pat s (pi + n) (si + 1) star (globLoop pat s f (pi + n) (si + 1) star))
    (hback : ∀ sp ss, star = some (sp, ss) →
      Answers pat s (sp + 1) (ss + 1) (some (sp, ss + 1))
        (globLoop pat s f (sp + 1) (ss + 1) (some (sp, ss + 1)))) :
    Answers pat s pi si star
      (if test c = true then globLoop pat s f (pi + n) (si + 1) star
        else globBack pat s f star) := by
  obtain ⟨hsi, hdrop⟩ := drop_of_getElem? hc
  by_cases htest : test c = true
  · rw [if_pos htest]
    have ht := h.tied
    rw [htok, hdrop] at ht
    obtain ⟨htied, hope⟩ := hope_one htest ht
    have hstar : StarOk pat (si + 1) star :=
      fun sp ss e => ⟨(h.found sp ss e).1, Nat.le_succ_of_le (h.found sp ss e).2⟩
    obtain ⟨b, hb, hiff⟩ := hforward ⟨hn, hsi, hstar, htied⟩
    refine ⟨b, hb, hiff.trans ?_⟩
    rw [htok, hdrop]
    exact hope.symm
  · rw [if_neg htest]
    refine back_answers h hsi ?_ hback
    rw [htok, hdrop, matches_one]
    rintro ⟨c', t, e, hc', -⟩
    cases e
    exact htest hc'

/-- A star is remembered, and takes nothing at first. -/
theorem star_answers {f pi si : Nat} {star : Option (Nat × Nat)} (h : GlobInv pat s pi si star)
    (hp : pat[pi]? = some 42)
    (hforward : GlobInv pat s (pi + 1) si (some (pi, si)) →
      Answers pat s (pi + 1) si (some (pi, si)) (globLoop pat s f (pi + 1) si (some (pi, si)))) :
    Answers pat s pi si star (globLoop pat s f (pi + 1) si (some (pi, si))) := by
  obtain ⟨hpi, hdrop⟩ := drop_of_getElem? hp
  have ht := h.tied
  rw [hdrop, tokens_star] at ht
  have hstar : StarOk pat si (some (pi, si)) := fun sp ss e => by cases e; exact ⟨hpi, le_rfl⟩
  obtain ⟨b, hb, hiff⟩ := hforward ⟨hpi, h.text, hstar, tied_self⟩
  refine ⟨b, hb, hiff.trans ?_⟩
  rw [hdrop, tokens_star]
  exact (hope_star ht).symm

/-- A bracket: the class as a token, whether it has the byte, and where the pattern goes on. -/
theorem class_token {pi : Nat} (c : UInt8) (hp : pat[pi]? = some 91) :
    (matchClass (pat.drop pi) c).2 =
        inClass (readClass (pat.drop (pi + 1))).1 (readClass (pat.drop (pi + 1))).2.1 c ∧
      1 ≤ (matchClass (pat.drop pi) c).1 ∧ pi + (matchClass (pat.drop pi) c).1 ≤ pat.length ∧
      tokens (pat.drop pi) =
        .one (inClass (readClass (pat.drop (pi + 1))).1 (readClass (pat.drop (pi + 1))).2.1) ::
          tokens (pat.drop (pi + (matchClass (pat.drop pi) c).1)) := by
  obtain ⟨hpi, hdrop⟩ := drop_of_getElem? hp
  obtain ⟨hmem, hrest, hpos, hlen⟩ := matchClass_eq (pat.drop (pi + 1)) c
  rw [← hdrop] at hmem hrest hpos hlen
  rw [List.length_drop] at hlen
  refine ⟨hmem, hpos, by omega, ?_⟩
  rw [← List.drop_drop (i := (matchClass (pat.drop pi) c).1), hrest, ← tokens_class, ← hdrop]

/-- **The loop.** With enough rounds it answers whether its state has hope. -/
theorem globLoop_spec (f : Nat) :
    ∀ (pi si : Nat) (star : Option (Nat × Nat)), work pat s pi star < f →
    GlobInv pat s pi si star → Answers pat s pi si star (globLoop pat s f pi si star) := by
  -- on the rounds; in each of them the work gets less
  induction f with
  | zero => intro pi si star hw; omega
  | succ f ih =>
    intro pi si star hw h
    cases hc : s[si]? with
    | none =>
      have hend : s.drop si = [] := List.drop_eq_nil_of_le (List.getElem?_eq_none_iff.1 hc)
      refine ⟨(pat.drop pi).all (· == 42), by unfold globLoop; simp only [hc], ?_⟩
      have ht := h.tied
      rw [hend] at ht ⊢
      rw [hope_end ht, tokens_stars]
    | some c =>
      obtain ⟨hsi, hdrop⟩ := drop_of_getElem? hc
      have hback : ∀ sp ss, star = some (sp, ss) →
          Answers pat s (sp + 1) (ss + 1) (some (sp, ss + 1))
          (globLoop pat s f (sp + 1) (ss + 1) (some (sp, ss + 1))) := by
        rintro sp ss rfl
        have hlt := work_back pat pi sp (lt_of_le_of_lt (h.found sp ss rfl).2 hsi)
        exact ih _ _ _ (by omega) (back_inv h hsi)
      have hone : ∀ n, 1 ≤ n → pi + n ≤ pat.length → GlobInv pat s (pi + n) (si + 1) star →
          Answers pat s (pi + n) (si + 1) star (globLoop pat s f (pi + n) (si + 1) star) := by
        intro n hpos hn hinv
        have hlt := work_forward pat s star (show pi < pi + n by omega) hn
        exact ih _ _ _ (by omega) hinv
      rw [globLoop_round f star hc]
      cases hp : pat[pi]? with
      | none =>
        -- the pattern is used up, the text is not
        have hpend : pat.drop pi = [] := List.drop_eq_nil_of_le (List.getElem?_eq_none_iff.1 hp)
        refine back_answers h hsi ?_ hback
        rw [hpend, hdrop, tokens, matches_nil]
        exact List.cons_ne_nil _ _
      | some p =>
        obtain ⟨hpi, hpdrop⟩ := drop_of_getElem? hp
        simp only [Option.elim_some]
        by_cases h1 : p = 42
        · subst h1
          rw [if_pos rfl]
          have hlt := work_star (s := s) h.found hpi
          exact star_answers h hp (ih (pi + 1) si (some (pi, si)) (by omega))
        rw [if_neg h1]
        by_cases h2 : p = 63
        · subst h2
          rw [if_pos rfl]
          have htok : tokens (pat.drop pi) =
              .one (fun _ => true) :: tokens (pat.drop (pi + 1)) := by
            rw [hpdrop, tokens_any]
          exact one_answers h hc hpi htok (hone 1 le_rfl hpi) hback
        rw [if_neg h2]
        by_cases h3 : p = 91
        · subst h3
          rw [if_pos rfl]
          obtain ⟨hmem, hpos, hn, htok⟩ := class_token c hp
          rw [hmem]
          exact one_answers h hc hn htok (hone _ hpos hn) hback
        rw [if_neg h3]
        have htok : tokens (pat.drop pi) =
            .one (fun c => p == c) :: tokens (pat.drop (pi + 1)) := by
          rw [hpdrop, tokens_byte h1 h2 h3]
        have hans := one_answers h hc hpi htok (hone 1 le_rfl hpi) hback
        simp only [beq_iff_eq] at hans
        exact hans

end

/-- **Exactness.** For every pattern and every key `glob_match` ends, and it answers
yes if and only if the key is a concatenation of strings that the tokens of the
pattern take. -/
theorem glob_exact (pat key : Bytes) :
    (globLoop pat key ((key.length + 1) * (pat.length + 1) + 1) 0 0 none).isSome = true ∧
      (globMatch pat key = true ↔ Matches (tokens pat) key) := by
  have hwork : work pat key 0 none < (key.length + 1) * (pat.length + 1) + 1 := by
    unfold work
    simp only [Option.map_none, Option.getD_none, Nat.sub_zero, Nat.succ_mul]
    omega
  have hinv : GlobInv pat key 0 0 none :=
    ⟨Nat.zero_le _, Nat.zero_le _, (fun _ _ e => by cases e), tied_none⟩
  obtain ⟨b, hb, hiff⟩ := globLoop_spec _ 0 0 none hwork hinv
  refine ⟨by rw [hb]; rfl, ?_⟩
  rw [globMatch, hb, Option.getD_some, hiff, List.drop_zero, List.drop_zero]
  exact ⟨fun h => h.resolve_right again_none, .inl⟩

end Inmem.L1
