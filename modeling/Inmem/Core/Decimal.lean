import Mathlib.Data.Nat.Digits.Lemmas

/-!
# Decimal numerals as bytes

`natText n` is the shortest decimal numeral of `n` (no leading zero except
for `0` itself), `intText z` puts a `-` before the numeral of a negative
number. `readNat` reads a non-empty run of ASCII digits, `readInt` an
optional sign and then digits; both accept leading zeros, so they are left
inverses of the writers and not inverses.

Results:
* `readNat_natText`, `readInt_intText`: reading what was written.
* `natText_digit`: every byte written by `natText` is an ASCII digit; with it
  a numeral contains neither a line end nor a sign.
* `natText_canonical`, `intText_canonical`: no zero stands before the digits.
-/
namespace Inmem.Core.Decimal

abbrev Text := List UInt8

def isDigit (b : UInt8) : Bool := 48 ≤ b && b ≤ 57

def digit (d : Nat) : UInt8 := UInt8.ofNat (48 + d)

def digitVal (b : UInt8) : Nat := b.toNat - 48

/-- The numeral of a natural number. -/
def natText (n : Nat) : Text :=
  if n = 0 then [digit 0] else ((Nat.digits 10 n).map digit).reverse

/-- The numeral of an integer. -/
def intText (z : Int) : Text :=
  if z < 0 then 45 :: natText z.natAbs else natText z.natAbs

/-- A non-empty run of digits. -/
def readNat (t : Text) : Option Nat :=
  if t ≠ [] ∧ t.all isDigit = true then some (t.foldl (fun a b => 10 * a + digitVal b) 0) else none

/-- An optional sign, then a non-empty run of digits. -/
def readInt : Text → Option Int
  | 45 :: t => (readNat t).map fun n : Nat => -(n : Int)
  | 43 :: t => (readNat t).map fun n : Nat => (n : Int)
  | t => (readNat t).map fun n : Nat => (n : Int)

theorem digit_toNat {d : Nat} (h : d < 10) : (digit d).toNat = 48 + d := by
  unfold digit; rw [UInt8.toNat_ofNat']; omega

theorem digitVal_digit {d : Nat} (h : d < 10) : digitVal (digit d) = d := by
  unfold digitVal; rw [digit_toNat h]; omega

theorem isDigit_iff (b : UInt8) : isDigit b = true ↔ 48 ≤ b.toNat ∧ b.toNat ≤ 57 := by
  simp [isDigit, UInt8.le_iff_toNat_le]

theorem isDigit_digit {d : Nat} (h : d < 10) : isDigit (digit d) = true := by
  rw [isDigit_iff, digit_toNat h]; omega

theorem natText_ne_nil (n : Nat) : natText n ≠ [] := by
  unfold natText
  split
  · simp
  · simpa [Nat.digits_ne_nil_iff_ne_zero] using ‹n ≠ 0›

theorem natText_length {n k : Nat} (hk : 0 < k) (h : n < 10 ^ k) : (natText n).length ≤ k := by
  unfold natText
  split
  · exact hk
  · rw [List.length_reverse, List.length_map]
    exact (Nat.digits_length_le_iff (by decide) n).2 h

theorem natText_digit {n : Nat} {b : UInt8} (hb : b ∈ natText n) : isDigit b = true := by
  unfold natText at hb
  split at hb
  · simp only [List.mem_singleton] at hb; subst hb; decide
  · simp only [List.mem_reverse, List.mem_map] at hb
    obtain ⟨d, hd, rfl⟩ := hb
    exact isDigit_digit (Nat.digits_lt_base (by decide) hd)

/-- A byte that is not a digit does not occur in a numeral. -/
theorem not_mem_natText {n : Nat} {b : UInt8} (h : isDigit b = false) : b ∉ natText n := by
  intro hb; rw [natText_digit hb] at h; cases h

theorem foldl_digits (l : List Nat) (h : ∀ d ∈ l, d < 10) :
    (l.map digit).reverse.foldl (fun a b => 10 * a + digitVal b) 0 = Nat.ofDigits 10 l := by
  induction l with
  | nil => rfl
  | cons d l ih =>
    simp only [List.map_cons, List.reverse_cons, List.foldl_append, List.foldl_cons,
      List.foldl_nil, ih fun x hx => h x (List.mem_cons_of_mem _ hx),
      digitVal_digit (h d List.mem_cons_self), Nat.ofDigits_cons]
    omega

theorem readNat_natText (n : Nat) : readNat (natText n) = some n := by
  have hall : (natText n).all isDigit = true := List.all_eq_true.2 fun b hb => natText_digit hb
  unfold readNat
  rw [if_pos ⟨natText_ne_nil n, hall⟩]
  unfold natText
  split
  · rename_i h; subst h; rfl
  · rw [foldl_digits _ fun d hd => Nat.digits_lt_base (by decide) hd, Nat.ofDigits_digits]

/-- A numeral starts with a digit, so it never starts with a sign. -/
theorem natText_cons (n : Nat) : ∃ b t, natText n = b :: t ∧ isDigit b = true := by
  cases h : natText n with
  | nil => exact absurd h (natText_ne_nil n)
  | cons b t => exact ⟨b, t, rfl, natText_digit (n := n) (by rw [h]; exact List.mem_cons_self)⟩

/-- Without a leading sign `readInt` is `readNat`. -/
theorem readInt_digit {b : UInt8} {t : Text} (h : isDigit b = true) :
    readInt (b :: t) = (readNat (b :: t)).map fun n : Nat => (n : Int) := by
  rw [isDigit_iff] at h
  have h45 : b ≠ 45 := by rintro rfl; simp at h
  have h43 : b ≠ 43 := by rintro rfl; simp at h
  unfold readInt
  split
  · rename_i e; cases e; exact absurd rfl h45
  · rename_i e; cases e; exact absurd rfl h43
  · rfl

theorem readInt_natText (n : Nat) : readInt (natText n) = some (n : Int) := by
  obtain ⟨b, t, e, hb⟩ := natText_cons n
  rw [e, readInt_digit hb, ← e, readNat_natText]; rfl

theorem readInt_intText (z : Int) : readInt (intText z) = some z := by
  unfold intText
  split
  · show (readNat (natText z.natAbs)).map (fun n : Nat => -(n : Int)) = some z
    rw [readNat_natText]; simp only [Option.map_some, Option.some.injEq]; omega
  · rw [readInt_natText]; simp only [Option.some.injEq]; omega

theorem intText_natCast (n : Nat) : intText (n : Int) = natText n := by
  unfold intText; rw [if_neg (by omega)]; simp

example : natText 0 = [48] ∧ natText 1048576 = [49, 48, 52, 56, 53, 55, 54] := by decide

/-- Digits that are read as `n`, with no superfluous zero before them. -/
def Canonical (t : Text) (n : Nat) : Prop :=
  readNat t = some n ∧ (t.head? = some (digit 0) → t = [digit 0])

/-- A sign exactly for the negative numbers, then the numeral of the absolute value. -/
def CanonicalInt (t : Text) (z : Int) : Prop :=
  if z < 0 then ∃ u, t = 45 :: u ∧ Canonical u z.natAbs else Canonical t z.natAbs

theorem digit_eq_zero {d : Nat} (hd : d < 10) (h : digit d = digit 0) : d = 0 := by
  have hval := congrArg digitVal h
  rwa [digitVal_digit hd, digitVal_digit (by decide)] at hval

theorem natText_canonical (n : Nat) : Canonical (natText n) n := by
  refine ⟨readNat_natText n, fun h => ?_⟩
  unfold natText at h ⊢
  split
  · rfl
  · rename_i hn
    -- the first digit written is the last one computed
    have hne : Nat.digits 10 n ≠ [] := Nat.digits_ne_nil_iff_ne_zero.2 hn
    rw [if_neg hn, List.head?_reverse, List.getLast?_map, List.getLast?_eq_getLast_of_ne_nil hne,
      Option.map_some] at h
    have hzero :=
      digit_eq_zero (Nat.digits_lt_base (by decide) (List.getLast_mem hne)) (Option.some.inj h)
    exact absurd hzero (Nat.getLast_digit_ne_zero 10 hn)

theorem intText_canonical (z : Int) : CanonicalInt (intText z) z := by
  unfold CanonicalInt intText
  split
  · exact ⟨_, rfl, natText_canonical _⟩
  · exact natText_canonical _

/-- A text with a byte that is neither a digit nor a sign is no numeral. -/
theorem readInt_eq_none {t : Text} {b : UInt8} (hb : b ∈ t) (hd : isDigit b = false) (h45 : b ≠ 45)
    (h43 : b ≠ 43) : readInt t = none := by
  have key : ∀ u : Text, b ∈ u → readNat u = none := by
    intro u hu
    refine if_neg fun h => ?_
    rw [List.all_eq_true.1 h.2 b hu] at hd; cases hd
  unfold readInt
  split
  · rw [key _ ((List.mem_cons.1 hb).resolve_left h45)]; rfl
  · rw [key _ ((List.mem_cons.1 hb).resolve_left h43)]; rfl
  · rw [key _ hb]; rfl

end Inmem.Core.Decimal
