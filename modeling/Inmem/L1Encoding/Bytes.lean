import Inmem.Core.Decimal

/-!
# Byte strings and the `str` operations the server applies to them

Keys, values, arguments and wire buffers are all `Vec<u8>` / `Box<[u8]>` /
`&[u8]`; here they are `Bytes`. The standard-library text operations used on
them are modelled on the bytes:

* `upper`, `lower`, `eqCi`: ASCII case mapping (`make_ascii_uppercase`,
  `eq_ignore_ascii_case`); bytes outside `A-Z` / `a-z` are untouched.
* `fromUtf8Lossy`: `String::from_utf8_lossy`, which replaces each maximal
  prefix of an ill-formed sequence by U+FFFD.
* `parseI64`: `str::from_utf8(b).ok().and_then(|s| s.parse::<i64>().ok())`.
  The integer grammar is ASCII only, so the UTF-8 check rejects nothing that
  the digit check does not already reject.
* `trim`: `str::trim` (Unicode `White_Space`), on the encoded characters. It is
  only applied before `parse::<i64>`, where an ill-formed string fails anyway.
-/
namespace Inmem.L1

open Inmem.Core.Decimal

abbrev Bytes := List UInt8

/-- A byte-string literal `b"..."`. -/
def lit (s : String) : Bytes := s.toUTF8.data.toList

theorem drop_of_getElem? {l : Bytes} {i : Nat} {x : UInt8} (h : l[i]? = some x) :
    i < l.length ∧ l.drop i = x :: l.drop (i + 1) := by
  obtain ⟨hi, rfl⟩ := List.getElem?_eq_some_iff.1 h
  exact ⟨hi, List.drop_eq_getElem_cons hi⟩

/-! ## ASCII case -/

def upperByte (b : UInt8) : UInt8 := if 97 ≤ b && b ≤ 122 then b - 32 else b

def lowerByte (b : UInt8) : UInt8 := if 65 ≤ b && b ≤ 90 then b + 32 else b

def upper (t : Bytes) : Bytes := t.map upperByte

def lower (t : Bytes) : Bytes := t.map lowerByte

/-- mirrors crates/server/src/commands.rs:86-88 (`eq_ci`) -/
def eqCi (a b : Bytes) : Bool := decide (lower a = lower b)

/-- `u8::is_ascii_whitespace`: space, tab, line feed, form feed, carriage
return (not the vertical tab). -/
def isAsciiWhitespace (b : UInt8) : Bool := b == 32 || b == 9 || b == 10 || b == 12 || b == 13

/-! ## UTF-8 -/

def isCont (b : UInt8) : Bool := 0x80 ≤ b && b ≤ 0xBF

/-- Second byte of a three-byte sequence: no overlong form, no surrogate. -/
def second3 (b c : UInt8) : Bool :=
  (b == 0xE0 && 0xA0 ≤ c && c ≤ 0xBF) || (0xE1 ≤ b && b ≤ 0xEC && isCont c) ||
    (b == 0xED && 0x80 ≤ c && c ≤ 0x9F) || (0xEE ≤ b && b ≤ 0xEF && isCont c)

/-- Second byte of a four-byte sequence: no overlong form, at most U+10FFFF. -/
def second4 (b c : UInt8) : Bool :=
  (b == 0xF0 && 0x90 ≤ c && c ≤ 0xBF) || (0xF1 ≤ b && b ≤ 0xF3 && isCont c) ||
    (b == 0xF4 && 0x80 ≤ c && c ≤ 0x8F)

/-- The character or the maximal ill-formed prefix at the head of a
non-empty string: its length less one and whether it is well formed. -/
def utf8Head (b : UInt8) (t : Bytes) : Nat × Bool :=
  let at' (p : UInt8 → Bool) (i : Nat) : Bool := (t[i]?).any p
  if b < 0x80 then (0, true)
  else if 0xC2 ≤ b && b ≤ 0xDF then
    if at' isCont 0 then (1, true) else (0, false)
  else if 0xE0 ≤ b && b ≤ 0xEF then
    if !at' (second3 b) 0 then (0, false)
    else if at' isCont 1 then (2, true) else (1, false)
  else if 0xF0 ≤ b && b ≤ 0xF4 then
    if !at' (second4 b) 0 then (0, false)
    else if !at' isCont 1 then (1, false)
    else if at' isCont 2 then (3, true) else (2, false)
  else (0, false)

def lossyLoop : Nat → Bytes → Bytes
  | 0, _ => []
  | _, [] => []
  | f + 1, b :: t =>
    let (n, ok) := utf8Head b t
    (if ok then b :: t.take n else [0xEF, 0xBF, 0xBD]) ++ lossyLoop f (t.drop n)

/-- `String::from_utf8_lossy(..)`, as the bytes of the resulting string. -/
def fromUtf8Lossy (t : Bytes) : Bytes := lossyLoop t.length t

theorem isCont_high {c : UInt8} (h : isCont c = true) : 0x80 ≤ c := by
  simp only [isCont, Bool.and_eq_true, decide_eq_true_eq] at h
  exact h.1

theorem second3_high {b c : UInt8} (h : second3 b c = true) : 0x80 ≤ c := by
  simp only [second3, isCont, Bool.or_eq_true, Bool.and_eq_true, decide_eq_true_eq,
    UInt8.le_iff_toNat_le, UInt8.reduceToNat] at h ⊢
  omega

theorem second4_high {b c : UInt8} (h : second4 b c = true) : 0x80 ≤ c := by
  simp only [second4, isCont, Bool.or_eq_true, Bool.and_eq_true, decide_eq_true_eq,
    UInt8.le_iff_toNat_le, UInt8.reduceToNat] at h ⊢
  omega

/-- The bytes taken together with the head of a character are not ASCII. -/
theorem utf8Head_high (b : UInt8) (t : Bytes) : ∀ c ∈ t.take (utf8Head b t).1, 0x80 ≤ c := by
  have key : ∀ {p : UInt8 → Bool} {i : Nat}, (∀ {c}, p c = true → 0x80 ≤ c) → (t[i]?).any p = true →
      ∀ c ∈ t[i]?, 0x80 ≤ c := by
    intro p i hp h c hc
    rw [Option.mem_def.1 hc] at h
    exact hp h
  -- the bytes at the first positions, as far as they have been looked at
  have take : ∀ n, (∀ i < n, ∀ c ∈ t[i]?, 0x80 ≤ c) → ∀ c ∈ t.take n, 0x80 ≤ c := by
    intro n h c hc
    obtain ⟨i, hi, rfl⟩ := List.getElem_of_mem hc
    rw [List.length_take] at hi
    exact h i (by omega) _ (by rw [List.getElem_take]; exact List.getElem?_eq_getElem (by omega))
  unfold utf8Head
  refine take _ fun i hi => ?_
  dsimp only at hi
  split at hi
  · omega
  split at hi
  · split at hi
    · obtain rfl : i = 0 := by omega
      exact key isCont_high ‹_›
    · omega
  split at hi
  · split at hi
    · omega
    rename_i h0
    have h0 : (t[0]?).any (second3 b) = true := by simpa using h0
    split at hi
    · obtain rfl | rfl : i = 0 ∨ i = 1 := by omega
      · exact key second3_high h0
      · exact key isCont_high ‹_›
    · obtain rfl : i = 0 := by omega
      exact key second3_high h0
  split at hi
  · split at hi
    · omega
    rename_i h0
    have h0 : (t[0]?).any (second4 b) = true := by simpa using h0
    split at hi
    · obtain rfl : i = 0 := by omega
      exact key second4_high h0
    rename_i h1
    have h1 : (t[1]?).any isCont = true := by simpa using h1
    split at hi
    · obtain rfl | rfl | rfl : i = 0 ∨ i = 1 ∨ i = 2 := by omega
      · exact key second4_high h0
      · exact key isCont_high h1
      · exact key isCont_high ‹_›
    · obtain rfl | rfl : i = 0 ∨ i = 1 := by omega
      · exact key second4_high h0
      · exact key isCont_high h1
  · omega

/-- ASCII bytes pass through the lossy conversion, and it makes no new ones. -/
theorem mem_lossyLoop {a : UInt8} (ha : a < 0x80) (f : Nat) :
    ∀ t : Bytes, t.length ≤ f → (a ∈ lossyLoop f t ↔ a ∈ t) := by
  induction f with
  | zero =>
    intro t ht
    rw [List.length_eq_zero_iff.1 (Nat.le_zero.1 ht)]
    rfl
  | succ f ih =>
    intro t ht
    cases t with
    | nil => rfl
    | cons b t =>
      have hrest :=
        ih (t.drop (utf8Head b t).1)
          (by rw [List.length_drop]; simp only [List.length_cons] at ht; omega)
      have hsplit : a ∈ t ↔ a ∈ t.drop (utf8Head b t).1 := by
        conv_lhs => rw [← List.take_append_drop (utf8Head b t).1 t, List.mem_append]
        exact or_iff_right fun h => absurd (utf8Head_high b t a h) (UInt8.not_le.2 ha)
      have hnew : a ∉ ([0xEF, 0xBF, 0xBD] : Bytes) := by
        intro h
        simp only [List.mem_cons, List.not_mem_nil, or_false] at h
        obtain rfl | rfl | rfl := h <;> exact absurd ha (by decide)
      have hlow : a = b → (utf8Head b t).2 = true := by
        intro h
        rw [utf8Head, if_pos (h ▸ ha)]
      simp only [lossyLoop, List.mem_append, hrest, List.mem_cons, hsplit]
      split
      · rename_i hok
        rw [List.mem_cons]
        have htake : a ∉ t.take (utf8Head b t).1 :=
          fun h => absurd (utf8Head_high b t a h) (UInt8.not_le.2 ha)
        simp only [htake, or_false]
      · rename_i hok
        have hne : a ≠ b := fun h => hok (hlow h)
        simp only [hnew, hne, false_or]

theorem mem_fromUtf8Lossy {a : UInt8} (ha : a < 0x80) (t : Bytes) : a ∈ fromUtf8Lossy t ↔ a ∈ t :=
  mem_lossyLoop ha t.length t le_rfl

theorem small_letter {b : UInt8} (h : (97 ≤ b && b ≤ 122) = true) :
    97 ≤ b.toNat ∧ b.toNat ≤ 122 ∧ (b - 32).toNat = b.toNat - 32 := by
  simp only [Bool.and_eq_true, decide_eq_true_eq, UInt8.le_iff_toNat_le, UInt8.reduceToNat] at h
  refine ⟨h.1, h.2, UInt8.toNat_sub_of_le _ _ ?_⟩
  rw [UInt8.le_iff_toNat_le]
  exact le_trans (by decide) h.1

theorem lowerByte_upperByte (b : UInt8) : lowerByte (upperByte b) = lowerByte b := by
  unfold upperByte
  split
  · rename_i h
    obtain ⟨h1, h2, hsub⟩ := small_letter h
    have hcap : (65 ≤ b - 32 && b - 32 ≤ 90) = true := by
      simp only [Bool.and_eq_true, decide_eq_true_eq, UInt8.le_iff_toNat_le, UInt8.reduceToNat,
        hsub]
      omega
    have hsmall : ¬ (65 ≤ b && b ≤ 90) = true := by
      simp only [Bool.and_eq_true, decide_eq_true_eq, UInt8.le_iff_toNat_le, UInt8.reduceToNat]
      omega
    rw [lowerByte, lowerByte, if_pos hcap, if_neg hsmall, UInt8.sub_add_cancel]
  · rfl

theorem lower_upper (t : Bytes) : lower (upper t) = lower t := by
  rw [lower, upper, List.map_map]
  exact List.map_congr_left fun b _ => lowerByte_upperByte b

/-- A byte that is no letter is in the upper-case text exactly when it is in the text. -/
theorem mem_upper {a : UInt8} (ha : a < 65) (t : Bytes) : a ∈ upper t ↔ a ∈ t := by
  have key : ∀ b : UInt8, upperByte b = a ↔ b = a := by
    intro b
    unfold upperByte
    split
    · rename_i h
      obtain ⟨h1, -, hsub⟩ := small_letter h
      rw [UInt8.lt_iff_toNat_lt] at ha
      simp only [UInt8.reduceToNat] at ha
      constructor
      · intro e
        have := congrArg UInt8.toNat e
        rw [hsub] at this
        omega
      · intro e
        rw [e] at h1
        omega
    · rfl
  rw [upper, List.mem_map]
  constructor
  · intro ⟨b, hb, e⟩
    rw [← (key b).1 e]; exact hb
  · intro h
    exact ⟨a, h, (key a).2 rfl⟩

/-! ## Integers -/

def i64Min : Int := -2 ^ 63

def i64Max : Int := 2 ^ 63 - 1

def InI64 (z : Int) : Prop := i64Min ≤ z ∧ z ≤ i64Max

instance (z : Int) : Decidable (InI64 z) := inferInstanceAs (Decidable (_ ∧ _))

/-- mirrors crates/server/src/commands.rs:89-91 (`parse_i64`) and the body of
crates/proto/src/resp.rs:44-49 (`parse_int`) -/
def parseI64 (t : Bytes) : Option Int := (readInt t).filter fun z => decide (InI64 z)

/-- The encoded characters with the Unicode property `White_Space`. -/
def whiteSpace : List Bytes :=
  [[9], [10], [11], [12], [13], [32], [0xC2, 0x85], [0xC2, 0xA0], [0xE1, 0x9A, 0x80],
    [0xE2, 0x80, 0x80], [0xE2, 0x80, 0x81], [0xE2, 0x80, 0x82], [0xE2, 0x80, 0x83],
    [0xE2, 0x80, 0x84], [0xE2, 0x80, 0x85], [0xE2, 0x80, 0x86], [0xE2, 0x80, 0x87],
    [0xE2, 0x80, 0x88], [0xE2, 0x80, 0x89], [0xE2, 0x80, 0x8A], [0xE2, 0x80, 0xA8],
    [0xE2, 0x80, 0xA9], [0xE2, 0x80, 0xAF], [0xE2, 0x81, 0x9F], [0xE3, 0x80, 0x80]]

def trimStartLoop (ws : List Bytes) : Nat → Bytes → Bytes
  | 0, t => t
  | f + 1, t =>
    match ws.find? (·.isPrefixOf t) with
    | some w => trimStartLoop ws f (t.drop w.length)
    | none => t

/-- `str::trim`. -/
def trim (t : Bytes) : Bytes :=
  let l := trimStartLoop whiteSpace t.length t
  (trimStartLoop (whiteSpace.map List.reverse) l.length l.reverse).reverse

/-- The bytes of a signed numeral. -/
def numeralByte (b : UInt8) : Bool := isDigit b || b == 45

theorem intText_bytes {z : Int} {b : UInt8} (h : b ∈ intText z) : numeralByte b = true := by
  unfold intText at h
  unfold numeralByte
  split at h
  · rcases List.mem_cons.1 h with rfl | h
    · rfl
    · rw [natText_digit h]
      rfl
  · rw [natText_digit h]
    rfl

/-- White space that has a byte that is not of a numeral is not trimmed off one. -/
theorem trimStartLoop_numeral {ws : List Bytes} (hws : ∀ w ∈ ws, ∃ b ∈ w, numeralByte b = false)
    {t : Bytes} (ht : ∀ b ∈ t, numeralByte b = true) (f : Nat) : trimStartLoop ws f t = t := by
  cases f with
  | zero => rfl
  | succ f =>
    have hnone : ws.find? (·.isPrefixOf t) = none := by
      refine List.find?_eq_none.2 fun w hw hp => ?_
      obtain ⟨b, hb, hno⟩ := hws w hw
      rw [ht b ((List.isPrefixOf_iff_prefix.1 hp).subset hb)] at hno
      cases hno
    rw [trimStartLoop, hnone]

theorem trim_intText (z : Int) : trim (intText z) = intText z := by
  have hws : ∀ w ∈ whiteSpace, ∃ b ∈ w, numeralByte b = false := by decide
  have hws' : ∀ w ∈ whiteSpace.map List.reverse, ∃ b ∈ w, numeralByte b = false := by decide
  have hall : ∀ b ∈ (intText z).reverse, numeralByte b = true :=
    fun b hb => intText_bytes (List.mem_reverse.1 hb)
  simp only [trim, trimStartLoop_numeral hws (fun b hb => intText_bytes hb),
    trimStartLoop_numeral hws' hall, List.reverse_reverse]

theorem parseI64_intText {z : Int} (h : InI64 z) : parseI64 (intText z) = some z := by
  simp [parseI64, readInt_intText, h]

theorem parseI64_natText {n : Nat} (h : (n : Int) ≤ i64Max) :
    parseI64 (natText n) = some (n : Int) := by
  rw [← intText_natCast]
  exact parseI64_intText ⟨by unfold i64Min; omega, h⟩

example :
    fromUtf8Lossy [0x61, 0xE2, 0x82, 0x28, 0xC3, 0xA9] =
      [0x61, 0xEF, 0xBF, 0xBD, 0x28, 0xC3, 0xA9] := by
  decide

example : parseI64 (trim (lit " -42\n")) = some (-42) := by decide

end Inmem.L1
