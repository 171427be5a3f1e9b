import Inmem.L1Encoding.RespCodec

/-!
# Reply frames

What a client reads: `decodeFuel` takes one reply of RESP2 or RESP3 off the front of a
byte string. The text of a simple string or an error is what stands before its CRLF;
it may not hold a CR or an LF itself.

`OneFrame resp3 b`: the bytes `b` are one frame, whatever follows them. A reply is
`Neat` when its simple strings and errors are lines.
-/
namespace Inmem.L1.Resp

open Inmem.L1 Inmem.Core.Decimal

/-- A text that fits on a line. -/
def Line (t : Bytes) : Prop := (13 : UInt8) ∉ t ∧ (10 : UInt8) ∉ t

instance decidableLine (t : Bytes) : Decidable (Line t) := inferInstanceAs (Decidable (_ ∧ _))

/-! ## Reading -/

/-- The text before the CRLF and what follows it. -/
def takeLine : Bytes → Option (Bytes × Bytes)
  | [] => none
  | b :: t =>
    if b = 13 then (if t.head? = some 10 then some ([], t.tail) else none)
    else if b = 10 then none
    else (takeLine t).map fun r => (b :: r.1, r.2)

/-- `n` things in a row. -/
def readMany {A : Type} (read : Bytes → Option (A × Bytes)) : Nat → Bytes → Option (List A × Bytes)
  | 0, b => some ([], b)
  | n + 1, b => (read b).bind fun r => (readMany read n r.2).map fun q => (r.1 :: q.1, q.2)

/-- One thing and then another. -/
def readPair {A : Type} (read : Bytes → Option (A × Bytes)) (b : Bytes) :
    Option ((A × A) × Bytes) :=
  (read b).bind fun r => (read r.2).map fun q => ((r.1, q.1), q.2)

/-- The data of a bulk string and its CRLF. -/
def takeBulk (n : Nat) (b : Bytes) : Option (Bytes × Bytes) :=
  if (b.drop n).take 2 = crlf then some (b.take n, b.drop (n + 2)) else none

/-- The reply whose frame starts with the byte `t` and has this first line. -/
def decodeBody (resp3 : Bool) (read : Bytes → Option (Reply Empty × Bytes)) (t : UInt8)
    (line rest : Bytes) : Option (Reply Empty × Bytes) :=
  if t = 43 then some (.simple line, rest)
  else if t = 45 then some (.error line, rest)
  else if t = 58 then (readInt line).map fun n => (.int n, rest)
  else if t = 36 then
    if line = lit "-1" then (if resp3 then none else some (.bulk none, rest))
    else (readNat line).bind fun n => (takeBulk n rest).map fun r => (.bulk (some r.1), r.2)
  else if t = 42 then
    if line = lit "-1" then (if resp3 then none else some (.nullArray, rest))
    else (readNat line).bind fun n => (readMany read n rest).map fun r => (.array r.1, r.2)
  else if !resp3 then none
  else if t = 95 then (if line = [] then some (.null, rest) else none)
  else if t = 35 then
    if line = lit "t" then some (.bool true, rest)
      else if line = lit "f" then some (.bool false, rest) else none
  else if t = 37 then (readNat line).bind fun n =>
    (readMany (readPair read) n rest).map fun r => (.map r.1, r.2)
  else none

/-- One reply off the front; the fuel bounds how deep replies are nested. -/
def decodeFuel (resp3 : Bool) : Nat → Bytes → Option (Reply Empty × Bytes)
  | 0, _ => none
  | _ + 1, [] => none
  | f + 1, t :: b => (takeLine b).bind fun r => decodeBody resp3 (decodeFuel resp3 f) t r.1 r.2

/-- The bytes are one frame, whatever follows them. -/
def OneFrame (resp3 : Bool) (b : Bytes) : Prop :=
  ∃ f₀ r, ∀ f, f₀ ≤ f → ∀ rest, decodeFuel resp3 f (b ++ rest) = some (r, rest)

/-! ## Lines -/

theorem takeLine_line {s : Bytes} (h : Line s) (rest : Bytes) :
    takeLine (s ++ crlf ++ rest) = some (s, rest) := by
  induction s with
  | nil => rfl
  | cons b s ih =>
    have h13 : b ≠ 13 := fun e => h.1 (by simp [e])
    have h10 : b ≠ 10 := fun e => h.2 (by simp [e])
    have hs : Line s :=
      ⟨fun hm => h.1 (List.mem_cons_of_mem _ hm), fun hm => h.2 (List.mem_cons_of_mem _ hm)⟩
    rw [List.cons_append, List.cons_append, takeLine, if_neg h13, if_neg h10, ih hs]
    rfl

/-- A text with a line break of its own does not end at the CRLF after it. -/
theorem takeLine_broken {s : Bytes} (h : ¬ Line s) {r : Bytes × Bytes}
    (hr : takeLine (s ++ crlf) = some r) : r.2 ≠ [] := by
  induction s generalizing r with
  | nil => exact absurd ⟨List.not_mem_nil, List.not_mem_nil⟩ h
  | cons b s ih =>
    rw [List.cons_append, takeLine] at hr
    split at hr
    · -- a CR, and then the rest of the text or the CR of the CRLF
      split at hr
      · rename_i hhead
        cases hr
        cases s with
        | nil => cases hhead
        | cons c s => simp [crlf]
      · cases hr
    · rename_i h13
      split at hr
      · cases hr
      · rename_i h10
        obtain ⟨q, hq, rfl⟩ := Option.map_eq_some_iff.1 hr
        show q.2 ≠ []
        refine ih (fun hs => h ⟨fun hm => ?_, fun hm => ?_⟩) hq
        · rcases List.mem_cons.1 hm with e | hm
          · exact h13 e.symm
          · exact hs.1 hm
        · rcases List.mem_cons.1 hm with e | hm
          · exact h10 e.symm
          · exact hs.2 hm

theorem line_natText (n : Nat) : Line (natText n) :=
  ⟨not_mem_natText (by decide), not_mem_natText (by decide)⟩

theorem line_intText (z : Int) : Line (intText z) := by
  unfold intText
  split
  · refine ⟨fun hm => ?_, fun hm => ?_⟩
    all_goals
      rcases List.mem_cons.1 hm with e | hm
      · cases e
      · exact not_mem_natText (by decide) hm
  · exact line_natText _

theorem line_append {s t : Bytes} (hs : Line s) (ht : Line t) : Line (s ++ t) :=
  ⟨fun h => (List.mem_append.1 h).elim hs.1 ht.1, fun h => (List.mem_append.1 h).elim hs.2 ht.2⟩

/-! ## Replies -/

mutual

/-- The simple strings and errors of a reply are lines. -/
def Reply.Neat {F : Type} : Reply F → Prop
  | .simple s => Line s
  | .error s => Line s
  | .array items => Reply.NeatItems items
  | .map pairs => Reply.NeatPairs pairs
  | _ => True

def Reply.NeatItems {F : Type} : List (Reply F) → Prop
  | [] => True
  | r :: rs => r.Neat ∧ Reply.NeatItems rs

def Reply.NeatPairs {F : Type} : List (Reply F × Reply F) → Prop
  | [] => True
  | (k, v) :: ps => k.Neat ∧ v.Neat ∧ Reply.NeatPairs ps

end

theorem neatItems_iff {F : Type} {items : List (Reply F)} :
    Reply.NeatItems items ↔ ∀ r ∈ items, r.Neat := by
  induction items with
  | nil => simp [Reply.NeatItems]
  | cons r rs ih => simp [Reply.NeatItems, ih]

theorem neatPairs_iff {F : Type} {pairs : List (Reply F × Reply F)} :
    Reply.NeatPairs pairs ↔ ∀ p ∈ pairs, p.1.Neat ∧ p.2.Neat := by
  induction pairs with
  | nil => simp [Reply.NeatPairs]
  | cons p ps ih => simp [Reply.NeatPairs, ih, and_assoc]

/-! ## Lengths and pairs -/

theorem natText_ne_minus (n : Nat) : natText n ≠ lit "-1" := fun h => by
  have : (45 : UInt8) ∈ natText n := by rw [h]; decide
  exact not_mem_natText (by decide) this

theorem takeBulk_append (b rest : Bytes) :
    takeBulk b.length (b ++ (crlf ++ rest)) = some (b, rest) := by
  unfold takeBulk
  rw [List.drop_left, if_pos (by rfl), List.take_left, ← List.drop_drop, List.drop_left]
  rfl

/-- Neighbours as pairs. -/
def pairUp {A : Type} : List A → List (A × A)
  | a :: b :: t => (a, b) :: pairUp t
  | _ => []

/-- Frames in pairs can be read in pairs. -/
theorem readMany_pairs {A : Type} {read : Bytes → Option (A × Bytes)} (n : Nat) :
    ∀ {b rest : Bytes} {xs : List A},
    readMany read (n * 2) b = some (xs, rest) →
      readMany (readPair read) n b = some (pairUp xs, rest) := by
  induction n with
  | zero => intro b rest xs h; cases h; rfl
  | succ n ih =>
    intro b rest xs h
    rw [Nat.succ_mul, readMany] at h
    obtain ⟨r, hr, h⟩ := Option.bind_eq_some_iff.1 h
    obtain ⟨q, hq, hx⟩ := Option.map_eq_some_iff.1 h
    rw [readMany] at hq
    obtain ⟨r', hr', hq⟩ := Option.bind_eq_some_iff.1 hq
    obtain ⟨q', hq', rfl⟩ := Option.map_eq_some_iff.1 hq
    cases hx
    rw [readMany, readPair, hr, Option.bind_some, hr', Option.map_some, Option.bind_some, ih hq']
    rfl

end Inmem.L1.Resp
