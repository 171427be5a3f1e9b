import Inmem.L1Encoding.RespRanges

/-!
# Header lines without an end

Both parsers answer `Ok(None)` from four places: the line they are reading (inline line,
`*` count line, `$` length line) has no CRLF yet, or the data of a bulk string is not
all there. `waiting` says which. Only for the inline line is there a limit (64 KiB) on
how long they wait.

* `waiting_iff`: the parsers ask for more input exactly where `waiting` says for what.
* `header_bounded_iff`: the line they wait for is within 64 KiB, except for a `*` line or
  a `$` line that is longer; such a line is never refused.
-/
namespace Inmem.L1.Resp

open Inmem.L1 Inmem.Core.Decimal

/-- What a parser waits for: the end of the line that starts at an index, or data. -/
inductive Wait where
  | line (start : Nat)
  | data
  deriving DecidableEq, Repr

/-- What the bulk-string loop waits for, if it does.
mirrors crates/proto/src/resp.rs:84-113 and :157-185 -/
def bulkWait (buf : Bytes) : Nat → Nat → Option Wait
  | 0, _ => none
  | n + 1, pos =>
    if buf.length ≤ pos then some (.line pos)
    else if buf[pos]? ≠ some 36 then none
    else match readLine buf (pos + 1) with
      | none => some (.line pos)
      | some (lenLine, afterLen) =>
        match parseInt lenLine with
        | .error _ => none
        | .ok len =>
          if len < 0 then none
          else if MAX_BULK_LEN < len then none
          else if buf.length < afterLen + len.toNat + 2 then some .data
          else if (buf.drop (afterLen + len.toNat)).take 2 ≠ crlf then none
          else bulkWait buf n (afterLen + len.toNat + 2)

/-- mirrors crates/proto/src/resp.rs:71-83 and :146-156 -/
def arrayWait (buf : Bytes) : Option Wait :=
  match readLine buf 1 with
  | none => some (.line 0)
  | some (line, pos) =>
    match parseInt line with
    | .error _ => none
    | .ok n =>
      if n < 0 then none
      else if MAX_ARRAY_LEN < n then none
      else bulkWait buf n.toNat pos

/-- What either parser waits for, if it does.
mirrors crates/proto/src/resp.rs:60-130 and :137-192 -/
def waiting (buf : Bytes) : Option Wait :=
  match buf with
  | [] => some (.line 0)
  | b :: _ =>
    if b = 42 then arrayWait buf
    else match readLine buf 0 with
      | none => if 64 * 1024 < buf.length then none else some (.line 0)
      | some _ => none

theorem bulkWait_iff {α : Type} (emit : Nat → Nat → α) (buf : Bytes) (n : Nat) : ∀ pos,
    bulkLoop emit buf n pos = .ok none ↔ (bulkWait buf n pos).isSome = true := by
  induction n with
  | zero => intro pos; simp [bulkLoop, bulkWait]
  | succ n ih =>
    intro pos
    simp only [bulkLoop, bulkWait]
    split
    · simp
    split
    · simp
    cases readLine buf (pos + 1) with
    | none => simp
    | some r =>
      obtain ⟨l, o⟩ := r
      cases hlen : parseInt l with
      | error e => simp [hlen]
      | ok len =>
        simp only [hlen]
        split
        · simp
        split
        · simp
        split
        · simp
        split
        · simp
        rw [← ih]
        cases bulkLoop emit buf n _ with
        | error e => simp [Except.map]
        | ok r => cases r <;> simp [Except.map]

theorem arrayWait_iff {α : Type} (emit : Nat → Nat → α) (buf : Bytes) :
    arrayCommand emit buf = .ok none ↔ (arrayWait buf).isSome = true := by
  unfold arrayCommand arrayWait
  cases readLine buf 1 with
  | none => simp
  | some r =>
    obtain ⟨line, pos⟩ := r
    cases hn : parseInt line with
    | error e => simp [hn]
    | ok n =>
      simp only [hn]
      split
      · simp
      split
      · simp
      exact bulkWait_iff emit buf _ _

theorem waiting_ranges (buf : Bytes) :
    parseCommandRanges buf = .ok none ↔ (waiting buf).isSome = true := by
  unfold parseCommandRanges waiting
  cases buf with
  | nil => simp
  | cons b t =>
    simp only
    split
    · exact arrayWait_iff _ _
    cases readLine (b :: t) 0 with
    | none => simp only; split <;> simp
    | some r => simp

/-- Both parsers wait together, for what `waiting` says. -/
theorem waiting_iff (buf : Bytes) : (parseCommand buf = .ok none ↔ (waiting buf).isSome = true) ∧
    (parseCommandRanges buf = .ok none ↔ (waiting buf).isSome = true) := by
  refine ⟨?_, waiting_ranges buf⟩
  rw [← waiting_ranges, parseCommand_ranges]
  cases parseCommandRanges buf with
  | error e => simp [Except.map]
  | ok r => cases r <;> simp [Except.map]

/-! ## Long lines -/

/-- A whole bulk string, as the loop accepts it. -/
def IsBulk (b : Bytes) : Prop :=
  ∃ l d, b = 36 :: (l ++ crlf ++ d ++ crlf) ∧ parseInt l = .ok (d.length : Int) ∧
    (d.length : Int) ≤ MAX_BULK_LEN

/-- Fewer than `n` whole bulk strings, and then a `$` line of more than 64 KiB that has no end. -/
inductive LongLength : Nat → Bytes → Prop
  | here {n : Nat} {t : Bytes} (hopen : crlfAt t = none) (hlong : 64 * 1024 < (36 :: t).length) :
    LongLength (n + 1) (36 :: t)
  | after {n : Nat} {b rest : Bytes} (hb : IsBulk b) (hrest : LongLength n rest) :
    LongLength (n + 1) (b ++ rest)

/-- A buffer with a `*` line or a `$` line of more than 64 KiB that has no end. -/
inductive LongHeader : Bytes → Prop
  | count {t : Bytes} (hopen : crlfAt t = none) (hlong : 64 * 1024 < (42 :: t).length) :
    LongHeader (42 :: t)
  | length {l rest : Bytes} {n : Nat} (hl : parseInt l = .ok (n : Int))
    (hn : (n : Int) ≤ MAX_ARRAY_LEN)
      (hrest : LongLength n rest) : LongHeader (42 :: (l ++ crlf ++ rest))

theorem crlfAt_split {a : Bytes} {k : Nat} (h : crlfAt a = some k) :
    a = a.take k ++ crlf ++ a.drop (k + 2) := by
  induction a generalizing k with
  | nil => cases h
  | cons x t ih =>
    cases t with
    | nil => cases h
    | cons y t =>
      simp only [crlfAt] at h
      split at h
      · rename_i hc
        cases h
        rw [hc.1, hc.2]
        rfl
      · obtain ⟨m, hm, rfl⟩ := Option.map_eq_some_iff.1 h
        have ht := ih hm
        rw [List.take_succ_cons, List.cons_append, List.cons_append, List.drop_succ_cons]
        exact congrArg (x :: ·) ht

/-- A line that is read, its CRLF and the rest. -/
theorem readLine_split {buf l : Bytes} {pos o : Nat} (h : readLine buf pos = some (l, o)) :
    buf.drop pos = l ++ crlf ++ buf.drop o := by
  obtain ⟨k, hk, he⟩ := Option.map_eq_some_iff.1 h
  simp only [Prod.mk.injEq] at he
  obtain ⟨rfl, rfl⟩ := he
  have hsplit := crlfAt_split hk
  rwa [List.drop_drop] at hsplit

theorem not_mem_of_parseInt {l : Bytes} {z : Int} (h : parseInt l = .ok z) : (13 : UInt8) ∉ l := by
  intro hmem
  simp only [parseInt, parseI64, readInt_eq_none hmem (by decide) (by decide) (by decide),
    Option.filter_none] at h
  cases h

/-- A numeral before a CRLF is the line. -/
theorem readLine_numeral {buf l rest : Bytes} {pos : Nat} {z : Int}
    (h : buf.drop pos = l ++ crlf ++ rest) (hl : parseInt l = .ok z) :
    readLine buf pos = some (l, pos + l.length + 2) := by
  have hline := crlfAt_line l rest (not_mem_of_parseInt hl)
  rw [List.append_assoc] at h
  unfold readLine
  rw [h, show l ++ (crlf ++ rest) = l ++ 13 :: 10 :: rest from rfl, hline, Option.map_some,
    List.take_left]

theorem getElem?_of_drop {buf t : Bytes} {pos : Nat} {x : UInt8} (h : buf.drop pos = x :: t) :
    buf[pos]? = some x := by
  have hget := congrArg (·[0]?) h
  simpa using hget

/-- The loop passes a whole bulk string. -/
theorem bulkWait_turn {buf b rest : Bytes} {n pos : Nat} (h : buf.drop pos = b ++ rest)
    (hb : IsBulk b) : bulkWait buf (n + 1) pos = bulkWait buf n (pos + b.length) := by
  obtain ⟨l, d, rfl, hl, hmax⟩ := hb
  have hlen := congrArg List.length h
  simp only [List.length_drop, List.length_append, List.length_cons, crlf, List.length_nil] at hlen
  have hline : buf.drop (pos + 1) = l ++ crlf ++ (d ++ crlf ++ rest) := by
    rw [← List.drop_drop, h]
    simp
  have hdata : buf.drop (pos + 1 + l.length + 2 + d.length) = crlf ++ rest := by
    rw [show pos + 1 + l.length + 2 + d.length =
      pos + 1 + (l ++ crlf ++ d).length by
      simp [crlf]
      omega, ← List.drop_drop, hline,
        show l ++ crlf ++ (d ++ crlf ++ rest) =
          (l ++ crlf ++ d) ++ (crlf ++ rest) by simp, List.drop_left]
  have hcr : (crlf ++ rest).take 2 = crlf := rfl
  rw [bulkWait, if_neg (by omega), if_neg (not_not.2 (getElem?_of_drop h)),
    readLine_numeral hline hl]
  simp only [hl, Int.toNat_natCast, hdata, hcr]
  rw [if_neg (by omega), if_neg (by omega), if_neg (by omega), if_neg (not_not.2 rfl)]
  congr 1
  simp only [List.length_append, List.length_cons, crlf, List.length_nil]
  omega

/-- What the loop passes is a whole bulk string. -/
theorem bulk_of_turn {buf l : Bytes} {pos o : Nat} {len : Int} (h36 : buf[pos]? = some 36)
    (hl : readLine buf (pos + 1) = some (l, o)) (hlen : parseInt l = .ok len) (h0 : 0 ≤ len)
    (hmax : len ≤ MAX_BULK_LEN) (hroom : o + len.toNat + 2 ≤ buf.length)
    (hcr : (buf.drop (o + len.toNat)).take 2 = crlf) :
    ∃ b, IsBulk b ∧ buf.drop pos = b ++ buf.drop (o + len.toNat + 2) := by
  have hdlen : ((buf.drop o).take len.toNat).length = len.toNat := by
    rw [List.length_take, List.length_drop]
    omega
  refine ⟨_, ⟨l, (buf.drop o).take len.toNat, rfl, ?_, ?_⟩, ?_⟩
  · exact hlen.trans (by rw [hdlen, Int.toNat_of_nonneg h0])
  · rw [hdlen, Int.toNat_of_nonneg h0]
    exact hmax
  · -- the byte, the line, the data and the CRLF after it, one after the other
    have hdata := List.take_append_drop len.toNat (buf.drop o)
    have hend := List.take_append_drop 2 (buf.drop (o + len.toNat))
    rw [List.drop_drop] at hdata hend
    rw [hcr] at hend
    calc buf.drop pos = 36 :: buf.drop (pos + 1) := (drop_of_getElem? h36).2
      _ = 36 :: (l ++ crlf ++ buf.drop o) := congrArg _ (readLine_split hl)
      _ = 36 ::
        (l ++ crlf ++ ((buf.drop o).take len.toNat ++ (crlf ++ buf.drop (o + len.toNat + 2)))) := by
        rw [hend, hdata]
      _ = _ := by simp

/-- Where the loop waits for a long line, whole bulk strings come before it. -/
theorem long_of_bulkWait {buf : Bytes} {start : Nat} (hlong : 64 * 1024 < buf.length - start)
    (n : Nat) : ∀ pos,
    bulkWait buf n pos = some (.line start) → LongLength n (buf.drop pos) := by
  induction n with
  | zero =>
    intro pos hw
    cases hw
  | succ n ih =>
    intro pos hw
    rw [bulkWait] at hw
    split at hw
    · cases hw; omega
    rename_i hpos
    split at hw
    · cases hw
    rename_i h36
    have h36 := not_not.1 h36
    split at hw
    · rename_i hl
      cases hw
      rw [(drop_of_getElem? h36).2]
      refine .here (Option.map_eq_none_iff.1 hl) ?_
      rw [List.length_cons, List.length_drop]
      omega
    rename_i l o hl
    split at hw
    · cases hw
    rename_i len hlen
    split at hw
    · cases hw
    split at hw
    · cases hw
    split at hw
    · cases hw
    split at hw
    · cases hw
    rename_i h0 hmax hroom hcr
    obtain ⟨b, hb, hsplit⟩ :=
      bulk_of_turn h36 hl hlen (by omega) (by omega) (by omega) (not_not.1 hcr)
    rw [hsplit]
    exact .after hb (ih _ hw)

/-- A long line after whole bulk strings is one that the loop waits for. -/
theorem LongLength.waits {n : Nat} {s : Bytes} (h : LongLength n s) (buf : Bytes) :
    ∀ pos, buf.drop pos = s →
    ∃ start, bulkWait buf n pos = some (.line start) ∧ 64 * 1024 < buf.length - start := by
  induction h with
  | @here n t hopen hlong =>
    intro pos hs
    have hline : buf.drop (pos + 1) = t := by rw [← List.drop_drop, hs]; rfl
    have hlen := congrArg List.length hs
    rw [List.length_drop] at hlen
    refine ⟨pos, ?_, by omega⟩
    rw [bulkWait, if_neg (by omega), if_neg (not_not.2 (getElem?_of_drop hs)), readLine, hline,
      hopen]
    rfl
  | @after n b rest hb _ ih =>
    intro pos hs
    rw [bulkWait_turn hs hb]
    exact ih _ (by rw [← List.drop_drop, hs, List.drop_left])

/-! ## The bound -/

/-- Where a parser asks for more input, the line it waits for has at most 64 KiB. -/
def HeaderBounded (buf : Bytes) : Prop :=
  parseCommand buf = .ok none ∨ parseCommandRanges buf = .ok none →
    ∀ start, waiting buf = some (.line start) → buf.length - start ≤ 64 * 1024

theorem arrayWait_long (t : Bytes) :
    (∃ start, arrayWait (42 :: t) = some (.line start) ∧ 64 * 1024 < (42 :: t).length - start) ↔
      LongHeader (42 :: t) := by
  constructor
  · intro h
    obtain ⟨start, hw, hlong⟩ := h
    unfold arrayWait at hw
    split at hw
    · rename_i hl
      cases hw
      exact .count (Option.map_eq_none_iff.1 hl) hlong
    · rename_i l pos hl
      split at hw
      · cases hw
      rename_i n hn
      split at hw
      · cases hw
      split at hw
      · cases hw
      rename_i h0 hmax
      have hline := readLine_split hl
      rw [List.drop_one, List.tail_cons] at hline
      rw [hline]
      exact .length (n := n.toNat) (by rw [hn, Int.toNat_of_nonneg (by omega)]) (by omega)
        (long_of_bulkWait hlong _ _ hw)
  · intro h
    cases h with
    | count hopen hlong =>
      refine ⟨0, ?_, hlong⟩
      rw [arrayWait, readLine, List.drop_one, List.tail_cons, hopen]
      rfl
    | @length l rest n hl hn hrest =>
      have hread : readLine (42 :: (l ++ crlf ++ rest)) 1 = some (l, 1 + l.length + 2) :=
        readLine_numeral rfl hl
      have hdrop : (42 :: (l ++ crlf ++ rest)).drop (1 + l.length + 2) = rest := by
        rw [show 1 + l.length + 2 = (l ++ crlf).length + 1 by simp [crlf]; omega,
          List.drop_succ_cons, List.drop_left]
      rw [arrayWait, hread]
      simp only [hl, Int.toNat_natCast]
      rw [if_neg (by omega), if_neg (by omega)]
      exact hrest.waits _ _ hdrop

/-- **Header lines.** A parser waits for a line of more than 64 KiB exactly when this is a
`*` line or a `$` line, which no guard refuses. -/
theorem header_bounded_iff (buf : Bytes) : HeaderBounded buf ↔ ¬ LongHeader buf := by
  have hwait : HeaderBounded buf ↔
      ¬ ∃ start, waiting buf = some (.line start) ∧ 64 * 1024 < buf.length - start := by
    constructor
    · intro hb h
      obtain ⟨start, hw, hlong⟩ := h
      have hnone := (waiting_ranges buf).2 (by rw [hw]; rfl)
      have hle := hb (.inr hnone) start hw
      omega
    · intro hno _ start hw
      by_contra hlong
      exact hno ⟨start, hw, by omega⟩
  rw [hwait, not_iff_not]
  cases buf with
  | nil =>
    constructor
    · intro h
      obtain ⟨start, hw, hlong⟩ := h
      rw [List.length_nil] at hlong
      omega
    · intro h
      cases h
  | cons b t =>
    by_cases hb : b = 42
    · subst hb
      exact arrayWait_long t
    · -- the inline line has its guard
      constructor
      · intro h
        obtain ⟨start, hw, hlong⟩ := h
        simp only [waiting, if_neg hb] at hw
        split at hw
        · split at hw
          · cases hw
          · cases hw
            omega
        · cases hw
      · intro h
        cases h <;> exact absurd rfl hb

/-- A line without CR has no end. -/
theorem crlfAt_open {t : Bytes} (h : (13 : UInt8) ∉ t) : crlfAt t = none := by
  cases hc : crlfAt t with
  | none => rfl
  | some k =>
    refine absurd ?_ h
    rw [crlfAt_split hc]
    simp [crlf]

/-- A count line without CR is waited for, however long it is. -/
theorem count_line_waits {t : Bytes} (h : (13 : UInt8) ∉ t) :
    waiting (42 :: t) = some (.line 0) := by
  rw [waiting, if_pos rfl, arrayWait, readLine, List.drop_one, List.tail_cons, crlfAt_open h]
  rfl

/-- A count of 64 KiB of digits: more than the guard of the inline line lets through. -/
theorem header_unbounded :
    parseCommand (42 :: List.replicate 65536 49) = .ok none ∧
      parseCommandRanges (42 :: List.replicate 65536 49) = .ok none ∧
      ¬ HeaderBounded (42 :: List.replicate 65536 49) := by
  have hwait := count_line_waits (t := List.replicate 65536 49) fun h =>
    absurd (List.eq_of_mem_replicate h) (by decide)
  have hsome : (waiting (42 :: List.replicate 65536 49)).isSome = true := by rw [hwait]; rfl
  refine ⟨(waiting_iff _).1.2 hsome, (waiting_iff _).2.2 hsome, fun hb => ?_⟩
  have hle := hb (.inr ((waiting_iff _).2.2 hsome)) 0 hwait
  rw [List.length_cons, List.length_replicate] at hle
  omega

end Inmem.L1.Resp
