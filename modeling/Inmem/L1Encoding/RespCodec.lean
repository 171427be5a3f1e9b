import Inmem.L1Encoding.Resp

/-!
# The command parser: prefixes, extensions and the round trip

Results, all for arbitrary buffers:
* `parseCommand_append`: a command read from the front of a buffer is read
  the same whatever bytes follow.
* `arrayCommand_prefix`: if the array form is read from `b ++ e` with a consumed
  count beyond `b`, then `b` alone asks for more input.
* `parseCommand_encodeArgs`: the parser inverts `encodeArgs` within the
  parser's limits (`Fits`), with any trailing bytes; `parse_encodeArgs_iff`: and only
  there.
* `encode_prefix_incomplete`: every proper prefix of an encoded command is
  incomplete.
* `writeUint_eq`, `writeInt_eq`, `writeBulk_eq`: the direct writers write what
  `Reply.encode` does; `integer_writer_exact`: the canonical numerals, over the whole
  64-bit range.

Both parsers run `bulkLoop`; its facts are proved for the ranges it pushes
and carried to the copied arguments by `bulkLoop_map`.
-/
namespace Inmem.L1.Resp

open Inmem.L1 Inmem.Core.Decimal

/-! ## Lines -/

theorem crlfAt_le {a : Bytes} {n : Nat} (h : crlfAt a = some n) : n + 2 ≤ a.length := by
  induction a generalizing n with
  | nil => simp [crlfAt] at h
  | cons x t ih =>
    cases t with
    | nil => simp [crlfAt] at h
    | cons y t =>
      simp only [crlfAt] at h
      split at h
      · cases h; simp
      · obtain ⟨m, hm, rfl⟩ := Option.map_eq_some_iff.1 h
        have := ih hm
        simp only [List.length_cons] at this ⊢; omega

theorem crlfAt_append {a : Bytes} {n : Nat} (e : Bytes) (h : crlfAt a = some n) :
    crlfAt (a ++ e) = some n := by
  induction a generalizing n with
  | nil => simp [crlfAt] at h
  | cons x t ih =>
    cases t with
    | nil => simp [crlfAt] at h
    | cons y t =>
      simp only [crlfAt, List.cons_append] at h ⊢
      split at h
      · rename_i hc; rw [if_pos hc]; exact h
      · rename_i hc
        obtain ⟨m, hm, rfl⟩ := Option.map_eq_some_iff.1 h
        have := ih hm
        rw [List.cons_append] at this
        rw [if_neg hc, this]; rfl

/-- A CRLF seen in the longer buffer is already there in the shorter one, or
lies beyond its end. -/
theorem crlfAt_prefix {a e : Bytes} {n : Nat} (h : crlfAt (a ++ e) = some n) :
    crlfAt a = if n + 2 ≤ a.length then some n else none := by
  cases ha : crlfAt a with
  | some m =>
    have := crlfAt_append e ha
    rw [h] at this; cases this
    rw [if_pos (crlfAt_le ha)]
  | none =>
    split
    · rename_i hle
      exfalso
      induction a generalizing n with
      | nil => simp at hle
      | cons x t ih =>
        cases t with
        | nil => simp at hle
        | cons y t =>
          simp only [crlfAt, List.cons_append] at ha h
          split at ha
          · cases ha
          · rename_i hc
            rw [if_neg hc] at h
            obtain ⟨m, hm, rfl⟩ := Option.map_eq_some_iff.1 h
            refine ih (n := m) ?_ ?_ ?_
            · simpa using hm
            · simpa using ha
            · simp only [List.length_cons] at hle ⊢; omega
    · rfl

/-- A line without CR ends at the CRLF that follows it. -/
theorem crlfAt_line (l r : Bytes) (h : (13 : UInt8) ∉ l) :
    crlfAt (l ++ 13 :: 10 :: r) = some l.length := by
  induction l with
  | nil => simp [crlfAt]
  | cons x t ih =>
    have hx : x ≠ 13 := fun e => h (by simp [e])
    have ht := ih fun hm => h (List.mem_cons_of_mem _ hm)
    cases t with
    | nil => simp [crlfAt, hx]
    | cons y t => simp only [List.cons_append] at ht ⊢; simp [crlfAt, hx, ht]

theorem readLine_append {b : Bytes} {s : Nat} {r : Bytes × Nat} (e : Bytes)
    (h : readLine b s = some r) : readLine (b ++ e) s = some r := by
  unfold readLine at h ⊢
  obtain ⟨n, hn, rfl⟩ := Option.map_eq_some_iff.1 h
  have hl := crlfAt_le hn
  rw [List.length_drop] at hl
  rw [List.drop_append_of_le_length (by omega), crlfAt_append e hn, Option.map_some,
    List.take_append_of_le_length (by rw [List.length_drop]; omega)]

theorem readLine_le {b : Bytes} {s : Nat} {l : Bytes} {p : Nat} (h : readLine b s = some (l, p)) :
    s + 2 ≤ p ∧ p ≤ b.length := by
  unfold readLine at h
  obtain ⟨n, hn, he⟩ := Option.map_eq_some_iff.1 h
  have hl := crlfAt_le hn
  rw [List.length_drop] at hl
  simp only [Prod.mk.injEq] at he
  omega

theorem readLine_prefix {b e : Bytes} {s : Nat} {l : Bytes} {p : Nat} (hs : s ≤ b.length)
    (h : readLine (b ++ e) s = some (l, p)) :
    readLine b s = if p ≤ b.length then some (l, p) else none := by
  unfold readLine at h ⊢
  rw [List.drop_append_of_le_length hs] at h
  obtain ⟨n, hn, he⟩ := Option.map_eq_some_iff.1 h
  simp only [Prod.mk.injEq] at he
  obtain ⟨rfl, rfl⟩ := he
  rw [ crlfAt_prefix hn, List.length_drop]
  by_cases hle : n + 2 ≤ b.length - s
  · rw [if_pos hle, if_pos (by omega), Option.map_some,
      List.take_append_of_le_length (by rw [List.length_drop]; omega)]
  · rw [if_neg hle, if_neg (by omega)]; rfl

/-- A numeral written before a CRLF is read back as a line. -/
theorem readLine_natText (pre rest : Bytes) (n : Nat) :
    readLine (pre ++ (natText n ++ 13 :: 10 :: rest)) pre.length =
      some (natText n, pre.length + (natText n).length + 2) := by
  unfold readLine
  rw [List.drop_left, crlfAt_line _ _ (not_mem_natText (by decide)), Option.map_some,
    List.take_left]

theorem parseInt_natText {n : Nat} (h : (n : Int) ≤ i64Max) :
    parseInt (natText n) = .ok (n : Int) := by
  unfold parseInt; rw [parseI64_natText h]

/-! ## The bulk loop -/

/-- The pushed value is a function of the range. -/
theorem bulkLoop_map {α : Type} (emit : Nat → Nat → α) (buf : Bytes) (n pos : Nat) :
    bulkLoop emit buf n pos =
      (bulkLoop Prod.mk buf n pos).map
        (Option.map fun r => (r.1.map fun q => emit q.1 q.2, r.2)) := by
  induction n generalizing pos with
  | zero => rfl
  | succ n ih =>
    simp only [bulkLoop]
    split; · rfl
    split; · rfl
    split; · rfl
    split; · rfl
    split; · rfl
    split; · rfl
    split; · rfl
    split; · rfl
    rw [ih]
    cases bulkLoop Prod.mk buf n _ with
    | error e => rfl
    | ok o => cases o <;> rfl

theorem arrayCommand_map {α : Type} (emit : Nat → Nat → α) (buf : Bytes) :
    arrayCommand emit buf =
      (arrayCommand Prod.mk buf).map
        (Option.map fun r => (r.1.map fun q => emit q.1 q.2, r.2)) := by
  unfold arrayCommand
  split; · rfl
  split; · rfl
  split; · rfl
  split; · rfl
  exact bulkLoop_map emit buf _ _

/-- One successful turn of the loop. -/
theorem bulkLoop_succ {buf : Bytes} {n pos p : Nat} {rs : List (Nat × Nat)}
    (h : bulkLoop Prod.mk buf (n + 1) pos = .ok (some (rs, p))) :
    ∃ l o len rs', buf[pos]? = some 36 ∧ readLine buf (pos + 1) = some (l, o) ∧
      parseInt l = .ok len ∧ 0 ≤ len ∧ len ≤ MAX_BULK_LEN ∧ o + len.toNat + 2 ≤ buf.length ∧
      (buf.drop (o + len.toNat)).take 2 = crlf ∧ rs = (o, len.toNat) :: rs' ∧
      bulkLoop Prod.mk buf n (o + len.toNat + 2) = .ok (some (rs', p)) := by
  simp only [bulkLoop] at h
  split at h; · cases h
  split at h; · cases h
  rename_i _ h36
  split at h
  · cases h
  rename_i l o hl
  split at h; · cases h
  rename_i len hlen
  split at h; · cases h
  split at h; · cases h
  split at h; · cases h
  split at h; · cases h
  rename_i hneg hmax hroom hcr
  cases hr : bulkLoop Prod.mk buf n (o + len.toNat + 2) with
  | error e => rw [hr] at h; cases h
  | ok r =>
    rw [hr] at h
    cases r with
    | none => cases h
    | some r =>
      obtain ⟨rs', p'⟩ := r
      simp only [Except.map, Option.map_some, Except.ok.injEq, Option.some.injEq,
        Prod.mk.injEq] at h
      obtain ⟨rfl, rfl⟩ := h
      exact ⟨l, o, len, rs', not_not.1 h36, hl, hlen, by omega, by omega, by omega,
        not_not.1 hcr, rfl, hr⟩

/-- The converse of `bulkLoop_succ`. -/
theorem bulkLoop_turn (n : Nat) {buf : Bytes} {pos o : Nat} {l : Bytes} {len : Int}
    (h36 : buf[pos]? = some 36) (hl : readLine buf (pos + 1) = some (l, o))
    (hlen : parseInt l = .ok len) (h0 : 0 ≤ len) (hmax : len ≤ MAX_BULK_LEN)
    (hroom : o + len.toNat + 2 ≤ buf.length) (hcr : (buf.drop (o + len.toNat)).take 2 = crlf) :
    bulkLoop Prod.mk buf (n + 1) pos =
      (bulkLoop Prod.mk buf n (o + len.toNat + 2)).map
        (Option.map fun r => ((o, len.toNat) :: r.1, r.2)) := by
  have hpos : ¬ buf.length ≤ pos := by
    intro hle; rw [List.getElem?_eq_none hle] at h36; cases h36
  simp only [bulkLoop]
  rw [if_neg hpos, if_neg (not_not.2 h36), hl]
  simp only [hlen]
  rw [if_neg (by omega), if_neg (by omega), if_neg (by omega), if_neg (not_not.2 hcr)]

/-- What the loop pushes lies, with its CRLF, between `pos` and the end it
returns, which is inside the buffer. -/
theorem bulkLoop_bounds {buf : Bytes} {n pos p : Nat} {rs : List (Nat × Nat)}
    (h : bulkLoop Prod.mk buf n pos = .ok (some (rs, p))) :
    rs.length = n ∧ pos ≤ p ∧ (0 < n → p ≤ buf.length) ∧ ∀ r ∈ rs, r.1 + r.2 + 2 ≤ p := by
  induction n generalizing pos rs with
  | zero =>
    simp only [bulkLoop, Except.ok.injEq, Option.some.injEq, Prod.mk.injEq] at h
    obtain ⟨rfl, rfl⟩ := h
    simp
  | succ n ih =>
    obtain ⟨l, o, len, rs', -, hl, -, -, -, hroom, -, rfl, hr⟩ := bulkLoop_succ h
    obtain ⟨h1, h2, h3, h4⟩ := ih hr
    have := readLine_le hl
    refine ⟨by simp [h1], by omega, fun _ => ?_, ?_⟩
    · rcases Nat.eq_zero_or_pos n with rfl | hn
      · simp only [bulkLoop, Except.ok.injEq, Option.some.injEq, Prod.mk.injEq] at hr
        omega
      · exact h3 hn
    · intro r hr'
      rcases List.mem_cons.1 hr' with rfl | hm
      · simpa using h2
      · exact h4 r hm

theorem bulkLoop_append {b : Bytes} {n pos : Nat} {r : List (Nat × Nat) × Nat} (e : Bytes)
    (h : bulkLoop Prod.mk b n pos = .ok (some r)) :
    bulkLoop Prod.mk (b ++ e) n pos = .ok (some r) := by
  induction n generalizing pos r with
  | zero => exact h
  | succ n ih =>
    obtain ⟨rs, p⟩ := r
    obtain ⟨l, o, len, rs', h36, hl, hlen, h0, hmax, hroom, hcr, rfl, hr⟩ := bulkLoop_succ h
    have hpos : pos < b.length := (List.getElem?_eq_some_iff.1 h36).1
    have hcr' : ((b ++ e).drop (o + len.toNat)).take 2 = crlf := by
      rw [List.drop_append_of_le_length (by omega), List.take_append_of_le_length
        (by rw [List.length_drop]; omega), hcr]
    rw [bulkLoop_turn _ (by rwa [List.getElem?_append_left hpos])
      (readLine_append e hl) hlen h0 hmax
      (by rw [List.length_append]; omega) hcr', ih hr]
    rfl

/-- Read on a longer buffer, the loop's verdict on the shorter one is known:
the same, if it ends inside, else `need more`. -/
theorem bulkLoop_prefix {b e : Bytes} {n pos p : Nat} {rs : List (Nat × Nat)}
    (hpos : pos ≤ b.length) (h : bulkLoop Prod.mk (b ++ e) n pos = .ok (some (rs, p))) :
    bulkLoop Prod.mk b n pos = if p ≤ b.length then .ok (some (rs, p)) else .ok none := by
  induction n generalizing pos rs with
  | zero =>
    simp only [bulkLoop, Except.ok.injEq, Option.some.injEq, Prod.mk.injEq] at h
    obtain ⟨rfl, rfl⟩ := h
    rw [if_pos hpos]; rfl
  | succ n ih =>
    have hb := bulkLoop_bounds h
    obtain ⟨l, o, len, rs', h36, hl, hlen, h0, hmax, hroom, hcr, rfl, hr⟩ := bulkLoop_succ h
    have hop := (bulkLoop_bounds hr).2.1
    rcases Nat.eq_or_lt_of_le hpos with heq | hlt
    · rw [if_neg (by have := readLine_le hl; omega)]
      simp only [bulkLoop, heq, le_refl, if_true]
    have h36' : b[pos]? = some 36 := by rwa [List.getElem?_append_left hlt] at h36
    have hlp := readLine_prefix (by omega : pos + 1 ≤ b.length) hl
    by_cases ho : o ≤ b.length
    · rw [if_pos ho] at hlp
      by_cases hroom' : o + len.toNat + 2 ≤ b.length
      · have hcr' : (b.drop (o + len.toNat)).take 2 = crlf := by
          rwa [List.drop_append_of_le_length (by omega), List.take_append_of_le_length
            (by rw [List.length_drop]; omega)] at hcr
        rw [bulkLoop_turn _ h36' hlp hlen h0 hmax hroom' hcr', ih hroom' hr]
        split <;> rfl
      · rw [if_neg (by omega)]
        simp only [bulkLoop]
        rw [if_neg (by omega), if_neg (not_not.2 h36'), hlp]
        simp only [hlen]
        rw [if_neg (by omega), if_neg (by omega), if_pos (by omega)]
    · rw [if_neg ho] at hlp
      rw [if_neg (by omega)]
      simp only [bulkLoop]
      rw [if_neg (by omega), if_neg (not_not.2 h36'), hlp]

/-! ## Commands -/

/-- The bytes of a range. -/
def slice (buf : Bytes) (r : Nat × Nat) : Bytes := (buf.drop r.1).take r.2

theorem slice_append {b : Bytes} {r : Nat × Nat} (e : Bytes) (h : r.1 + r.2 ≤ b.length) :
    slice (b ++ e) r = slice b r := by
  unfold slice
  rw [List.drop_append_of_le_length (by omega), List.take_append_of_le_length
    (by rw [List.length_drop]; omega)]

theorem parseArrayCommand_eq (buf : Bytes) : parseArrayCommand buf =
    (arrayCommand Prod.mk buf).map (Option.map fun r => (r.1.map (slice buf), r.2)) :=
  arrayCommand_map _ buf

theorem arrayCommand_bounds {buf : Bytes} {rs : List (Nat × Nat)} {p : Nat}
    (h : arrayCommand Prod.mk buf = .ok (some (rs, p))) :
    3 ≤ p ∧ p ≤ buf.length ∧ ∀ r ∈ rs, r.1 + r.2 ≤ p := by
  unfold arrayCommand at h
  split at h; · cases h
  rename_i l pos hl
  have hp := readLine_le hl
  split at h; · cases h
  split at h
  · simp only [Except.ok.injEq, Option.some.injEq, Prod.mk.injEq] at h
    obtain ⟨rfl, rfl⟩ := h
    simp; omega
  split at h; · cases h
  rename_i n _ _ _
  obtain ⟨-, h2, h3, h4⟩ := bulkLoop_bounds h
  refine ⟨by omega, ?_, fun r hr => by have := h4 r hr; omega⟩
  rcases Nat.eq_zero_or_pos n.toNat with h0 | hn
  · simp only [h0, bulkLoop, Except.ok.injEq, Option.some.injEq, Prod.mk.injEq] at h
    omega
  · exact h3 hn

theorem arrayCommand_append {b : Bytes} {r : List (Nat × Nat) × Nat} (e : Bytes)
    (h : arrayCommand Prod.mk b = .ok (some r)) : arrayCommand Prod.mk (b ++ e) = .ok (some r) := by
  unfold arrayCommand at h ⊢
  split at h; · cases h
  rename_i l pos hl
  rw [readLine_append e hl]
  dsimp only
  split at h; · cases h
  split at h
  · rename_i hneg; rw [if_pos hneg]; exact h
  split at h; · cases h
  rename_i hneg hmax
  rw [if_neg hneg, if_neg hmax]
  exact bulkLoop_append e h

theorem arrayCommand_prefix {b e : Bytes} {rs : List (Nat × Nat)} {p : Nat} (hb : 1 ≤ b.length)
    (h : arrayCommand Prod.mk (b ++ e) = .ok (some (rs, p))) :
    arrayCommand Prod.mk b = if p ≤ b.length then .ok (some (rs, p)) else .ok none := by
  unfold arrayCommand at h ⊢
  split at h; · cases h
  rename_i l pos hl
  have hlp := readLine_prefix hb hl
  split at h; · cases h
  rename_i n hn
  by_cases hpos : pos ≤ b.length
  · rw [hlp, if_pos hpos]
    simp only [hn]
    split at h
    · rename_i hneg
      simp only [Except.ok.injEq, Option.some.injEq, Prod.mk.injEq] at h
      obtain ⟨rfl, rfl⟩ := h
      rw [if_pos hneg, if_pos hpos]
    split at h; · cases h
    rename_i hneg hmax
    rw [if_neg hneg, if_neg hmax]
    exact bulkLoop_prefix hpos h
  · have hpp : pos ≤ p := by
      split at h
      · simp only [Except.ok.injEq, Option.some.injEq, Prod.mk.injEq] at h; omega
      split at h; · cases h
      exact (bulkLoop_bounds h).2.1
    rw [hlp, if_neg hpos, if_neg (by omega)]

/-- A command read from the front of a buffer is read the same whatever
bytes follow it. -/
theorem parseCommand_append {b : Bytes} {argv : List Bytes} {c : Nat} (e : Bytes)
    (h : parseCommand b = .ok (some (argv, c))) : parseCommand (b ++ e) = .ok (some (argv, c)) := by
  cases b with
  | nil => cases h
  | cons x t =>
    simp only [parseCommand, List.cons_append] at h ⊢
    split at h
    · rename_i hx
      rw [if_pos hx, ← List.cons_append]
      rw [parseArrayCommand_eq] at h ⊢
      cases ha : arrayCommand Prod.mk (x :: t) with
      | error er => rw [ha] at h; cases h
      | ok o =>
        rw [ha] at h
        cases o with
        | none => cases h
        | some r =>
          obtain ⟨-, hle, hr⟩ := arrayCommand_bounds ha
          simp only [Except.map, Option.map_some, Except.ok.injEq, Option.some.injEq,
            Prod.mk.injEq] at h
          obtain ⟨rfl, rfl⟩ := h
          have hs : r.1.map (slice (x :: t ++ e)) = r.1.map (slice (x :: t)) :=
            List.map_congr_left fun q hq => slice_append e (by have := hr q hq; omega)
          rw [arrayCommand_append e ha]
          simp only [Except.map, Option.map_some, hs]
    · rename_i hx
      rw [if_neg hx, ← List.cons_append]
      unfold parseInlineCommand at h ⊢
      split at h
      · split at h <;> cases h
      · rename_i l p hl
        rw [readLine_append e hl]; exact h

/-- A command takes at least one byte and no more than there are. -/
theorem parseCommand_bounds {b : Bytes} {argv : List Bytes} {c : Nat}
    (h : parseCommand b = .ok (some (argv, c))) : 0 < c ∧ c ≤ b.length := by
  cases b with
  | nil => cases h
  | cons x t =>
    simp only [parseCommand] at h
    split at h
    · rw [parseArrayCommand_eq] at h
      cases ha : arrayCommand Prod.mk (x :: t) with
      | error er => rw [ha] at h; cases h
      | ok o =>
        rw [ha] at h
        cases o with
        | none => cases h
        | some r =>
          have := arrayCommand_bounds ha
          simp only [Except.map, Option.map_some, Except.ok.injEq, Option.some.injEq,
            Prod.mk.injEq] at h
          omega
    · unfold parseInlineCommand at h
      split at h
      · split at h <;> cases h
      · rename_i l p hl
        have := readLine_le hl
        simp only [Except.ok.injEq, Option.some.injEq, Prod.mk.injEq] at h
        omega

/-! ## Round trip -/

/-- An argument vector the parser accepts: at most 1,048,576 arguments of at
most 512 MiB each. -/
def Fits (args : List Bytes) : Prop :=
  (args.length : Int) ≤ MAX_ARRAY_LEN ∧ ∀ a ∈ args, (a.length : Int) ≤ MAX_BULK_LEN

instance (args : List Bytes) : Decidable (Fits args) := inferInstanceAs (Decidable (_ ∧ _))

theorem bulkLoop_fits {buf : Bytes} {n pos p : Nat} {rs : List (Nat × Nat)}
    (h : bulkLoop Prod.mk buf n pos = .ok (some (rs, p))) :
    ∀ r ∈ rs, (r.2 : Int) ≤ MAX_BULK_LEN := by
  induction n generalizing pos rs with
  | zero =>
    simp only [bulkLoop, Except.ok.injEq, Option.some.injEq, Prod.mk.injEq] at h
    obtain ⟨rfl, rfl⟩ := h
    simp
  | succ n ih =>
    obtain ⟨l, o, len, rs', -, -, -, h0, hmax, -, -, rfl, hr⟩ := bulkLoop_succ h
    intro r hr'
    rcases List.mem_cons.1 hr' with rfl | hm
    · exact (Int.toNat_of_nonneg h0).trans_le hmax
    · exact ih hr r hm

/-- What the array form accepts is within the limits. -/
theorem parseCommand_fits {buf : Bytes} {args : List Bytes} {c : Nat}
    (h : parseCommand (42 :: buf) = .ok (some (args, c))) : Fits args := by
  have h : parseArrayCommand (42 :: buf) = .ok (some (args, c)) := h
  rw [parseArrayCommand_eq] at h
  cases hr : arrayCommand Prod.mk (42 :: buf) with
  | error e => rw [hr] at h; cases h
  | ok r =>
    rw [hr] at h
    cases r with
    | none => cases h
    | some r =>
      obtain ⟨rs, p⟩ := r
      simp only [Except.map, Option.map_some, Except.ok.injEq, Option.some.injEq, Prod.mk.injEq]
        at h
      obtain ⟨rfl, -⟩ := h
      unfold arrayCommand at hr
      split at hr; · cases hr
      split at hr; · cases hr
      split at hr
      · simp only [Except.ok.injEq, Option.some.injEq, Prod.mk.injEq] at hr
        obtain ⟨rfl, -⟩ := hr
        exact ⟨show (0 : Int) ≤ MAX_ARRAY_LEN by decide, by simp⟩
      split at hr; · cases hr
      rename_i n _ hneg hmax
      have hlen := (bulkLoop_bounds hr).1
      have hfits := bulkLoop_fits hr
      refine ⟨by rw [List.length_map, hlen]; omega, fun a ha => ?_⟩
      obtain ⟨r, hm, rfl⟩ := List.mem_map.1 ha
      have := hfits r hm
      have hs : (slice (42 :: buf) r).length ≤ r.2 := by unfold slice; rw [List.length_take]; omega
      omega

def encBulk (a : Bytes) : Bytes := 36 :: natText a.length ++ crlf ++ a ++ crlf

theorem encodeArgs_eq (args : List Bytes) :
    encodeArgs args = 42 :: natText args.length ++ crlf ++ args.flatMap encBulk := rfl

theorem le_i64Max {n : Nat} (h : (n : Int) ≤ MAX_BULK_LEN) : (n : Int) ≤ i64Max := by
  unfold MAX_BULK_LEN at h; unfold i64Max; omega

/-- The loop over encoded arguments, wherever they stand in the buffer. -/
theorem bulkLoop_encode (args : List Bytes) (h : ∀ a ∈ args, (a.length : Int) ≤ MAX_BULK_LEN) :
    ∀ pre rest buf : Bytes, buf = pre ++ (args.flatMap encBulk ++ rest) →
      ∃ rs, bulkLoop Prod.mk buf args.length pre.length =
          .ok (some (rs, pre.length + (args.flatMap encBulk).length)) ∧
          rs.map (slice buf) = args := by
  induction args with
  | nil => intro pre rest buf _; exact ⟨[], rfl, rfl⟩
  | cons a args ih =>
    intro pre rest buf hbuf
    have ha := h a List.mem_cons_self
    obtain ⟨rs, hrs, hmap⟩ :=
      ih (fun x hx => h x (List.mem_cons_of_mem _ hx)) (pre ++ encBulk a) rest buf
      (by rw [hbuf]; simp [encBulk])
    -- the argument's header, data and terminator, split off one by one
    have e1 : buf = pre ++ 36 :: (natText a.length ++ 13 :: 10 :: (a ++ 13 :: 10 ::
        (args.flatMap encBulk ++ rest))) := by
      rw [hbuf]; simp [encBulk, crlf]
    have e2 : buf = (pre ++ [36]) ++ (natText a.length ++ 13 :: 10 :: (a ++ 13 :: 10 ::
        (args.flatMap encBulk ++ rest))) := by rw [e1]; simp
    have e3 : buf = (pre ++ 36 :: natText a.length ++ [13, 10]) ++ (a ++ 13 :: 10 ::
        (args.flatMap encBulk ++ rest)) := by rw [e1]; simp
    have e4 : buf = (pre ++ 36 :: natText a.length ++ [13, 10] ++ a) ++ (13 :: 10 ::
        (args.flatMap encBulk ++ rest)) := by rw [e3]; simp
    have hline : readLine buf (pre.length + 1) =
        some (natText a.length, pre.length + 1 + (natText a.length).length + 2) := by
      have := readLine_natText (pre ++ [36])
        (a ++ 13 :: 10 :: (args.flatMap encBulk ++ rest)) a.length
      rw [← e2] at this; simpa using this
    have hdrop : buf.drop (pre.length + 1 + (natText a.length).length + 2 + a.length) =
        13 :: 10 :: (args.flatMap encBulk ++ rest) := by
      have hl : (pre ++ 36 :: natText a.length ++ [13, 10] ++ a).length =
          pre.length + 1 + (natText a.length).length + 2 + a.length := by simp; omega
      rw [← hl, e4, List.drop_left]
    have hslice : slice buf (pre.length + 1 + (natText a.length).length + 2, a.length) = a := by
      have hl : (pre ++ 36 :: natText a.length ++ [13, 10]).length =
          pre.length + 1 + (natText a.length).length + 2 := by simp; omega
      unfold slice
      rw [← hl, e3, List.drop_left, List.take_left]
    have h36 : buf[pre.length]? = some 36 := by
      rw [e1, List.getElem?_append_right (le_refl _)]
      simp
    have hturn :=
      bulkLoop_turn args.length h36 hline (parseInt_natText (le_i64Max ha)) (by omega) ha
      (by have := congrArg List.length hdrop; simp at this ⊢; omega)
      (by simp only [Int.toNat_natCast, hdrop]; rfl)
    have hpos : pre.length + 1 + (natText a.length).length + 2 + a.length + 2 =
        (pre ++ encBulk a).length := by
      simp [encBulk, crlf]; omega
    refine ⟨(pre.length + 1 + (natText a.length).length + 2, a.length) :: rs, ?_, ?_⟩
    · rw [List.length_cons, hturn]
      simp only [Int.toNat_natCast]
      rw [hpos, hrs]
      simp [Except.map, Nat.add_assoc]
    · rw [List.map_cons, hslice, hmap]

/-- **Round trip.** The parser reads an encoded command back, whatever bytes
follow it. -/
theorem parseCommand_encodeArgs (args : List Bytes) (h : Fits args) (rest : Bytes) :
    parseCommand (encodeArgs args ++ rest) = .ok (some (args, (encodeArgs args).length)) := by
  have e : encodeArgs args ++ rest = [42] ++ (natText args.length ++ 13 :: 10 ::
      (args.flatMap encBulk ++ rest)) := by rw [encodeArgs_eq]; simp [crlf]
  have hline := readLine_natText [42] (args.flatMap encBulk ++ rest) args.length
  rw [← e] at hline
  obtain ⟨rs, hrs, hmap⟩ := bulkLoop_encode args h.2 ([42] ++ natText args.length ++ [13, 10]) rest
    (encodeArgs args ++ rest) (by rw [e]; simp)
  have hn : (args.length : Int) ≤ i64Max := by
    have := h.1; unfold MAX_ARRAY_LEN at this; unfold i64Max; omega
  have hpos : ([42] ++ natText args.length ++ [13, 10]).length =
      1 + (natText args.length).length + 2 := by
    simp; omega
  have harr : arrayCommand Prod.mk (encodeArgs args ++ rest) =
      .ok (some (rs, (encodeArgs args).length)) := by
    unfold arrayCommand
    rw [show ([42] : Bytes).length = 1 from rfl] at hline
    rw [hline]
    simp only [parseInt_natText hn]
    rw [if_neg (by omega), if_neg (by have := h.1; omega), Int.toNat_natCast, ← hpos, hrs]
    simp [encodeArgs_eq, crlf]; omega
  have hcons : encodeArgs args ++ rest = 42 :: (encodeArgs args ++ rest).tail := by rw [e]; simp
  have hcmd : parseCommand (encodeArgs args ++ rest) =
      parseArrayCommand (encodeArgs args ++ rest) := by
    rw [hcons]; simp [parseCommand]
  rw [hcmd, parseArrayCommand_eq, harr]
  simp [Except.map, hmap]

/-- A command reads back exactly if it is within the limits. -/
theorem parse_encodeArgs_iff (args : List Bytes) :
    parseCommand (encodeArgs args) = .ok (some (args, (encodeArgs args).length)) ↔ Fits args := by
  refine ⟨fun h => ?_, fun h => ?_⟩
  · rw [encodeArgs_eq] at h
    exact parseCommand_fits h
  · have := parseCommand_encodeArgs args h []
    rwa [List.append_nil] at this

/-- Every proper prefix of an encoded command is incomplete. -/
theorem encode_prefix_incomplete (args : List Bytes) (h : Fits args) (q r : Bytes) (hr : r ≠ [])
    (e : encodeArgs args = q ++ r) : parseCommand q = .ok none := by
  cases q with
  | nil => rfl
  | cons x t =>
    have hx : x = 42 := by rw [encodeArgs_eq] at e; simp at e; exact e.1.symm
    subst hx
    have hlen : (encodeArgs args).length = (42 :: t).length + r.length := by rw [e]; simp; omega
    have hrpos : 0 < r.length := List.length_pos_iff.2 hr
    have hfull := parseCommand_encodeArgs args h []
    rw [List.append_nil, e] at hfull
    simp only [parseCommand, List.cons_append, if_true] at hfull ⊢
    rw [← List.cons_append] at hfull
    rw [parseArrayCommand_eq] at hfull ⊢
    cases ha : arrayCommand Prod.mk (42 :: t ++ r) with
    | error er => rw [ha] at hfull; cases hfull
    | ok o =>
      rw [ha] at hfull
      cases o with
      | none => cases hfull
      | some s =>
        simp only [Except.map, Option.map_some, Except.ok.injEq, Option.some.injEq,
          Prod.mk.injEq] at hfull
        rw [ arrayCommand_prefix (by simp) ha, if_neg]
        · rfl
        · rw [hfull.2, ← e, hlen]; omega

/-! ## Torn frames -/

theorem crlfAt_over {t y : Bytes} {m : Nat} (ht : crlfAt t = none)
    (h : crlfAt (t ++ 42 :: y) = some m) : t.length < m := by
  induction t generalizing m with
  | nil =>
    cases y with
    | nil => cases h
    | cons b y =>
      simp only [List.nil_append, crlfAt] at h
      rw [if_neg (by simp)] at h
      obtain ⟨m', -, rfl⟩ := Option.map_eq_some_iff.1 h
      simp
  | cons x t ih =>
    cases t with
    | nil =>
      simp only [List.cons_append, List.nil_append, crlfAt] at h
      rw [if_neg (by simp)] at h
      obtain ⟨m', hm, rfl⟩ := Option.map_eq_some_iff.1 h
      have := ih rfl hm
      simpa using this
    | cons z t =>
      simp only [List.cons_append, crlfAt] at h ht
      split at ht
      · cases ht
      · rename_i hc
        rw [if_neg hc] at h
        obtain ⟨m', hm, rfl⟩ := Option.map_eq_some_iff.1 h
        have := ih (Option.map_eq_none_iff.1 ht) hm
        simpa using this

theorem parseInt_star {l : Bytes} (h : (42 : UInt8) ∈ l) : ∃ e, parseInt l = .error e := by
  refine ⟨.malformed (lit "invalid integer"), ?_⟩
  simp only [parseInt, parseI64, readInt_eq_none h (by decide) (by decide) (by decide),
    Option.filter_none]

/-- A frame torn inside and then followed by another one: if the parser reads a
command there at all, it has as many arguments as the torn one. -/
theorem parseCommand_torn {args argv : List Bytes} {q r y : Bytes} {c : Nat} (hargs : Fits args)
    (hq : q ≠ []) (e : encodeArgs args = q ++ r)
    (h : parseCommand (q ++ 42 :: y) = .ok (some (argv, c))) : argv.length = args.length := by
  obtain ⟨x, t, rfl⟩ := List.exists_cons_of_ne_nil hq
  have hx : x = 42 := by rw [encodeArgs_eq] at e; simp at e; exact e.1.symm
  subst hx
  have ht : t ++ r = natText args.length ++ 13 :: 10 :: args.flatMap encBulk := by
    rw [encodeArgs_eq] at e
    simpa [crlf] using e.symm
  simp only [parseCommand, List.cons_append, if_true] at h
  rw [parseArrayCommand_eq] at h
  cases ha : arrayCommand Prod.mk (42 :: (t ++ 42 :: y)) with
  | error er => rw [ha] at h; cases h
  | ok o =>
    rw [ha] at h
    obtain _ | ⟨rs, p⟩ := o
    · cases h
    simp only [Except.map, Option.map_some, Except.ok.injEq, Option.some.injEq, Prod.mk.injEq] at h
    rw [← h.1, List.length_map]
    -- the header line: whole in the torn part, or running into the star of the next frame
    unfold arrayCommand readLine at ha
    rw [List.drop_one, List.tail_cons] at ha
    cases hc : crlfAt t with
    | some m =>
      have hm := crlfAt_append r hc
      rw [ht, crlfAt_line _ _ (not_mem_natText (by decide)), Option.some.injEq] at hm
      have hle := crlfAt_le hc
      have hline : (t ++ 42 :: y).take m = natText args.length := by
        rw [List.take_append_of_le_length (by omega)]
        have := congrArg (List.take m) ht
        rwa [List.take_append_of_le_length (by omega), ← hm, List.take_left, hm] at this
      have hn : (args.length : Int) ≤ i64Max := by
        have := hargs.1; unfold MAX_ARRAY_LEN at this; unfold i64Max; omega
      rw [crlfAt_append _ hc] at ha
      simp only [Option.map_some, hline, parseInt_natText hn] at ha
      rw [if_neg (by omega), if_neg (by have := hargs.1; omega), Int.toNat_natCast] at ha
      exact (bulkLoop_bounds ha).1
    | none =>
      cases hs : crlfAt (t ++ 42 :: y) with
      | none => rw [hs] at ha; cases ha
      | some m =>
        have hlt := crlfAt_over hc hs
        have hmem : (42 : UInt8) ∈ (t ++ 42 :: y).take m := by
          refine List.mem_take_iff_getElem.2 ⟨t.length, ?_, ?_⟩
          · simp; omega
          · simp
        obtain ⟨er, he⟩ := parseInt_star hmem
        rw [hs] at ha
        simp only [Option.map_some, he] at ha
        cases ha

/-! ## Direct writers -/

/-- The digit loop fills the buffer from `i` downwards with the digits of `v`. -/
theorem digitLoop_digits (f : Nat) :
    ∀ (v i : Nat) (tmp : Bytes), v < 10 ^ f → f ≤ i → i ≤ tmp.length →
    ∃ j out, digitLoop f v i tmp = some (j, out) ∧
      out.drop j = ((Nat.digits 10 v).map digit).reverse ++ tmp.drop i := by
  induction f with
  | zero =>
    intro v i tmp hv _ _
    obtain rfl : v = 0 := by simpa using hv
    exact ⟨i, tmp, rfl, by simp⟩
  | succ f ih =>
    intro v i tmp hv hi hlen
    by_cases h0 : v = 0
    · subst h0; exact ⟨i, tmp, by simp [digitLoop], by simp⟩
    · obtain ⟨j, out, hloop, hout⟩ := ih (v / 10) (i - 1) (tmp.set (i - 1) (digit (v % 10)))
        (by rw [pow_succ] at hv; omega) (by omega) (by rw [List.length_set]; omega)
      refine ⟨j, out, ?_, ?_⟩
      · rw [digitLoop, if_neg h0, if_neg (by omega)]; exact hloop
      · have hset : (tmp.set (i - 1) (digit (v % 10))).drop (i - 1) =
            digit (v % 10) :: tmp.drop i := by
          rw [List.drop_eq_getElem_cons (by rw [List.length_set]; omega), List.getElem_set_self,
            List.drop_set_of_lt (by omega), Nat.sub_add_cancel (by omega)]
        rw [hout, hset, Nat.digits_def' (by decide) (Nat.pos_of_ne_zero h0)]
        simp

/-- Twenty bytes are enough for every `u64`. -/
theorem digitLoop_u64 (v : UInt64) :
    ∃ j out, digitLoop 20 v.toNat 20 (List.replicate 20 0) = some (j, out) ∧
    out.drop j = ((Nat.digits 10 v.toNat).map digit).reverse := by
  obtain ⟨j, out, hloop, hout⟩ := digitLoop_digits 20 v.toNat 20 (List.replicate 20 0)
    (v.toNat_lt.trans (by decide)) le_rfl (by simp)
  refine ⟨j, out, hloop, ?_⟩
  rw [hout]
  simp

theorem writeUint_eq (v : UInt64) : writeUint v = natText v.toNat := by
  by_cases h : v = 0
  · subst h; decide
  · have hv : v.toNat ≠ 0 := fun h0 => h (UInt64.toNat_inj.1 (by simpa using h0))
    obtain ⟨j, out, hloop, hout⟩ := digitLoop_u64 v
    simp only [writeUint, if_neg h, hloop, hout, natText, if_neg hv]

theorem toNat_ofNat_lt {n : Nat} (h : n < 2 ^ 64) : (UInt64.ofNat n).toNat = n := by
  rw [UInt64.toNat_ofNat']; exact Nat.mod_eq_of_lt h

theorem writeInt_eq {n : Int} (h : InI64 n) : writeInt n = 58 :: intText n ++ crlf := by
  obtain ⟨h1, h2⟩ := h
  rw [i64Min] at h1
  rw [i64Max] at h2
  by_cases hn : n < 0
  · simp only [writeInt, intText, if_pos hn, writeUint_eq,
      toNat_ofNat_lt (show n.natAbs < 2 ^ 64 by omega)]
  · have he : n.toNat = n.natAbs := by omega
    simp only [writeInt, intText, if_neg hn, writeUint_eq, he,
      toNat_ofNat_lt (show n.natAbs < 2 ^ 64 by omega)]

/-- **The integer writer.** For every `u64` the digit loop ends inside its 20 bytes and what
is written is the canonical numeral; for every `i64` the canonical signed numeral is
written between the type byte and CRLF, and `parse_int` reads it back. -/
theorem integer_writer_exact :
    (∀ v : UInt64, (∃ i tmp, digitLoop 20 v.toNat 20 (List.replicate 20 0) = some (i, tmp)) ∧
      Canonical (writeUint v) v.toNat) ∧
    ∀ n : Int, InI64 n → ∃ d, writeInt n = 58 :: d ++ crlf ∧ CanonicalInt d n ∧
      parseInt d = .ok n := by
  refine ⟨fun v => ?_, fun n hn => ?_⟩
  · obtain ⟨j, out, hloop, -⟩ := digitLoop_u64 v
    exact ⟨⟨j, out, hloop⟩, by rw [writeUint_eq]; exact natText_canonical _⟩
  · exact ⟨intText n, writeInt_eq hn, intText_canonical n, by rw [parseInt, parseI64_intText hn]⟩

theorem writeBulk_eq {b : Bytes} (h : b.length < 2 ^ 64) :
    writeBulk b = 36 :: natText b.length ++ crlf ++ b ++ crlf := by
  rw [writeBulk, writeUint_eq, toNat_ofNat_lt h]

end Inmem.L1.Resp
