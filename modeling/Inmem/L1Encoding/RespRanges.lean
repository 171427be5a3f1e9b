import Inmem.L1Encoding.RespCodec
import Mathlib.Data.List.TakeWhile

/-!
# The zero-copy parser

`parse_command_ranges` against `parse_command`, and what it says of a buffer that
is only the front of a longer one.

* `tokenLoop_spec`: the index loop over an inline line finds the pieces that `split`
  and `filter` give.
* `parser_agreement`: the two parsers agree on every buffer.
* `ranges_append`, `ranges_error`: a command stays what it is whatever follows, and so
  does an error, but for the one inline lines get for having no end yet.
-/
namespace Inmem.L1.Resp

open Inmem.L1 Inmem.Core.Decimal

/-! ## Inline lines -/

/-- The non-empty pieces of a line. -/
def words (line : Bytes) : List Bytes := (splitWs line).filter (· ≠ [])

theorem words_blank {b : UInt8} (hb : isAsciiWhitespace b = true) (t : Bytes) :
    words (b :: t) = words t := by
  simp [words, splitWs, hb]

theorem words_dropWhile (line : Bytes) : words (line.dropWhile isAsciiWhitespace) = words line := by
  induction line with
  | nil => rfl
  | cons b t ih =>
    cases hb : isAsciiWhitespace b with
    | true => rw [List.dropWhile_cons_of_pos hb, ih, words_blank hb]
    | false => rw [List.dropWhile_cons_of_neg (by simp [hb])]

/-- A token joins the piece that follows it. -/
theorem splitWs_token {rest : Bytes} {ps : List Bytes} (hr : splitWs rest = [] :: ps) :
    ∀ tok : Bytes, (∀ b ∈ tok, isAsciiWhitespace b = false) →
      splitWs (tok ++ rest) = tok :: ps := by
  intro tok
  induction tok with
  | nil => intro _; exact hr
  | cons b t ih =>
    intro h
    have hb := h b List.mem_cons_self
    rw [List.cons_append, splitWs, ih fun x hx => h x (List.mem_cons_of_mem _ hx)]
    simp [hb]

/-- What follows a token starts a new piece. -/
theorem splitWs_after (line : Bytes) :
    ∃ ps, splitWs (line.dropWhile fun b => !isAsciiWhitespace b) = [] :: ps ∧
      words (line.dropWhile fun b => !isAsciiWhitespace b) = ps.filter (· ≠ []) := by
  induction line with
  | nil => exact ⟨[], rfl, rfl⟩
  | cons b t ih =>
    cases hb : isAsciiWhitespace b with
    | true =>
      rw [List.dropWhile_cons_of_neg (by simp [hb])]
      exact ⟨splitWs t, by simp [splitWs, hb], by simp [words, splitWs, hb]⟩
    | false =>
      rw [List.dropWhile_cons_of_pos (by simp [hb])]
      exact ih

theorem words_token {line : Bytes} (h : line.takeWhile (fun b => !isAsciiWhitespace b) ≠ []) :
    words line = line.takeWhile (fun b => !isAsciiWhitespace b) :: words
      (line.dropWhile fun b => !isAsciiWhitespace b) := by
  obtain ⟨ps, hs, hw⟩ := splitWs_after line
  have htok : ∀ b ∈ line.takeWhile (fun b => !isAsciiWhitespace b),
      isAsciiWhitespace b = false := by
    intro b hb
    simpa using List.mem_takeWhile_imp hb
  have hsplit := splitWs_token hs _ htok
  rw [List.takeWhile_append_dropWhile] at hsplit
  rw [hw, words, hsplit, List.filter_cons_of_pos (by simpa using h)]

theorem le_skipWhile (p : UInt8 → Bool) (line : Bytes) (i : Nat) : i ≤ skipWhile p line i :=
  Nat.le_add_right ..

theorem drop_takeWhile (p : UInt8 → Bool) (l : Bytes) :
    l.drop (l.takeWhile p).length = l.dropWhile p := by
  have h :=
    congrArg (List.drop (l.takeWhile p).length) (List.takeWhile_append_dropWhile (p := p) (l := l))
  rw [List.drop_left] at h
  exact h.symm

theorem drop_skipWhile (p : UInt8 → Bool) (line : Bytes) (i : Nat) :
    line.drop (skipWhile p line i) = (line.drop i).dropWhile p := by
  rw [skipWhile, ← List.drop_drop, drop_takeWhile]

theorem skipWhile_le {line : Bytes} {i : Nat} (p : UInt8 → Bool) (h : i ≤ line.length) :
    skipWhile p line i ≤ line.length := by
  have := (List.takeWhile_sublist p (l := line.drop i)).length_le
  rw [List.length_drop] at this
  unfold skipWhile
  omega

theorem skipWhile_lt {line : Bytes} {i : Nat} (p : UInt8 → Bool) {b : UInt8} {t : Bytes}
    (h : line.drop i = b :: t) (hb : p b = true) : i < skipWhile p line i := by
  rw [skipWhile, h, List.takeWhile_cons_of_pos hb, List.length_cons]
  omega

/-- A turn of the loop goes forward. -/
theorem tokenLoop_forward {line : Bytes} {i : Nat} (h : i < line.length) :
    i < skipWhile (fun b => !isAsciiWhitespace b) line (skipWhile isAsciiWhitespace line i) := by
  obtain ⟨b, t, hbt⟩ : ∃ b t, line.drop i = b :: t := ⟨_, _, List.drop_eq_getElem_cons h⟩
  cases hb : isAsciiWhitespace b with
  | true => exact (skipWhile_lt _ hbt hb).trans_le (le_skipWhile ..)
  | false =>
    have hstart : skipWhile isAsciiWhitespace line i = i := by
      rw [skipWhile, hbt, List.takeWhile_cons_of_neg (by simp [hb])]
      rfl
    rw [hstart]
    exact skipWhile_lt _ hbt (by simp [hb])

/-- The index loop, from `i` on: its ranges lie in the line and are its words. -/
theorem tokenLoop_spec (line : Bytes) (f : Nat) : ∀ i, i ≤ line.length → line.length - i ≤ f →
    (tokenLoop line f i).map (slice line) = words (line.drop i) ∧ ∀ r ∈ tokenLoop line f i,
      r.1 + r.2 ≤ line.length := by
  induction f with
  | zero =>
    intro i hi hf
    have : line.drop i = [] := List.drop_eq_nil_of_le (by omega)
    rw [this]
    exact ⟨rfl, by simp [tokenLoop]⟩
  | succ f ih =>
    intro i hi hf
    by_cases hlt : i < line.length
    · have hforward := tokenLoop_forward hlt
      have hstart := skipWhile_le isAsciiWhitespace hi
      have hstop := skipWhile_le (fun b => !isAsciiWhitespace b) hstart
      have hdrop := drop_skipWhile isAsciiWhitespace line i
      have hdrop' :=
        drop_skipWhile (fun b => !isAsciiWhitespace b) line (skipWhile isAsciiWhitespace line i)
      have hle :=
        le_skipWhile (fun b => !isAsciiWhitespace b) line (skipWhile isAsciiWhitespace line i)
      simp only [tokenLoop, if_pos hlt]
      generalize hs : skipWhile isAsciiWhitespace line i = start at *
      generalize ht : skipWhile (fun b => !isAsciiWhitespace b) line start = stop at *
      have hlen :
          stop - start = ((line.drop start).takeWhile fun b => !isAsciiWhitespace b).length := by
        rw [← ht, skipWhile, Nat.add_sub_cancel_left]
      obtain ⟨hmap, hin⟩ := ih stop hstop (by omega)
      rw [← words_dropWhile, ← hdrop, List.map_append, hmap, hdrop']
      by_cases hne : start < stop
      · have htok : (line.drop start).takeWhile (fun b => !isAsciiWhitespace b) ≠ [] := by
          intro h0
          rw [h0, List.length_nil] at hlen
          omega
        have hslice : slice line (start, stop - start) = (line.drop start).takeWhile fun b =>
            !isAsciiWhitespace b := by
          rw [slice, hlen]
          exact (List.prefix_iff_eq_take.1 (List.takeWhile_prefix _)).symm
        rw [if_pos hne, words_token htok]
        refine ⟨by rw [List.map_singleton, hslice]; rfl, fun r hr => ?_⟩
        rcases List.mem_append.1 hr with hr | hr
        · rw [List.mem_singleton.1 hr]
          dsimp only
          omega
        · exact hin r hr
      · have heq : stop = start := by omega
        have hnil : (line.drop start).takeWhile (fun b => !isAsciiWhitespace b) = [] :=
          List.length_eq_zero_iff.1 (by omega)
        rw [if_neg hne]
        refine ⟨?_, fun r hr => hin r (by simpa using hr)⟩
        rw [← hdrop', heq]
        rfl
    · have : line.drop i = [] := List.drop_eq_nil_of_le (by omega)
      rw [this, tokenLoop, if_neg hlt]
      exact ⟨rfl, by simp⟩

/-! ## Agreement -/

theorem readLine_zero {buf line : Bytes} {p : Nat} (h : readLine buf 0 = some (line, p)) :
    line.length + 2 = p ∧ p ≤ buf.length ∧ ∀ r : Nat × Nat, r.1 + r.2 ≤ line.length →
      slice buf r = slice line r := by
  obtain ⟨-, hle⟩ := readLine_le h
  unfold readLine at h
  obtain ⟨n, hn, he⟩ := Option.map_eq_some_iff.1 h
  rw [List.drop_zero] at he
  cases he
  have hlen : (buf.take n).length = n := by rw [List.length_take]; omega
  refine ⟨by rw [hlen]; omega, hle, fun r hr => ?_⟩
  have := slice_append (b := buf.take n) (r := r) (buf.drop n) hr
  rwa [List.take_append_drop] at this

/-- The owning parser returns copies of the ranges of the other. -/
theorem parseCommand_ranges (buf : Bytes) : parseCommand buf =
    (parseCommandRanges buf).map (Option.map fun r => (r.1.map (slice buf), r.2)) := by
  cases buf with
  | nil => rfl
  | cons b t =>
    simp only [parseCommand, parseCommandRanges]
    split
    · exact parseArrayCommand_eq _
    · unfold parseInlineCommand
      split
      · split <;> rfl
      · rename_i line p hl
        obtain ⟨hp, -, hslice⟩ := readLine_zero hl
        obtain ⟨hmap, hin⟩ := tokenLoop_spec line line.length 0 (Nat.zero_le _) (Nat.sub_le ..)
        have hcopy : (tokenLoop line line.length 0).map (slice (b :: t)) = words line := by
          rw [← List.drop_zero (l := line), ← hmap, List.drop_zero]
          exact List.map_congr_left fun r hr => hslice r (hin r hr)
        simp only [Except.map, Option.map_some, hcopy]
        rfl

/-- The ranges lie in the bytes that are consumed. -/
theorem ranges_within {buf : Bytes} {ranges : List (Nat × Nat)} {consumed : Nat}
    (h : parseCommandRanges buf = .ok (some (ranges, consumed))) :
    0 < consumed ∧ consumed ≤ buf.length ∧ ∀ r ∈ ranges, r.1 + r.2 ≤ consumed := by
  cases buf with
  | nil => cases h
  | cons b t =>
    simp only [parseCommandRanges] at h
    split at h
    · obtain ⟨h3, hle, hr⟩ := arrayCommand_bounds h
      exact ⟨by omega, hle, hr⟩
    · split at h
      · split at h <;> cases h
      · rename_i line p hl
        cases h
        obtain ⟨hp, hle, -⟩ := readLine_zero hl
        refine ⟨by omega, hle, fun r hr => ?_⟩
        have := (tokenLoop_spec line line.length 0 (Nat.zero_le _) (Nat.sub_le ..)).2 r hr
        omega

/-- **Parser agreement.** On every buffer the two parsers fail with the same error,
both ask for more, or both return a command: then they consume the same number of
bytes, every range lies within these, and the ranges delimit the arguments in order. -/
theorem parser_agreement (buf : Bytes) :
    (∀ e, parseCommandRanges buf = .error e ↔ parseCommand buf = .error e) ∧
      (parseCommandRanges buf = .ok none ↔ parseCommand buf = .ok none) ∧
      ∀ ranges consumed, parseCommandRanges buf = .ok (some (ranges, consumed)) →
        parseCommand buf = .ok (some (ranges.map (slice buf), consumed)) ∧ consumed ≤ buf.length ∧
          ∀ r ∈ ranges, r.1 + r.2 ≤ consumed := by
  rw [parseCommand_ranges buf]
  rcases hp : parseCommandRanges buf with e | _ | ⟨ranges, c⟩
  · simp [Except.map]
  · simp [Except.map]
  · obtain ⟨-, hle, hin⟩ := ranges_within hp
    refine ⟨by simp [Except.map], by simp [Except.map], fun ranges' consumed h => ?_⟩
    cases h
    exact ⟨rfl, hle, hin⟩

/-! ## The front of a longer buffer -/

/-- An error of the loop does not depend on what follows. -/
theorem bulkLoop_error {b : Bytes} {n pos : Nat} {er : ProtocolError} (e : Bytes)
    (h : bulkLoop Prod.mk b n pos = .error er) : bulkLoop Prod.mk (b ++ e) n pos = .error er := by
  induction n generalizing pos with
  | zero => cases h
  | succ n ih =>
    simp only [bulkLoop] at h ⊢
    split at h; · cases h
    rename_i hpos
    have hlen : ¬ (b ++ e).length ≤ pos := by rw [List.length_append]; omega
    rw [if_neg hlen, List.getElem?_append_left (by omega)]
    split at h
    · rename_i h36; rw [if_pos h36]; exact h
    rename_i h36
    rw [if_neg h36]
    split at h; · cases h
    rename_i l o hl
    rw [readLine_append e hl]
    dsimp only
    split at h
    · exact h
    rename_i len hlen
    split at h
    · rename_i hneg; rw [if_pos hneg]; exact h
    split at h
    · rename_i hneg hmax; rw [if_neg hneg, if_pos hmax]; exact h
    rename_i hneg hmax
    rw [if_neg hneg, if_neg hmax]
    split at h; · cases h
    rename_i hroom
    have hroom' : ¬ (b ++ e).length < o + len.toNat + 2 := by rw [List.length_append]; omega
    rw [if_neg hroom', List.drop_append_of_le_length (by omega), List.take_append_of_le_length
      (by rw [List.length_drop]; omega)]
    split at h
    · rename_i hcr; rw [if_pos hcr]; exact h
    rename_i hcr
    rw [if_neg hcr]
    cases hr : bulkLoop Prod.mk b n (o + len.toNat + 2) with
    | error er' =>
      rw [hr] at h
      cases h
      rw [ih hr]
      rfl
    | ok r =>
      rw [hr] at h
      cases r <;> cases h

theorem arrayCommand_error {b : Bytes} {er : ProtocolError} (e : Bytes)
    (h : arrayCommand Prod.mk b = .error er) : arrayCommand Prod.mk (b ++ e) = .error er := by
  unfold arrayCommand at h ⊢
  split at h; · cases h
  rename_i l pos hl
  rw [readLine_append e hl]
  dsimp only
  split at h
  · exact h
  split at h; · cases h
  rename_i hneg
  rw [if_neg hneg]
  split at h
  · rename_i hmax; rw [if_pos hmax]; exact h
  rename_i hmax
  rw [if_neg hmax]
  exact bulkLoop_error e h

theorem ranges_array {b : Bytes} (h : b.head? = some 42) :
    parseCommandRanges b = arrayCommand Prod.mk b := by
  cases b with
  | nil => cases h
  | cons x t =>
    have hx : x = 42 := Option.some.inj h
    rw [parseCommandRanges, if_pos hx]

/-- An inline line that has ended. -/
theorem ranges_line {b line : Bytes} {p : Nat} (h : b.head? ≠ some 42)
    (hl : readLine b 0 = some (line, p)) :
    parseCommandRanges b = .ok (some (tokenLoop line line.length 0, p)) := by
  cases b with
  | nil => cases hl
  | cons x t =>
    have hx : x ≠ 42 := fun hx => h (congrArg some hx)
    rw [parseCommandRanges, if_neg hx, hl]

/-- An inline line that has not. -/
theorem ranges_noline {b : Bytes} (h : b.head? ≠ some 42) (hl : readLine b 0 = none) :
    parseCommandRanges b = if 64 * 1024 < b.length then .error .tooLarge else .ok none := by
  cases b with
  | nil => rfl
  | cons x t =>
    have hx : x ≠ 42 := fun hx => h (congrArg some hx)
    rw [parseCommandRanges, if_neg hx, hl]

theorem head_append {b : Bytes} (hb : b ≠ []) (e : Bytes) : (b ++ e).head? = b.head? := by
  cases b with
  | nil => exact absurd rfl hb
  | cons x t => rfl

/-- A command at the front of a buffer stays what it is whatever follows. -/
theorem ranges_append {b : Bytes} {r : List (Nat × Nat) × Nat} (e : Bytes)
    (h : parseCommandRanges b = .ok (some r)) :
    parseCommandRanges (b ++ e) = .ok (some r) ∧ r.1.map (slice (b ++ e)) = r.1.map (slice b) := by
  obtain ⟨-, hle, hin⟩ := ranges_within h
  refine ⟨?_, List.map_congr_left fun q hq => slice_append e ((hin q hq).trans hle)⟩
  have hb : b ≠ [] := by intro h0; rw [h0] at h; cases h
  by_cases hx : b.head? = some 42
  · rw [ranges_array hx] at h
    rw [ranges_array ((head_append hb e).trans hx)]
    exact arrayCommand_append e h
  · have hx' : (b ++ e).head? ≠ some 42 := by rwa [head_append hb]
    cases hl : readLine b 0 with
    | none => rw [ranges_noline hx hl] at h; split at h <;> cases h
    | some q =>
      rw [ranges_line hx hl] at h
      rw [ranges_line hx' (readLine_append e hl)]
      exact h

/-- An error stays an error, unless it is that of an inline line with no end yet. -/
theorem ranges_error {b : Bytes} {er : ProtocolError} (e : Bytes)
    (h : parseCommandRanges b = .error er) :
    b.head? = some 42 ∧ parseCommandRanges (b ++ e) = .error er ∨
      b.head? ≠ some 42 ∧ readLine b 0 = none ∧ 64 * 1024 < b.length := by
  by_cases hx : b.head? = some 42
  · have hb : b ≠ [] := by intro h0; rw [h0] at hx; cases hx
    rw [ranges_array hx] at h
    rw [ranges_array ((head_append hb e).trans hx)]
    exact .inl ⟨hx, arrayCommand_error e h⟩
  · refine .inr ⟨hx, ?_⟩
    cases hl : readLine b 0 with
    | some q => rw [ranges_line hx hl] at h; cases h
    | none =>
      rw [ranges_noline hx hl] at h
      split at h
      · rename_i hlen; exact ⟨rfl, hlen⟩
      · cases h

/-- A frame is read from the front that it fills. -/
theorem ranges_cut {b e : Bytes} {ranges : List (Nat × Nat)} {consumed : Nat}
    (h : parseCommandRanges (b ++ e) = .ok (some (ranges, consumed))) (hb : b ≠ []) :
    parseCommandRanges b = if consumed ≤ b.length then .ok (some (ranges, consumed))
      else if b.head? ≠ some 42 ∧ 64 * 1024 < b.length then .error .tooLarge else .ok none := by
  have hlen : 1 ≤ b.length := List.length_pos_iff.2 hb
  by_cases hx : b.head? = some 42
  · rw [ranges_array ((head_append hb e).trans hx)] at h
    rw [ranges_array hx, arrayCommand_prefix hlen h]
    simp only [hx, ne_eq, not_true_eq_false, false_and, if_false]
  · have hx' : (b ++ e).head? ≠ some 42 := by rwa [head_append hb]
    cases hl : readLine (b ++ e) 0 with
    | none => rw [ranges_noline hx' hl] at h; split at h <;> cases h
    | some q =>
      obtain ⟨line, p⟩ := q
      rw [ranges_line hx' hl] at h
      cases h
      have hlp := readLine_prefix (Nat.zero_le _) hl
      by_cases hp : consumed ≤ b.length
      · rw [if_pos hp] at hlp ⊢
        exact ranges_line hx hlp
      · rw [if_neg hp] at hlp ⊢
        rw [ranges_noline hx hlp]
        simp only [hx, ne_eq, not_false_eq_true, true_and]

end Inmem.L1.Resp
