import Inmem.L1Encoding.RespRanges
import Inmem.L4App.AuthGate

/-!
# A stream and its reads

The bytes a client sends reach the parse loop in reads of any length up to the size
of the read buffer, and the parser runs again on the growing buffer after each. What
it finds depends on the reads in one case only: an inline line is refused when more
than 64 KiB of it are buffered without its end, and accepted when its end arrives
before the parser looks again.

`pieces` is a stream cut into frames; a piece is `loose` when it is such a line.

* `received_reading`, `reading_received`: the ways in which a stream can be received
  are exactly its `Reading`s, which may stop at a loose piece with a protocol error.
* `chunking_iff`: all ways of splitting a stream give the same commands and the same
  end, exactly when every loose piece that the open connection reaches is blank and
  leads to a protocol error in any case.
-/
namespace Inmem.L4

open Inmem.Core Inmem.L1 Inmem.L1.Resp Inmem.L3

/-- mirrors crates/server/src/conn.rs:24 -/
def READ_CHUNK : Nat := 64 * 1024

/-- The bytes of an inline line that may be buffered without its end,
mirrors crates/proto/src/resp.rs:119, 188 -/
def INLINE_MAX : Nat := 64 * 1024

/-- A way of splitting a stream into reads of at most `cap` bytes. -/
structure Splits (cap : Nat) (stream : Bytes) (reads : List Bytes) : Prop where
  whole : reads.flatten = stream
  nonempty : ∀ r ∈ reads, r ≠ []
  fits : ∀ r ∈ reads, r.length ≤ cap

/-- What the connection acts on: the arguments of a command, or a protocol error. -/
abbrev Input := Option (List Bytes)

def Item.input : Item → Input
  | .cmd name args => some (name :: args)
  | .bad _ => none

/-- The frame is an inline line of which more than the limit can be buffered without
its end (its CRLF are two of the bytes it takes). -/
def refusable (buf : Bytes) (consumed : Nat) : Bool :=
  buf.head? != some 42 && INLINE_MAX + 1 < consumed

/-- A frame of the stream (`none`: one the parser always refuses), and whether it may
be refused as well as accepted. -/
structure Piece where
  argv : Input
  loose : Bool

/-- The frames of a stream. A line that does not fit into a full line buffer and one
more read is always refused. -/
def pieces (cap : Nat) : Nat → Bytes → List Piece
  | 0, _ => []
  | f + 1, buf =>
    match parseCommandRanges buf with
    | .error _ => [⟨none, false⟩]
    | .ok none => []
    | .ok (some (ranges, consumed)) =>
      if refusable buf consumed && INLINE_MAX + cap < consumed then [⟨none, false⟩]
      else ⟨some (ranges.map (slice buf)), refusable buf consumed⟩ :: pieces cap f
        (buf.drop consumed)

/-- A blank frame is skipped. -/
def Piece.inputs (p : Piece) : List Input := if p.argv = some [] then [] else [p.argv]

/-- What the connection acts on when every loose piece is accepted. -/
def inputs (ps : List Piece) : List Input := ps.flatMap Piece.inputs

@[simp] theorem inputs_nil : inputs [] = [] := rfl

@[simp] theorem inputs_cons (p : Piece) (ps : List Piece) :
    inputs (p :: ps) = p.inputs ++ inputs ps := rfl

theorem inputs_append (ps qs : List Piece) : inputs (ps ++ qs) = inputs ps ++ inputs qs :=
  List.flatMap_append ..

/-- The ways to receive a list of pieces. -/
inductive Reading : List Piece → List Input → Prop
  | nil : Reading [] []
  | take (p : Piece) {ps : List Piece} {es : List Input} : Reading ps es →
    Reading (p :: ps) (p.inputs ++ es)
  | refuse {p : Piece} (ps : List Piece) : p.loose = true → Reading (p :: ps) [none]

theorem reading_all : ∀ ps : List Piece, Reading ps (inputs ps)
  | [] => .nil
  | p :: ps => .take p (reading_all ps)

theorem reading_iff {ps : List Piece} {es : List Input} :
    Reading ps es ↔
    es = inputs ps ∨ ∃ pre p post,
      ps = pre ++ p :: post ∧ p.loose = true ∧ es = inputs pre ++ [none] := by
  constructor
  · intro h
    induction h with
    | nil => exact .inl rfl
    | take p _ ih =>
      rcases ih with rfl | ⟨pre, q, post, rfl, hq, rfl⟩
      · exact .inl rfl
      · exact .inr ⟨p :: pre, q, post, rfl, hq, by rw [inputs_cons, List.append_assoc]⟩
    | refuse ps hp => exact .inr ⟨[], _, ps, rfl, hp, rfl⟩
  · intro h
    rcases h with rfl | ⟨pre, p, post, rfl, hp, rfl⟩
    · exact reading_all ps
    · induction pre with
      | nil => exact .refuse post hp
      | cons q pre ih =>
        rw [inputs_cons, List.append_assoc]
        exact .take q ih

/-! ## The first piece -/

section
variable {cap : Nat} {buf : Bytes} {ranges : List (Nat × Nat)} {consumed : Nat}

theorem pieces_bad (cap f : Nat) {er : ProtocolError} (h : parseCommandRanges buf = .error er) :
    pieces cap (f + 1) buf = [⟨none, false⟩] := by rw [pieces, h]

theorem pieces_wait (cap f : Nat) (h : parseCommandRanges buf = .ok none) :
    pieces cap f buf = [] := by
  cases f with
  | zero => rfl
  | succ f => rw [pieces, h]

theorem pieces_next (f : Nat) (h : parseCommandRanges buf = .ok (some (ranges, consumed)))
    (hfit : refusable buf consumed = true → consumed ≤ INLINE_MAX + cap) :
    pieces cap (f + 1) buf =
      ⟨some (ranges.map (slice buf)), refusable buf consumed⟩ :: pieces cap f
        (buf.drop consumed) := by
  rw [pieces, h]
  refine if_neg fun hl => ?_
  rw [Bool.and_eq_true, decide_eq_true_eq] at hl
  exact absurd hl.2 (Nat.not_lt.2 (hfit hl.1))

theorem pieces_long (f : Nat) (h : parseCommandRanges buf = .ok (some (ranges, consumed)))
    (hr : refusable buf consumed = true) (hl : INLINE_MAX + cap < consumed) :
    pieces cap (f + 1) buf = [⟨none, false⟩] := by
  rw [pieces, h]
  exact if_pos (by rw [hr, Bool.true_and]; exact decide_eq_true hl)

theorem refusable_iff :
    refusable buf consumed = true ↔ buf.head? ≠ some 42 ∧ INLINE_MAX + 1 < consumed := by
  simp [refusable]

/-! ## Every splitting is a reading -/

/-- A frame that the parser refuses, be it for its length so far. -/
theorem refused_reading {b : Bytes} {er : ProtocolError} (h : parseCommandRanges b = .error er)
    (e : Bytes) {f : Nat} (hf : (b ++ e).length ≤ f) : Reading (pieces cap f (b ++ e)) [none] := by
  have hb : b ≠ [] := by intro h0; rw [h0] at h; cases h
  obtain ⟨f, rfl⟩ : ∃ g, f = g + 1 := by
    have := List.length_pos_iff.2 hb
    rw [List.length_append] at hf
    exact ⟨f - 1, by omega⟩
  have hbad : Reading [⟨none, false⟩] [none] := reading_all _
  rcases hp : parseCommandRanges (b ++ e) with er' | _ | ⟨ranges, consumed⟩
  · rw [pieces_bad cap f hp]; exact hbad
  · rcases ranges_error e h with ⟨-, h'⟩ | ⟨hx, hl, hlong⟩
    · rw [hp] at h'; cases h'
    · -- without its end the longer line is refused as well
      exfalso
      have hx' : (b ++ e).head? ≠ some 42 := by rwa [head_append hb]
      cases hl' : readLine (b ++ e) 0 with
      | some q => rw [ranges_line hx' hl'] at hp; cases hp
      | none =>
        rw [ranges_noline hx' hl', if_pos (by rw [List.length_append]; omega)] at hp
        cases hp
  · rw [ranges_cut hp hb] at h
    split at h
    · cases h
    rename_i hle
    split at h
    · rename_i hx
      have hr : refusable (b ++ e) consumed = true :=
        refusable_iff.2 ⟨by rw [head_append hb]; exact hx.1,
          by have : INLINE_MAX < b.length := hx.2; omega⟩
      by_cases hl : INLINE_MAX + cap < consumed
      · rw [pieces_long f hp hr hl]; exact hbad
      · rw [pieces_next f hp fun _ => Nat.not_lt.1 hl]
        exact .refuse _ hr
    · cases h

/-- A buffer that a read has filled up: a line in it was not too long before, and what
follows its first frame has come with the read. -/
structure Filled (cap : Nat) (b : Bytes) : Prop where
  line : b.head? ≠ some 42 → b.length ≤ INLINE_MAX + cap
  rest : ∀ r, parseCommandRanges b = .ok (some r) → (b.drop r.2).length ≤ cap

theorem filled_of_le {b : Bytes} (h : b.length ≤ cap) : Filled cap b :=
  ⟨fun _ => by omega, fun r _ => by rw [List.length_drop]; omega⟩

theorem filled_read {inbuf chunk : Bytes} (hw : parseCommandRanges inbuf = .ok none)
    (hc : chunk.length ≤ cap) : Filled cap (inbuf ++ chunk) := by
  by_cases h0 : inbuf = []
  · rw [h0]; exact filled_of_le hc
  refine ⟨fun hx => ?_, fun r hr => ?_⟩
  · rw [head_append h0] at hx
    cases hl : readLine inbuf 0 with
    | some q => rw [ranges_line hx hl] at hw; cases hw
    | none =>
      rw [ranges_noline hx hl] at hw
      split at hw
      · cases hw
      · rw [List.length_append, INLINE_MAX]; omega
  · rw [ranges_cut hr h0] at hw
    split at hw
    · cases hw
    · rw [List.length_drop, List.length_append]; omega

/-- The parse loop stops at a buffer that holds no whole frame. -/
theorem parseAll_waits (g : Nat) : ∀ b rest : Bytes, b.length ≤ g → (parseAll g b).2 = some rest →
    parseCommandRanges rest = .ok none := by
  induction g with
  | zero =>
    intro b rest hb h
    cases h
    rw [List.length_eq_zero_iff.1 (Nat.le_zero.1 hb)]
    rfl
  | succ g ih =>
    intro b rest hb h
    rw [parseAll] at h
    rcases hp : parseCommandRanges b with er | _ | ⟨ranges, consumed⟩
    · rw [hp] at h; cases h
    · rw [hp] at h; cases h; exact hp
    · have hpos := ranges_within hp
      rw [hp] at h
      dsimp only at h
      have hq : (parseAll g (b.drop consumed)).2 = some rest := by split at h <;> exact h
      exact ih _ rest (by rw [List.length_drop]; omega) hq

/-- One run of the parse loop, before any reading of what comes after it. -/
theorem parseAll_reading (es : List Input) (g : Nat) {e : Bytes} :
    ∀ (b : Bytes) (f : Nat), b.length ≤ g →
    (b ++ e).length ≤ f → Filled cap b →
    (∀ rest, (parseAll g b).2 = some rest → ∀ f, (rest ++ e).length ≤ f →
      Reading (pieces cap f (rest ++ e)) es) →
    Reading (pieces cap f (b ++ e))
      ((parseAll g b).1.map Item.input ++ if (parseAll g b).2.isSome then es else []) := by
  induction g with
  | zero => intro b f _ hf _ h; exact h b rfl f hf
  | succ g ih =>
    intro b f hb hf hfill h
    rcases hp : parseCommandRanges b with er | _ | ⟨ranges, consumed⟩
    · simp only [parseAll, hp]
      exact refused_reading hp e hf
    · simp only [parseAll, hp] at h ⊢
      exact h b rfl f hf
    · obtain ⟨hpos, hle, -⟩ := ranges_within hp
      obtain ⟨hp', hs⟩ := ranges_append e hp
      have hb0 : b ≠ [] := by intro h0; rw [h0] at hp; cases hp
      obtain ⟨f, rfl⟩ : ∃ f', f = f' + 1 := ⟨f - 1, by rw [List.length_append] at hf; omega⟩
      have hfit : refusable (b ++ e) consumed = true → consumed ≤ INLINE_MAX + cap := by
        intro hr
        have := hfill.line (by rw [← head_append hb0 e]; exact (refusable_iff.1 hr).1)
        omega
      have hrest : (parseAll g (b.drop consumed)).2 = (parseAll (g + 1) b).2 := by
        rw [parseAll, hp]
        dsimp only
        split <;> rfl
      have hnext := ih (b.drop consumed) f (by rw [List.length_drop]; omega)
        (by rw [List.length_append, List.length_drop] at *; omega) (filled_of_le (hfill.rest _ hp))
          (by rw [hrest]; exact h)
      have htake :=
        Reading.take ⟨some (ranges.map (slice (b ++ e))), refusable (b ++ e) consumed⟩ hnext
      rw [pieces_next f hp' hfit, List.drop_append_of_le_length hle]
      have hitems : (parseAll (g + 1) b).1.map Item.input =
          (Piece.mk (some (ranges.map (slice (b ++ e)))) (refusable (b ++ e) consumed)).inputs ++
            (parseAll g (b.drop consumed)).1.map Item.input := by
        rw [parseAll, hp, hs]
        dsimp only
        cases hargs : ranges.map (slice b) with
        | nil => rfl
        | cons name args => rfl
      rw [hitems, ← hrest, List.append_assoc]
      exact htake

/-- Whatever the reads, the stream is received in one of the ways its pieces allow. -/
theorem received_reading (reads : List Bytes) :
    ∀ (inbuf : Bytes) (f : Nat), parseCommandRanges inbuf = .ok none →
    (∀ r ∈ reads, r.length ≤ cap) → (inbuf ++ reads.flatten).length ≤ f →
    Reading (pieces cap f (inbuf ++ reads.flatten)) ((received reads inbuf).map Item.input) := by
  induction reads with
  | nil =>
    intro inbuf f hw _ _
    rw [List.flatten_nil, List.append_nil, pieces_wait cap f hw]
    exact .nil
  | cons chunk reads ih =>
    intro inbuf f hw hfits hf
    rw [List.flatten_cons, ← List.append_assoc] at hf ⊢
    have hfill := filled_read hw (hfits chunk List.mem_cons_self)
    have hwaits := parseAll_waits (inbuf ++ chunk).length (inbuf ++ chunk)
    have hstep :=
      fun es => parseAll_reading es (inbuf ++ chunk).length (inbuf ++ chunk) f le_rfl hf hfill
    rw [received]
    cases hr : (parseAll (inbuf ++ chunk).length (inbuf ++ chunk)).2 with
    | none =>
      have := hstep [] (by rw [hr]; exact fun rest h => by cases h)
      rw [hr] at this
      simpa using this
    | some rest =>
      have := hstep ((received reads rest).map Item.input) (by
        rw [hr]
        intro rest' hrest' f' hf'
        cases hrest'
        exact ih rest f' (hwaits rest le_rfl hr)
          (fun r hm => hfits r (List.mem_cons_of_mem _ hm)) hf')
      rw [hr] at this
      simpa [List.map_append] using this

/-! ## Every reading has a splitting -/

/-- Byte by byte. -/
def singles (w : Bytes) : List Bytes := w.map fun b => [b]

theorem singles_flatten (w : Bytes) : (singles w).flatten = w := by
  induction w with
  | nil => rfl
  | cons b w ih => exact congrArg (b :: ·) ih

theorem singles_splits (hcap : 0 < cap) (w : Bytes) : Splits cap w (singles w) where
  whole := singles_flatten w
  nonempty r hr := by obtain ⟨b, -, rfl⟩ := List.mem_map.1 hr; simp
  fits r hr := by obtain ⟨b, -, rfl⟩ := List.mem_map.1 hr; exact hcap

theorem Splits.append {v w : Bytes} {reads reads' : List Bytes} (h : Splits cap v reads)
    (h' : Splits cap w reads') : Splits cap (v ++ w) (reads ++ reads') where
  whole := by rw [List.flatten_append, h.whole, h'.whole]
  nonempty r hr := (List.mem_append.1 hr).elim (h.nonempty r) (h'.nonempty r)
  fits r hr := (List.mem_append.1 hr).elim (h.fits r) (h'.fits r)

theorem splits_one {w : Bytes} (h0 : w ≠ []) (hw : w.length ≤ cap) : Splits cap w [w] where
  whole := List.append_nil w
  nonempty r hr := by rw [List.mem_singleton.1 hr]; exact h0
  fits r hr := by rw [List.mem_singleton.1 hr]; exact hw

theorem parseAll_wait {b : Bytes} (h : parseCommandRanges b = .ok none) (g : Nat) :
    parseAll g b = ([], some b) := by
  cases g with
  | zero => rfl
  | succ g => rw [parseAll, h]

theorem received_buffered {inbuf chunk : Bytes} (h : parseCommandRanges (inbuf ++ chunk) = .ok none)
    (reads : List Bytes) : received (chunk :: reads) inbuf = received reads (inbuf ++ chunk) := by
  rw [received, parseAll_wait h]
  rfl

/-- Bytes that complete no frame are buffered. -/
theorem received_wait (reads : List Bytes) : ∀ w inbuf : Bytes,
    (∀ n ≤ w.length, parseCommandRanges (inbuf ++ w.take n) = .ok none) →
    received (singles w ++ reads) inbuf = received reads (inbuf ++ w) := by
  intro w
  induction w with
  | nil => intro inbuf _; rw [List.append_nil]; rfl
  | cons b w ih =>
    intro inbuf h
    have h1 : parseCommandRanges (inbuf ++ [b]) = .ok none := h 1 (Nat.succ_le_succ (Nat.zero_le _))
    show received ([b] :: (singles w ++ reads)) inbuf = _
    rw [received_buffered h1]
    have hrest := ih (inbuf ++ [b]) fun n hn => by
      have := h (n + 1) (Nat.succ_le_succ hn)
      rwa [List.take_succ_cons, ← List.singleton_append, ← List.append_assoc] at this
    rw [List.append_assoc, List.singleton_append] at hrest
    exact hrest

/-- The front of a stream up to `k` waits for more. -/
def Waits (k : Nat) (stream : Bytes) : Prop :=
  ∀ n ≤ k, parseCommandRanges (stream.take n) = .ok none

theorem received_front {k : Nat} {stream : Bytes} (h : Waits k stream) (reads : List Bytes) :
    received (singles (stream.take k) ++ reads) [] = received reads (stream.take k) := by
  have hw : ∀ n ≤ (stream.take k).length,
      parseCommandRanges ([] ++ (stream.take k).take n) = .ok none := by
    intro n hn
    rw [List.nil_append, List.take_take]
    exact h _ (min_le_right n k)
  exact received_wait reads (stream.take k) [] hw

/-- The front of a frame waits for more, as long as it is no line beyond the limit. -/
theorem waits_of_next {stream : Bytes} {k : Nat}
    (hp : parseCommandRanges stream = .ok (some (ranges, consumed))) (hk : k < consumed)
    (hline : stream.head? ≠ some 42 → k ≤ INLINE_MAX) : Waits k stream := by
  intro n hn
  have hle := (ranges_within hp).2.1
  rw [← List.take_append_drop n stream] at hp
  have hlen : (stream.take n).length = n := by rw [List.length_take]; omega
  by_cases h0 : n = 0
  · rw [h0]; rfl
  have hne : stream.take n ≠ [] := fun h => h0 (by rw [← hlen, h]; rfl)
  have hhead : (stream.take n).head? = stream.head? := by
    rw [← head_append hne (stream.drop n), List.take_append_drop]
  rw [ranges_cut hp hne, hlen, if_neg (by omega), if_neg]
  rw [hhead]
  intro ⟨hx, hlong⟩
  have hlong : INLINE_MAX < n := hlong
  have := hline hx
  omega

/-- A frame that comes in two parts, the first byte by byte. -/
theorem received_next {stream : Bytes} {k : Nat}
    (hp : parseCommandRanges stream = .ok (some (ranges, consumed))) (hk : k < consumed)
    (hw : Waits k stream) (reads : List Bytes) :
    (received (singles (stream.take k) ++ ((stream.take consumed).drop k :: reads)) []).map
      Item.input =
      (Piece.mk (some (ranges.map (slice stream))) (refusable stream consumed)).inputs ++
        (received reads []).map Item.input := by
  have hle := (ranges_within hp).2.1
  have hframe : stream.take k ++ (stream.take consumed).drop k = stream.take consumed := by
    conv_rhs => rw [← List.take_append_drop k (stream.take consumed), List.take_take,
      min_eq_left hk.le]
  have hlen : (stream.take consumed).length = consumed := by rw [List.length_take]; omega
  have hne : stream.take consumed ≠ [] := fun h => by
    rw [h] at hlen
    simp only [List.length_nil] at hlen
    omega
  have hp' : parseCommandRanges (stream.take consumed) = .ok (some (ranges, consumed)) := by
    rw [← List.take_append_drop consumed stream] at hp
    rw [ranges_cut hp hne, if_pos hlen.ge]
  have hs := (ranges_append (stream.drop consumed) hp').2
  rw [List.take_append_drop] at hs
  have hdrop : (stream.take consumed).drop consumed = [] := List.drop_eq_nil_of_le hlen.le
  obtain ⟨g, hg⟩ : ∃ g, consumed = g + 1 := ⟨consumed - 1, by omega⟩
  rw [received_front hw, received, hframe, hlen]
  conv_lhs => rw [hg, parseAll, ← hg, hp']
  dsimp only
  rw [hdrop, parseAll_wait rfl, hs]
  cases hargs : ranges.map (slice (stream.take consumed)) with
  | nil => rfl
  | cons name args => rfl

/-- A line of which one byte too many is buffered without its end. -/
theorem received_refused {stream : Bytes}
    (hp : parseCommandRanges stream = .ok (some (ranges, consumed)))
    (hr : refusable stream consumed = true) :
    (received (singles stream) []).map Item.input = [none] := by
  obtain ⟨hx, hlong⟩ := refusable_iff.1 hr
  have hle := (ranges_within hp).2.1
  have hw : Waits INLINE_MAX stream := waits_of_next hp (by omega) fun _ => le_rfl
  obtain ⟨y, t, hy⟩ : ∃ y t, stream.drop INLINE_MAX = y :: t :=
    ⟨_, _, List.drop_eq_getElem_cons (by omega : INLINE_MAX < stream.length)⟩
  have hsplit : stream = stream.take INLINE_MAX ++ [y] ++ t := by
    rw [List.append_assoc, List.singleton_append, ← hy, List.take_append_drop]
  have hlen : (stream.take INLINE_MAX ++ [y]).length = INLINE_MAX + 1 := by
    rw [List.length_append, List.length_take, min_eq_left (by omega)]; rfl
  have hne : stream.take INLINE_MAX ++ [y] ≠ [] := List.append_ne_nil_of_right_ne_nil _ (by simp)
  have hbad : parseCommandRanges (stream.take INLINE_MAX ++ [y]) = .error .tooLarge := by
    rw [hsplit] at hp hx
    rw [head_append hne] at hx
    rw [ranges_cut hp hne, hlen, if_neg (by omega), if_pos ⟨hx, Nat.lt_succ_self INLINE_MAX⟩]
  have hreads : singles stream = singles (stream.take INLINE_MAX) ++ [y] :: singles t := by
    conv_lhs => rw [hsplit, List.append_assoc, singles, List.map_append]
    rfl
  rw [hreads, received_front hw, received, hlen, parseAll, hbad]
  rfl

theorem reading_tight {ps : List Piece} (h : ∀ p ∈ ps, p.loose = false) {es : List Input}
    (hr : Reading ps es) : es = inputs ps := by
  rcases reading_iff.1 hr with rfl | ⟨pre, p, post, rfl, hp, -⟩
  · rfl
  · rw [h p (by simp)] at hp
    cases hp

/-- Every reading of a stream comes from some reads. -/
theorem reading_received (hcap : 0 < cap) (f : Nat) :
    ∀ (stream : Bytes) (es : List Input), stream.length ≤ f →
    Reading (pieces cap f stream) es →
      ∃ reads, Splits cap stream reads ∧ (received reads []).map Item.input = es := by
  -- where nothing is loose any reads will do
  have tight : ∀ (f : Nat) (stream : Bytes) (es : List Input), stream.length ≤ f →
      (∀ p ∈ pieces cap f stream, p.loose = false) → Reading (pieces cap f stream) es →
      ∃ reads, Splits cap stream reads ∧ (received reads []).map Item.input = es := by
    intro f stream es hf ht hr
    have hs := singles_splits hcap stream
    have hrec :=
      received_reading (singles stream) [] f rfl hs.fits
        (by rw [List.nil_append, hs.whole]; exact hf)
    rw [List.nil_append, hs.whole] at hrec
    exact ⟨_, hs, (reading_tight ht hrec).trans (reading_tight ht hr).symm⟩
  have hbad : ∀ p ∈ [(⟨none, false⟩ : Piece)], p.loose = false := by simp
  induction f with
  | zero => exact fun stream es hf hr => tight 0 stream es hf (by simp [pieces]) hr
  | succ f ih =>
    intro stream es hf hr
    rcases hp : parseCommandRanges stream with er | _ | ⟨ranges, consumed⟩
    · exact tight _ stream es hf (by rw [pieces_bad cap f hp]; exact hbad) hr
    · exact tight _ stream es hf (by rw [pieces_wait cap _ hp]; simp) hr
    · obtain ⟨hpos, hle, -⟩ := ranges_within hp
      by_cases hlong : refusable stream consumed = true ∧ INLINE_MAX + cap < consumed
      · exact tight _ stream es hf (by rw [pieces_long f hp hlong.1 hlong.2]; exact hbad) hr
      have hfit : refusable stream consumed = true → consumed ≤ INLINE_MAX + cap := fun h =>
        Nat.not_lt.1 fun hl => hlong ⟨h, hl⟩
      rw [pieces_next f hp hfit] at hr
      cases hr with
      | refuse _ hloose => exact ⟨_, singles_splits hcap stream, received_refused hp hloose⟩
      | take _ hr =>
        obtain ⟨reads, hs, hrec⟩ := ih _ _ (by rw [List.length_drop]; omega) hr
        -- the frame without its end, and then the end
        obtain ⟨k, hk, hkcap, hline⟩ : ∃ k, k < consumed ∧ consumed - k ≤ cap ∧
            (stream.head? ≠ some 42 → k ≤ INLINE_MAX) := by
          by_cases hl : refusable stream consumed = true
          · have := hfit hl
            have := (refusable_iff.1 hl).2
            exact ⟨INLINE_MAX, by omega, by omega, fun _ => le_rfl⟩
          · refine ⟨consumed - 1, by omega, by omega, fun hx => ?_⟩
            have : ¬ INLINE_MAX + 1 < consumed := fun h => hl (refusable_iff.2 ⟨hx, h⟩)
            omega
        have hframe : stream.take k ++ ((stream.take consumed).drop k ++ stream.drop consumed) =
            stream := by
          rw [← List.append_assoc]
          conv_rhs => rw [← List.take_append_drop consumed stream,
            ← List.take_append_drop k (stream.take consumed), List.take_take, min_eq_left hk.le]
        have hlen : ((stream.take consumed).drop k).length = consumed - k := by
          rw [List.length_drop, List.length_take, min_eq_left hle]
        have hend : Splits cap ((stream.take consumed).drop k) [(stream.take consumed).drop k] :=
          splits_one (fun h => by rw [h, List.length_nil] at hlen; omega) (hlen.trans_le hkcap)
        refine ⟨singles (stream.take k) ++ ((stream.take consumed).drop k :: reads), ?_, ?_⟩
        · have := (singles_splits hcap (stream.take k)).append (hend.append hs)
          rwa [hframe] at this
        · rw [received_next hp hk (waits_of_next hp hk hline), hrec]

end

/-! ## The connection -/

section
variable {σ : Type} [Score σ] {srv : Server} {E : Surroundings}

/-- The effect of one input; none once the connection is no longer open. -/
def Conn.input (srv : Server) (E : Surroundings) (c : Conn σ) : Input → Conn σ
  | some (name :: args) => if c.status = .open then c.command srv E name args else c
  | some [] => c
  | none => if c.status = .open then { c with status := .closed } else c

/-- The inputs that come while the connection is open. -/
def Conn.acted (srv : Server) (E : Surroundings) : List Input → Conn σ → List Input
  | [], _ => []
  | i :: is, c => if c.status = .open then i :: Conn.acted srv E is (c.input srv E i) else []

/-- The argument vectors that the connection executes, in order, and at the end `none`
if it was closed by a protocol error. -/
def Conn.executed (srv : Server) (E : Surroundings) (c : Conn σ) (reads : List Bytes) :
    List Input :=
  Conn.acted srv E ((received reads []).map Item.input) c

theorem input_done {c : Conn σ} (h : c.status ≠ .open) (i : Input) : c.input srv E i = c := by
  rcases i with _ | _ | ⟨name, args⟩ <;> simp [Conn.input, h]

theorem foldl_input_done {c : Conn σ} (h : c.status ≠ .open) (is : List Input) :
    is.foldl (Conn.input srv E) c = c := by
  induction is with
  | nil => rfl
  | cons i is ih => rw [List.foldl_cons, input_done h, ih]

theorem acted_done {c : Conn σ} (h : c.status ≠ .open) (is : List Input) :
    Conn.acted srv E is c = [] := by
  cases is with
  | nil => rfl
  | cons i is => rw [Conn.acted, if_neg h]

theorem acted_append (is js : List Input) : ∀ c : Conn σ, Conn.acted srv E (is ++ js) c =
    Conn.acted srv E is c ++ Conn.acted srv E js (is.foldl (Conn.input srv E) c) := by
  induction is with
  | nil => intro c; rfl
  | cons i is ih =>
    intro c
    by_cases hc : c.status = .open
    · rw [List.cons_append, Conn.acted, if_pos hc, Conn.acted, if_pos hc, ih, List.cons_append]
      rfl
    · rw [acted_done hc, acted_done hc, foldl_input_done hc, acted_done hc]
      rfl

/-- What is not acted on has no effect. -/
theorem foldl_acted (is : List Input) : ∀ c : Conn σ,
    (Conn.acted srv E is c).foldl (Conn.input srv E) c = is.foldl (Conn.input srv E) c := by
  induction is with
  | nil => intro c; rfl
  | cons i is ih =>
    intro c
    by_cases hc : c.status = .open
    · rw [Conn.acted, if_pos hc, List.foldl_cons, ih, List.foldl_cons]
    · rw [acted_done hc]
      exact (foldl_input_done hc _).symm

/-- The items of a connection as inputs: only the text of a protocol error is lost. -/
theorem foldl_item_status (items : List Item) :
    ∀ c : Conn σ, (items.foldl (Conn.item srv E) c).status =
    ((items.map Item.input).foldl (Conn.input srv E) c).status := by
  induction items with
  | nil => intro c; rfl
  | cons i items ih =>
    intro c
    cases i with
    | cmd name args => exact ih _
    | bad e =>
      by_cases hc : c.status = .open
      · simp only [List.map_cons, List.foldl_cons, Item.input, Conn.item, Loop.item, Conn.input,
          if_pos hc]
        rw [Loop.fold_done _ (by simp), foldl_input_done (by simp)]
      · rw [Loop.fold_done _ hc, foldl_input_done hc]

/-- The end of a connection is that of what it has executed. -/
theorem run_status {c : Conn σ} (hc : c.status = .open) (reads : List Bytes) :
    (c.run srv E reads []).status =
      ((c.executed srv E reads).foldl (Conn.input srv E) c).status := by
  rw [Conn.run, Loop.run_fold reads [] c hc, foldl_item_status, Conn.executed, foldl_acted]

theorem acted_error {c : Conn σ} (hc : c.status = .open) (is : List Input) :
    Conn.acted srv E (none :: is) c = [none] := by
  have hclosed : (c.input srv E none).status ≠ .open := by simp [Conn.input, hc]
  rw [Conn.acted, if_pos hc, acted_done hclosed]

/-- Refusing a piece that would be reached makes no difference if a protocol error is next
anyway. -/
theorem acted_refused {c : Conn σ} {is js : List Input}
    (h : (is.foldl (Conn.input srv E) c).status = .open → js.head? = some none) :
    Conn.acted srv E (is ++ [none]) c = Conn.acted srv E (is ++ js) c := by
  rw [acted_append, acted_append]
  congr 1
  by_cases ho : (is.foldl (Conn.input srv E) c).status = .open
  · obtain ⟨js, rfl⟩ : ∃ t, js = none :: t := List.head?_eq_some_iff.1 (h ho)
    rw [acted_error ho, acted_error ho]
  · rw [acted_done ho, acted_done ho]

/-- **Chunking.** All ways of splitting a stream into reads make an open connection
execute the same argument vectors and end in the same way, exactly when each inline
line beyond 64 KiB that it reaches (one that fits into a full line buffer and one more
read) is blank and only blank frames stand between it and a protocol error. -/
theorem chunking_iff {cap : Nat} (hcap : 0 < cap) (srv : Server) (E : Surroundings) {c : Conn σ}
    (hc : c.status = .open) (stream : Bytes) :
    (∀ a b, Splits cap stream a → Splits cap stream b →
      c.executed srv E a = c.executed srv E b ∧
      (c.run srv E a []).status = (c.run srv E b []).status) ↔
      ∀ pre p post, pieces cap stream.length stream = pre ++ p :: post → p.loose = true →
        ((inputs pre).foldl (Conn.input srv E) c).status = .open →
        (inputs (p :: post)).head? = some none := by
  constructor
  · intro h pre p post hps hp ho
    have hreal := fun es => reading_received hcap stream.length stream es le_rfl
    obtain ⟨a, ha, hra⟩ := hreal _ (reading_all _)
    obtain ⟨b, hb, hrb⟩ := hreal _ (reading_iff.2 (.inr ⟨pre, p, post, hps, hp, rfl⟩))
    have hlog := (h a b ha hb).1
    rw [Conn.executed, Conn.executed, hra, hrb, hps, inputs_append, acted_append, acted_append,
      List.append_cancel_left_eq] at hlog
    cases hin : inputs (p :: post) with
    | nil => rw [hin, Conn.acted, Conn.acted, if_pos ho] at hlog; cases hlog
    | cons i is =>
      rw [hin, Conn.acted, if_pos ho, Conn.acted, if_pos ho] at hlog
      exact congrArg some (List.cons.inj hlog).1
  · intro h
    -- every reading is acted on like the one that accepts all it can
    have hall : ∀ a, Splits cap stream a →
        c.executed srv E a = Conn.acted srv E (inputs (pieces cap stream.length stream)) c := by
      intro a ha
      have hr := received_reading a [] stream.length rfl ha.fits (by rw [List.nil_append, ha.whole])
      rw [List.nil_append, ha.whole] at hr
      unfold Conn.executed
      rcases reading_iff.1 hr with he | ⟨pre, p, post, hps, hp, he⟩
      · rw [he]
      · rw [he, hps, inputs_append]
        exact acted_refused (h pre p post hps hp)
    intro a b ha hb
    have hlog : c.executed srv E a = c.executed srv E b := (hall a ha).trans (hall b hb).symm
    exact ⟨hlog, by rw [run_status hc, run_status hc, hlog]⟩

/-- Two commands, cut in the middle of the first or between them. -/
theorem chunking_ping :
    let c := Conn.accept openServer 1 (freshNode : Node Int)
    c.executed openServer (fun _ => Env.plain 0) [lit "PI", lit "NG\r\nGET k\r\n"] =
        c.executed openServer (fun _ => Env.plain 0) [lit "PING\r\n", lit "GET k\r\n"] ∧
      (c.run openServer (fun _ => Env.plain 0) [lit "PI", lit "NG\r\nGET k\r\n"] []).status =
        (c.run openServer (fun _ => Env.plain 0) [lit "PING\r\n", lit "GET k\r\n"] []).status := by
  have htight : ∀ p ∈ pieces READ_CHUNK 13 (lit "PING\r\nGET k\r\n"), p.loose = false := by
    decide +kernel
  refine (chunking_iff (show 0 < READ_CHUNK by decide) openServer (fun _ => Env.plain 0) rfl
    (lit "PING\r\nGET k\r\n")).2 (fun pre p post hps hp _ => ?_) _ _ ?_ ?_
  · have := htight p (by rw [show 13 = (lit "PING\r\nGET k\r\n").length from rfl, hps]; simp)
    rw [hp] at this
    cases this
  · exact ⟨by decide, by decide, by decide⟩
  · exact ⟨by decide, by decide, by decide⟩

/-! ## A long line -/

section
variable {line : Bytes} (hlen : line.length = INLINE_MAX) (h13 : (13 : UInt8) ∉ line)
  (hhead : ∀ e, (line ++ e).head? ≠ some 42)
include hlen h13

theorem line_read : readLine (line ++ crlf) 0 = some (line, INLINE_MAX + 2) := by
  unfold readLine
  rw [List.drop_zero, crlf, crlfAt_line line [] h13, Option.map_some, List.take_left, hlen,
    Nat.zero_add]

include hhead

/-- A line of 64 KiB alone waits for more. -/
theorem line_waits : parseCommandRanges ([] ++ line) = .ok none := by
  have hx : line.head? ≠ some 42 := by have := hhead []; rwa [List.append_nil] at this
  have hl := readLine_prefix (Nat.zero_le _) (line_read hlen h13)
  rw [if_neg (by omega)] at hl
  rw [List.nil_append, ranges_noline hx hl, if_neg (by rw [hlen, INLINE_MAX]; omega)]

/-- With its CRLF in one read it is a command. -/
theorem line_accepted (hword : ∀ b ∈ line, isAsciiWhitespace b = false) (hne : line ≠ []) :
    received [line, crlf] [] = [.cmd line []] := by
  have hwords : words line = [line] := by
    have h := splitWs_token (show splitWs [] = [] :: [] from rfl) line hword
    rw [List.append_nil] at h
    rw [words, h, List.filter_cons_of_pos (by simpa using hne)]
    rfl
  have hargs : (tokenLoop line line.length 0).map (slice (line ++ crlf)) = [line] := by
    obtain ⟨hmap, hin⟩ := tokenLoop_spec line line.length 0 (Nat.zero_le _) (Nat.sub_le ..)
    rw [List.drop_zero, hwords] at hmap
    rw [← hmap]
    exact List.map_congr_left fun r hr => slice_append crlf (hin r hr)
  have hdrop : (line ++ crlf).drop (INLINE_MAX + 2) = [] :=
    List.drop_eq_nil_of_le (by simp [hlen, crlf])
  have hfull : (line ++ crlf).length = INLINE_MAX + 1 + 1 := by rw [List.length_append, hlen]; rfl
  rw [received_buffered (line_waits hlen h13 hhead), List.nil_append, received, hfull, parseAll,
    ranges_line (hhead crlf) (line_read hlen h13)]
  dsimp only
  rw [hargs, hdrop, parseAll_wait rfl]
  rfl

/-- With the CR in one read and the LF in the next it is refused. -/
theorem line_refused : received [line, [13], [10]] [] = [.bad .tooLarge] := by
  have hcr : line ++ crlf = line ++ [13] ++ [10] := by rw [List.append_assoc]; rfl
  have hlong : (line ++ [13]).length = INLINE_MAX + 1 := by rw [List.length_append, hlen]; rfl
  have hl := line_read hlen h13
  rw [hcr] at hl
  have hl := readLine_prefix (Nat.zero_le _) hl
  rw [if_neg (by rw [hlong]; omega)] at hl
  have hrefuse : parseCommandRanges (line ++ [13]) = .error .tooLarge := by
    rw [ranges_noline (hhead _) hl, if_pos (by rw [hlong]; decide)]
  rw [received_buffered (line_waits hlen h13 hhead), List.nil_append, received, hlong, parseAll,
    hrefuse]

end

/-- A line of 64 KiB. -/
def longLine : Bytes := List.replicate INLINE_MAX 97

/-- A line of 64 KiB whose end arrives in one read is executed; if only its CR does, the
connection is closed. -/
theorem long_line_differs :
    let c := Conn.accept openServer 1 (freshNode : Node Int)
    Splits READ_CHUNK (longLine ++ crlf) [longLine, crlf] ∧
      Splits READ_CHUNK (longLine ++ crlf) [longLine, [13], [10]] ∧
      c.executed openServer (fun _ => Env.plain 0) [longLine, crlf] = [some [longLine]] ∧
      c.executed openServer (fun _ => Env.plain 0) [longLine, [13], [10]] = [none] := by
  have hlen : longLine.length = INLINE_MAX := List.length_replicate
  have hmem : ∀ b ∈ longLine, b = 97 := fun b hb => List.eq_of_mem_replicate hb
  obtain ⟨t, ht⟩ : ∃ t, longLine = 97 :: t := ⟨_, List.replicate_succ⟩
  generalize longLine = line at *
  have h13 : (13 : UInt8) ∉ line := fun h => absurd (hmem 13 h) (by decide)
  have hhead : ∀ e, (line ++ e).head? ≠ some 42 := by
    intro e
    rw [ht, List.cons_append, List.head?_cons]
    decide
  have hne : line ≠ [] := by rw [ht]; exact List.cons_ne_nil _ _
  refine ⟨?_, ?_, ?_, ?_⟩
  · exact (splits_one hne hlen.le).append (splits_one (by decide) (by decide))
  · exact (splits_one hne hlen.le).append ((splits_one (w := [13]) (by decide) (by decide)).append
      (splits_one (w := [10]) (by decide) (by decide)))
  · rw [Conn.executed, line_accepted hlen h13 hhead (fun b hb => by rw [hmem b hb]; rfl) hne]
    rfl
  · rw [Conn.executed, line_refused hlen h13 hhead]
    rfl

end

end Inmem.L4
