import Inmem.L4App.Chunking
import Inmem.L4App.Uring

/-!
# Commands as lines and as arrays

A client sends a command as an array of bulk strings or as a line of words. `LineOf`
says which lines stand for a list of words: blanks go between two words and may go
before the first and after the last. `Sent` adds what the protocol asks of a line: no
CRLF inside, no `*` in front, and not more than 64 KiB.

* `lineOf_iff`: a line is split into exactly the words it was typed from.
* `session_exact`: whichever form each command has, and however the stream is cut into
  reads, both runtimes execute exactly the commands that were sent, in their order.
-/
namespace Inmem.L4

open Inmem.Core Inmem.L1 Inmem.L1.Resp Inmem.L3

/-! ## Words and lines -/

def Blank (g : Bytes) : Prop := ∀ b ∈ g, isAsciiWhitespace b = true

/-- A word of a line: no argument with a blank in it, and no empty one, can be typed. -/
structure Word (w : Bytes) : Prop where
  nonempty : w ≠ []
  solid : ∀ b ∈ w, isAsciiWhitespace b = false

/-- The line consists of these words, with blanks around them. -/
inductive LineOf : List Bytes → Bytes → Prop
  | blank {g : Bytes} : Blank g → LineOf [] g
  | last {g w : Bytes} : Blank g → Word w → LineOf [w] (g ++ w)
  | word {g w rest : Bytes} {ws : List Bytes} (b : UInt8) : Blank g → Word w →
    isAsciiWhitespace b = true → LineOf ws rest → LineOf (w :: ws) (g ++ (w ++ b :: rest))

theorem words_blanks {g : Bytes} (hg : Blank g) (rest : Bytes) :
    words (g ++ rest) = words rest := by
  induction g with
  | nil => rfl
  | cons b g ih =>
    rw [List.cons_append, words_blank (hg b List.mem_cons_self),
      ih fun x hx => hg x (List.mem_cons_of_mem _ hx)]

/-- A word and what follows it, the end of the line or a blank. -/
theorem words_word {w : Bytes} (hw : Word w) (rest : Bytes)
    (hr : ∀ b ∈ rest.head?, isAsciiWhitespace b = true) : words (w ++ rest) = w :: words rest := by
  have hsolid : ∀ b ∈ w, (!isAsciiWhitespace b) = true := fun b hb => by rw [hw.solid b hb]; rfl
  have hstop : rest.takeWhile (fun b => !isAsciiWhitespace b) = [] ∧
      rest.dropWhile (fun b => !isAsciiWhitespace b) = rest := by
    cases rest with
    | nil => exact ⟨rfl, rfl⟩
    | cons b t =>
      have hb : ¬ (!isAsciiWhitespace b) = true := by simp [hr b rfl]
      exact ⟨List.takeWhile_cons_of_neg hb, List.dropWhile_cons_of_neg hb⟩
  have htake : (w ++ rest).takeWhile (fun b => !isAsciiWhitespace b) = w := by
    rw [List.takeWhile_append_of_pos hsolid, hstop.1, List.append_nil]
  have hdrop : (w ++ rest).dropWhile (fun b => !isAsciiWhitespace b) = rest := by
    rw [List.dropWhile_append_of_pos hsolid, hstop.2]
  rw [words_token (by rw [htake]; exact hw.nonempty), htake, hdrop]

theorem LineOf.words_eq {ws : List Bytes} {line : Bytes} (h : LineOf ws line) :
    words line = ws := by
  induction h with
  | @blank g hg =>
    have := words_blanks hg []
    rwa [List.append_nil] at this
  | @last g w hg hw =>
    have := words_word hw [] (by simp)
    rw [List.append_nil] at this
    rw [words_blanks hg, this]
    rfl
  | word b hg hw hb _ ih =>
    rw [words_blanks hg, words_word hw _ (by simpa using hb), words_blank hb, ih]

theorem blank_nil : Blank [] := fun _ h => by cases h

theorem Blank.tail {b : UInt8} {g : Bytes} (h : Blank (b :: g)) : Blank g :=
  fun x hx => h x (List.mem_cons_of_mem _ hx)

theorem Blank.cons {b : UInt8} {g : Bytes} (hb : isAsciiWhitespace b = true) (h : Blank g) :
    Blank (b :: g) :=
  List.forall_mem_cons.2 ⟨hb, h⟩

theorem word_one {b : UInt8} (hb : isAsciiWhitespace b = false) : Word [b] :=
  ⟨List.cons_ne_nil b _, fun x hx => by rwa [List.mem_singleton.1 hx]⟩

theorem Word.cons {b : UInt8} {w : Bytes} (hb : isAsciiWhitespace b = false) (h : Word w) :
    Word (b :: w) :=
  ⟨List.cons_ne_nil b _, List.forall_mem_cons.2 ⟨hb, h.solid⟩⟩

/-- A blank in front of a line changes none of its words. -/
theorem LineOf.blank_cons {b : UInt8} (hb : isAsciiWhitespace b = true) {ws : List Bytes}
    {line : Bytes} (h : LineOf ws line) : LineOf ws (b :: line) := by
  cases h with
  | blank hg => exact .blank (hg.cons hb)
  | last hg hw => exact .last (hg.cons hb) hw
  | word c hg hw hc hrest => exact .word c (hg.cons hb) hw hc hrest

/-- Any other byte in front makes the first word longer, or is one of its own if a blank follows. -/
theorem LineOf.solid_cons {b : UInt8} (hb : isAsciiWhitespace b = false) {ws : List Bytes}
    {line : Bytes} (h : LineOf ws line) : ∃ ws', LineOf ws' (b :: line) := by
  have own {c : UInt8} {g rest : Bytes} {ws : List Bytes} (hg : Blank (c :: g))
      (hrest : LineOf ws rest) :
      ∃ ws', LineOf ws' (b :: c :: rest) :=
    ⟨_, .word c blank_nil (word_one hb) (hg c List.mem_cons_self) hrest⟩
  cases h with
  | blank hg =>
    cases line with
    | nil => exact ⟨_, .last blank_nil (word_one hb)⟩
    | cons c g => exact own hg (.blank hg.tail)
  | @last g w hg hw =>
    cases g with
    | nil => exact ⟨_, .last blank_nil (hw.cons hb)⟩
    | cons c g => exact own hg (.last hg.tail hw)
  | @word g w rest ws c' hg hw hc' hrest =>
    cases g with
    | nil => exact ⟨_, .word c' blank_nil (hw.cons hb) hc' hrest⟩
    | cons c g => exact own hg (.word c' hg.tail hw hc' hrest)

theorem exists_lineOf (line : Bytes) : ∃ ws, LineOf ws line := by
  induction line with
  | nil => exact ⟨[], .blank blank_nil⟩
  | cons b line ih =>
    obtain ⟨ws, h⟩ := ih
    cases hb : isAsciiWhitespace b with
    | true => exact ⟨ws, h.blank_cons hb⟩
    | false => exact h.solid_cons hb

/-- **Lines.** A line is split into the words it was typed from, and every line is typed
from the words it is split into. -/
theorem lineOf_iff {ws : List Bytes} {line : Bytes} : LineOf ws line ↔ words line = ws := by
  refine ⟨LineOf.words_eq, ?_⟩
  rintro rfl
  obtain ⟨ws, h⟩ := exists_lineOf line
  rwa [h.words_eq]

/-! ## Frames -/

/-- A line without a CRLF in it ends at the one behind it. -/
theorem crlfAt_ended (rest : Bytes) (line : Bytes) (h : crlfAt line = none) :
    crlfAt (line ++ 13 :: 10 :: rest) = some line.length := by
  induction line with
  | nil => simp [crlfAt]
  | cons x t ih =>
    cases t with
    | nil => simp [crlfAt]
    | cons y t =>
      rw [crlfAt] at h
      split at h
      · cases h
      · rename_i hxy
        have ht := ih (Option.map_eq_none_iff.1 h)
        simp only [List.cons_append] at ht ⊢
        rw [crlfAt, if_neg hxy, ht]
        rfl

/-- The ways to send a command. -/
inductive Sent (argv : List Bytes) : Bytes → Prop
  | array : Fits argv → Sent argv (encodeArgs argv)
  | line {l : Bytes} : LineOf argv l → crlfAt l = none → l.head? ≠ some 42 → l.length < INLINE_MAX →
    Sent argv (l ++ crlf)

theorem sent_line {l : Bytes} (h : crlfAt l = none) (rest : Bytes) :
    readLine (l ++ crlf ++ rest) 0 = some (l, (l ++ crlf).length) := by
  rw [List.append_assoc, readLine, List.drop_zero, crlf, List.cons_append, List.singleton_append,
    crlfAt_ended rest l h, Option.map_some, List.take_left, Nat.zero_add, List.length_append]
  rfl

theorem ranges_of_parse {buf : Bytes} {argv : List Bytes} {n : Nat}
    (h : parseCommand buf = .ok (some (argv, n))) :
    ∃ ranges, parseCommandRanges buf = .ok (some (ranges, n)) ∧ ranges.map (slice buf) = argv := by
  rw [parseCommand_ranges] at h
  rcases hp : parseCommandRanges buf with er | _ | ⟨ranges, consumed⟩
  · rw [hp] at h; cases h
  · rw [hp] at h; cases h
  · rw [hp] at h
    cases h
    exact ⟨ranges, rfl, rfl⟩

/-- The frame is parsed as the command it was made from, whatever follows. -/
theorem Sent.parsed {argv : List Bytes} {frame : Bytes} (h : Sent argv frame) (rest : Bytes) :
    ∃ ranges, parseCommandRanges (frame ++ rest) = .ok (some (ranges, frame.length)) ∧
      ranges.map (slice (frame ++ rest)) = argv := by
  cases h with
  | array hf => exact ranges_of_parse (parseCommand_encodeArgs argv hf rest)
  | @line l ht hl hstar _ =>
    have hread := sent_line hl rest
    obtain ⟨hmap, hin⟩ := tokenLoop_spec l l.length 0 (Nat.zero_le _) (Nat.sub_le ..)
    rw [List.drop_zero, ht.words_eq] at hmap
    refine ⟨_, ranges_line ?_ hread, ?_⟩
    · cases l with
      | nil => simp [crlf]
      | cons x t => exact hstar
    · rw [← hmap]
      exact List.map_congr_left fun r hr => (readLine_zero hread).2.2 r (hin r hr)

/-- No frame is refused for its length. -/
theorem Sent.short {argv : List Bytes} {frame : Bytes} (h : Sent argv frame) (rest : Bytes) :
    refusable (frame ++ rest) frame.length = false := by
  cases h with
  | array hf => rw [encodeArgs_eq]; rfl
  | line _ _ _ hlen =>
    refine Bool.eq_false_iff.2 fun hr => ?_
    have := (refusable_iff.1 hr).2
    rw [List.length_append, crlf] at this
    simp only [List.length_cons, List.length_nil] at this
    omega

/-- The pieces of a stream of such frames are the commands. -/
theorem pieces_sent {cap : Nat} {cmds : List (List Bytes)} {frames : List Bytes}
    (h : List.Forall₂ Sent cmds frames) :
    ∀ f, frames.flatten.length ≤ f →
      pieces cap f frames.flatten = cmds.map fun argv => ⟨some argv, false⟩ := by
  induction h with
  | nil => exact fun f _ => pieces_wait cap f rfl
  | @cons argv frame cmds frames hs _ ih =>
    intro f hf
    obtain ⟨ranges, hp, hargs⟩ := hs.parsed frames.flatten
    have hr := hs.short frames.flatten
    have hpos := (ranges_within hp).1
    rw [List.flatten_cons, List.length_append] at hf
    obtain ⟨f, rfl⟩ : ∃ g, f = g + 1 := ⟨f - 1, by omega⟩
    rw [List.flatten_cons, pieces_next f hp (fun h => by rw [hr] at h; cases h), hargs, hr,
      List.drop_left, ih f (by omega)]
    rfl

/-- The commands of a list of argument vectors; an empty one is skipped. -/
def items (cmds : List (List Bytes)) : List Item := cmds.flatMap fun
  | [] => []
  | name :: args => [.cmd name args]

theorem items_append (cmds cmds' : List (List Bytes)) :
    items (cmds ++ cmds') = items cmds ++ items cmds' :=
  List.flatMap_append ..

theorem inputs_items (cmds : List (List Bytes)) :
    inputs (cmds.map fun argv => ⟨some argv, false⟩) = (items cmds).map Item.input := by
  induction cmds with
  | nil => rfl
  | cons argv cmds ih =>
    rw [List.map_cons, inputs_cons, ih]
    cases argv with
    | nil => rfl
    | cons name args => rfl

theorem items_bad (cmds : List (List Bytes)) : none ∉ (items cmds).map Item.input := by
  intro h
  obtain ⟨i, hi, hn⟩ := List.mem_map.1 h
  obtain ⟨argv, -, hi⟩ := List.mem_flatMap.1 hi
  cases argv with
  | nil => cases hi
  | cons name args => rw [List.mem_singleton.1 hi] at hn; cases hn

/-- Without a protocol error the inputs are all there is to the items. -/
theorem input_inj {is js : List Item} (h : is.map Item.input = js.map Item.input)
    (hbad : none ∉ js.map Item.input) : is = js := by
  induction js generalizing is with
  | nil => exact List.map_eq_nil_iff.1 h
  | cons j js ih =>
    cases is with
    | nil => cases h
    | cons i is =>
      obtain ⟨hi, his⟩ := List.cons.inj h
      rw [ih his fun hm => hbad (List.mem_cons_of_mem _ hm)]
      cases j with
      | bad e => exact absurd List.mem_cons_self hbad
      | cmd name args =>
        cases i with
        | bad e => cases hi
        | cmd name' args' => cases hi; rfl

theorem received_sent {cap : Nat} {cmds : List (List Bytes)} {frames reads : List Bytes}
    (h : List.Forall₂ Sent cmds frames) (hr : Splits cap frames.flatten reads) :
    received reads [] = items cmds := by
  have hread :=
    received_reading reads [] frames.flatten.length rfl hr.fits (by rw [List.nil_append, hr.whole])
  rw [List.nil_append, hr.whole, pieces_sent h _ le_rfl] at hread
  have := reading_tight (by simp) hread
  rw [inputs_items] at this
  exact input_inj this (items_bad cmds)

/-! ## Sessions -/

section
variable {σ : Type} [Score σ]

/-- A connection serves an argument vector; no longer once it is closed. -/
def Loop.serve (command : Conn σ → Bytes → List Bytes → Conn σ) (c : Conn σ) : List Bytes → Conn σ
  | [] => c
  | name :: args => if c.status = .open then command c name args else c

theorem Loop.fold_items (command : Conn σ → Bytes → List Bytes → Conn σ)
    (cmds : List (List Bytes)) : ∀ c : Conn σ,
    (items cmds).foldl (Loop.item command) c = cmds.foldl (Loop.serve command) c := by
  induction cmds with
  | nil => exact fun _ => rfl
  | cons argv cmds ih =>
    intro c
    cases argv with
    | nil => exact ih c
    | cons name args => exact ih _

/-- A connection that receives such frames. -/
theorem run_sent {cap : Nat} (srv : Server) (E : Surroundings) (id : Nat) (n : Node σ)
    {cmds : List (List Bytes)} {frames reads : List Bytes} (h : List.Forall₂ Sent cmds frames)
    (hr : Splits cap frames.flatten reads) :
    (Conn.accept srv id n).run srv E reads [] =
      (items cmds).foldl (Conn.item srv E) (Conn.accept srv id n) := by
  rw [Conn.run, Loop.run_fold reads [] _ rfl, received_sent h hr]

/-- **Sessions.** A client sends commands, each as an array or as a line, in reads of any
length: both runtimes serve exactly these commands, one after another, until one of them
ends the connection. -/
theorem session_exact (cap : Nat) (srv : Server) (E : Surroundings) (id : Nat) (node : Node σ)
    {cmds : List (List Bytes)} {frames reads : List Bytes} (h : List.Forall₂ Sent cmds frames)
    (hr : Splits cap frames.flatten reads) :
    (Conn.accept srv id node).run srv E reads [] =
        cmds.foldl (Loop.serve (Conn.command srv E)) (Conn.accept srv id node) ∧
      Uring.handleConn srv E reads (Conn.accept srv id node) =
        cmds.foldl (Loop.serve (Uring.command srv E)) (Conn.accept srv id node) := by
  constructor
  · rw [run_sent srv E id node h hr, Conn.item, Loop.fold_items]
  · rw [Uring.handleConn, Loop.run_fold reads [] _ rfl, received_sent h hr, Loop.fold_items]

/-- A command typed with blanks of all kinds and one sent as an array, cut in the middle of both. -/
theorem session_exact_mixed :
    let c := Conn.accept openServer 1 (freshNode : Node Int)
    let cmds := [[lit "SET", lit "k", lit "v"], [lit "GET", lit "k"]]
    c.run openServer (fun _ => Env.plain 0)
      [lit " SET\tk  v ", lit "\r\n*2\r\n$3\r\nGE", lit "T\r\n$1\r\nk\r\n"] [] =
        cmds.foldl (Loop.serve (Conn.command openServer fun _ => Env.plain 0)) c ∧
      Uring.handleConn openServer (fun _ => Env.plain 0)
          [lit " SET\tk  v ", lit "\r\n*2\r\n$3\r\nGE", lit "T\r\n$1\r\nk\r\n"] c =
        cmds.foldl (Loop.serve (Uring.command openServer fun _ => Env.plain 0)) c := by
  have htyped : LineOf [lit "SET", lit "k", lit "v"] (lit " SET\tk  v ") := lineOf_iff.2 (by decide)
  have hset : Sent [lit "SET", lit "k", lit "v"] (lit " SET\tk  v " ++ crlf) :=
    .line htyped (by decide) (by decide) (by decide)
  have hget : Sent [lit "GET", lit "k"] (encodeArgs [lit "GET", lit "k"]) := .array (by decide)
  refine session_exact READ_CHUNK openServer (fun _ => Env.plain 0) 1 freshNode
    (.cons hset (.cons hget .nil)) ?_
  exact ⟨by decide, by decide, by decide⟩

end

end Inmem.L4
