import Inmem.L1Encoding.RespRanges

/-!
# The command codec: its encoders and its bounds

The source encodes a command in three places; `codec_roundtrip` says that they
write the same bytes and that the parser reads these back, whatever follows.

`parseCommandChecked` is the owning parser with every index and slice of the
source checked: its outer `none` stands for one that is out of bounds.

* `parseCommandChecked_eq`: it never is.
* `parser_self_delimiting`: a command that has been read is read the same from the
  bytes it took and from no fewer; an error of the array form is final.
-/
namespace Inmem.L1.Resp

open Inmem.L1 Inmem.Core.Decimal

/-! ## Encoders -/

/-- What the three encoders write to `out`. -/
def pushCommand (out : Bytes) (args : List Bytes) : Bytes :=
  args.foldl (fun out a => out ++ [36] ++ natText a.length ++ crlf ++ a ++ crlf)
    (out ++ [42] ++ natText args.length ++ crlf)

/-- mirrors crates/server/src/persistence.rs:45-56 -/
def encodeCommand (argv : List Bytes) (out : Bytes) : Bytes := pushCommand out argv

/-- `repl::encode`, mirrors crates/server/src/repl.rs:135-146 -/
def replEncode (out : Bytes) (args : List Bytes) : Bytes := pushCommand out args

/-- mirrors crates/core/src/store.rs:920-931 -/
def writeCmd (out : Bytes) (args : List Bytes) : Bytes := pushCommand out args

theorem pushCommand_eq (out : Bytes) (args : List Bytes) :
    pushCommand out args = out ++ encodeArgs args := by
  have hfold : ∀ (as : List Bytes) (acc : Bytes),
      as.foldl (fun out a => out ++ [36] ++ natText a.length ++ crlf ++ a ++ crlf) acc =
        acc ++ as.flatMap encBulk := by
    intro as
    induction as with
    | nil => intro acc; simp
    | cons a as ih =>
      intro acc
      rw [List.foldl_cons, ih, List.flatMap_cons]
      simp [encBulk]
  rw [pushCommand, hfold, encodeArgs_eq]
  simp

/-- **Round trip.** For every argument vector within the parser's limits and whatever
follows: the three encoders append the same bytes, and the parser reads the vector
back from them and takes exactly these bytes. -/
theorem codec_roundtrip (args : List Bytes) (hlen : args.length ≤ 1048576)
    (hargs : ∀ a ∈ args, a.length ≤ 512 * 1024 * 1024) (rest : Bytes) :
    let b := encodeCommand args []
    (∀ out, encodeCommand args out = out ++ b ∧ replEncode out args = out ++ b ∧
      writeCmd out args = out ++ b) ∧
      parseCommand (b ++ rest) = .ok (some (args, b.length)) := by
  intro b
  have hb : b = encodeArgs args := pushCommand_eq [] args
  have hfits : Fits args := by
    refine ⟨by unfold MAX_ARRAY_LEN; omega, fun a ha => ?_⟩
    have := hargs a ha
    unfold MAX_BULK_LEN
    omega
  rw [hb]
  exact ⟨fun out => ⟨pushCommand_eq out args, pushCommand_eq out args, pushCommand_eq out args⟩,
    parseCommand_encodeArgs args hfits rest⟩

/-- Bytes that look like framing, and an empty argument. -/
theorem codec_roundtrip_binary :
    let b := encodeCommand [lit "SET", lit "$3\r\n", []] []
    parseCommand (b ++ lit "*1\r\n") = .ok (some ([lit "SET", lit "$3\r\n", []], b.length)) :=
  (codec_roundtrip [lit "SET", lit "$3\r\n", []] (by decide) (by decide) (lit "*1\r\n")).2

/-! ## The parser with checked indices -/

/-- `&buf[a..b]` -/
def sliceChecked (buf : Bytes) (a b : Nat) : Option Bytes :=
  if a ≤ b ∧ b ≤ buf.length then some ((buf.drop a).take (b - a)) else none

/-- The loop of `read_line`, mirrors crates/proto/src/resp.rs:34-40 -/
def readLineLoop (buf : Bytes) (start : Nat) : Nat → Nat → Option (Option (Bytes × Nat))
  | 0, _ => none
  | f + 1, i =>
    if i + 1 < buf.length then
      (buf[i]?).bind fun x =>
        if x = 13 then
          (buf[i + 1]?).bind fun y =>
            if y = 10 then (sliceChecked buf start i).map fun line => some (line, i + 2)
            else readLineLoop buf start f (i + 1)
        else readLineLoop buf start f (i + 1)
    else some none

/-- mirrors crates/proto/src/resp.rs:33-42 -/
def readLineChecked (buf : Bytes) (start : Nat) : Option (Option (Bytes × Nat)) :=
  readLineLoop buf start (buf.length + 1) start

/-- mirrors crates/proto/src/resp.rs:84-113 -/
def bulkLoopChecked (buf : Bytes) :
    Nat → Nat → Option (Except ProtocolError (Option (List Bytes × Nat)))
  | 0, pos => some (.ok (some ([], pos)))
  | n + 1, pos =>
    if buf.length ≤ pos then some (.ok none)
    else
      (buf[pos]?).bind fun x =>
        if x ≠ 36 then some (.error (.malformed (lit "expected bulk string in command")))
        else
          (readLineChecked buf (pos + 1)).bind fun line =>
            match line with
            | none => some (.ok none)
            | some (lenLine, afterLen) =>
              match parseInt lenLine with
              | .error e => some (.error e)
              | .ok len =>
                if len < 0 then some (.error (.malformed (lit "null bulk in command")))
                else if MAX_BULK_LEN < len then some (.error .tooLarge)
                else
                  let dataEnd := afterLen + len.toNat
                  if buf.length < dataEnd + 2 then some (.ok none)
                  else
                    (sliceChecked buf dataEnd (dataEnd + 2)).bind fun term =>
                      if term ≠ crlf
                        then some (.error (.malformed (lit "bulk not CRLF-terminated")))
                      else
                        (sliceChecked buf afterLen dataEnd).bind fun arg =>
                          (bulkLoopChecked buf n (dataEnd + 2)).map fun r =>
                            r.map (Option.map fun q => (arg :: q.1, q.2))

/-- mirrors crates/proto/src/resp.rs:71-114 -/
def parseArrayCommandChecked (buf : Bytes) :
    Option (Except ProtocolError (Option (List Bytes × Nat))) :=
  (readLineChecked buf 1).bind fun line =>
    match line with
    | none => some (.ok none)
    | some (line, pos) =>
      match parseInt line with
      | .error e => some (.error e)
      | .ok n =>
        if n < 0 then some (.ok (some ([], pos)))
        else if MAX_ARRAY_LEN < n then some (.error .tooLarge)
        else bulkLoopChecked buf n.toNat pos

/-- mirrors crates/proto/src/resp.rs:116-130 -/
def parseInlineCommandChecked (buf : Bytes) :
    Option (Except ProtocolError (Option (List Bytes × Nat))) :=
  (readLineChecked buf 0).map fun line =>
    match line with
    | none => if 64 * 1024 < buf.length then .error .tooLarge else .ok none
    | some (line, consumed) => .ok (some ((splitWs line).filter (· ≠ []), consumed))

/-- mirrors crates/proto/src/resp.rs:60-69 -/
def parseCommandChecked (buf : Bytes) : Option (Except ProtocolError (Option (List Bytes × Nat))) :=
  if buf.isEmpty then some (.ok none)
  else
    (buf[0]?).bind fun b => if b = 42 then parseArrayCommandChecked buf
      else parseInlineCommandChecked buf

theorem sliceChecked_eq {buf : Bytes} {a b : Nat} (h : a ≤ b) (hb : b ≤ buf.length) :
    sliceChecked buf a b = some ((buf.drop a).take (b - a)) := if_pos ⟨h, hb⟩

theorem getElem?_drop_one {buf : Bytes} {i : Nat} {x y : UInt8} {t : Bytes}
    (h : buf.drop i = x :: y :: t) :
    buf[i]? = some x ∧ buf[i + 1]? = some y ∧ buf.drop (i + 1) = y :: t ∧ i + 2 ≤ buf.length := by
  have hlen := congrArg List.length h
  rw [List.length_drop, List.length_cons, List.length_cons] at hlen
  have h0 : (buf.drop i)[0]? = some x := by rw [h]; rfl
  have h1 : (buf.drop i)[1]? = some y := by rw [h]; rfl
  rw [List.getElem?_drop] at h0 h1
  exact ⟨h0, h1, by rw [← List.drop_drop, h]; rfl, by omega⟩

/-- The scan for the CRLF, from any place on the line; the fuel is the text left. -/
theorem readLineLoop_eq (buf : Bytes) (start : Nat) (f : Nat) :
    ∀ i, start ≤ i → 0 < f → buf.length < i + f →
    readLineLoop buf start f i =
      some ((crlfAt (buf.drop i)).map fun n => ((buf.drop start).take (i + n - start),
        i + n + 2)) := by
  induction f with
  | zero => intro i _ h0; omega
  | succ f ih =>
    intro i hi _ hf
    unfold readLineLoop
    rcases hd : buf.drop i with _ | ⟨x, _ | ⟨y, t⟩⟩
    · rw [if_neg (by have := List.drop_eq_nil_iff.1 hd; omega)]
      rfl
    · have hlen := congrArg List.length hd
      rw [List.length_drop, List.length_singleton] at hlen
      rw [if_neg (by omega)]
      rfl
    · obtain ⟨hx, hy, hnext, hlen⟩ := getElem?_drop_one hd
      rw [if_pos (by omega), hx, hy, Option.bind_some, Option.bind_some]
      -- the next turn looks at the rest of the line
      have hrec := ih (i + 1) (by omega) (by omega) (by omega)
      rw [hnext] at hrec
      have hshift : some (((crlfAt (y :: t)).map (· + 1)).map fun n =>
          ((buf.drop start).take (i + n - start), i + n + 2)) =
            readLineLoop buf start f (i + 1) := by
        rw [hrec, Option.map_map]
        congr 2
        funext n
        simp only [Function.comp_apply]
        rw [show i + (n + 1) = i + 1 + n by omega]
      rw [crlfAt]
      by_cases h13 : x = 13
      · rw [if_pos h13]
        by_cases h10 : y = 10
        · rw [if_pos h10, if_pos ⟨h13, h10⟩, sliceChecked_eq hi (by omega)]
          rfl
        · rw [if_neg h10, if_neg fun h => h10 h.2, hshift]
      · rw [if_neg h13, if_neg fun h => h13 h.1, hshift]

theorem readLineChecked_eq (buf : Bytes) (start : Nat) :
    readLineChecked buf start = some (readLine buf start) := by
  rw [readLineChecked, readLineLoop_eq buf start _ start le_rfl (by omega) (by omega), readLine]
  simp only [Nat.add_sub_cancel_left]

theorem bulkLoopChecked_eq (buf : Bytes) (n : Nat) : ∀ pos,
    bulkLoopChecked buf n pos = some (bulkLoop (fun o l => (buf.drop o).take l) buf n pos) := by
  induction n with
  | zero => intro pos; rfl
  | succ n ih =>
    intro pos
    unfold bulkLoopChecked bulkLoop
    by_cases hpos : buf.length ≤ pos
    · rw [if_pos hpos, if_pos hpos]
    rw [if_neg hpos, if_neg hpos]
    cases hx : buf[pos]? with
    | none => exact absurd (List.getElem?_eq_none_iff.1 hx) hpos
    | some x =>
      rw [Option.bind_some]
      by_cases h36 : x = 36
      · rw [if_neg (not_not.2 h36), if_neg (by rw [h36]; exact not_not.2 rfl), readLineChecked_eq,
          Option.bind_some]
        cases hl : readLine buf (pos + 1) with
        | none => rfl
        | some r =>
          obtain ⟨lenLine, afterLen⟩ := r
          dsimp only
          cases parseInt lenLine with
          | error e => rfl
          | ok len =>
            dsimp only
            split
            · rfl
            split
            · rfl
            split
            · rfl
            · -- the data and its CRLF are in the buffer
              rename_i hroom
              have hlen := (readLine_le hl).2
              rw [sliceChecked_eq (Nat.le_add_right _ 2) (by omega),
                sliceChecked_eq (Nat.le_add_right ..) (by omega), Option.bind_some,
                Option.bind_some, ih, Nat.add_sub_cancel_left, Nat.add_sub_cancel_left]
              split <;> rfl
      · rw [if_pos h36, if_pos fun e => h36 (Option.some.inj e)]

theorem parseInlineCommandChecked_eq (buf : Bytes) :
    parseInlineCommandChecked buf = some (parseInlineCommand buf) := by
  unfold parseInlineCommandChecked parseInlineCommand
  rw [readLineChecked_eq]
  cases readLine buf 0 <;> rfl

/-- **In bounds.** The parser indexes and slices its buffer within bounds. -/
theorem parseCommandChecked_eq (buf : Bytes) :
    parseCommandChecked buf = some (parseCommand buf) := by
  cases buf with
  | nil => rfl
  | cons b t =>
    show (if b = 42 then parseArrayCommandChecked (b :: t)
      else parseInlineCommandChecked (b :: t)) =
      some (if b = 42 then parseArrayCommand (b :: t) else parseInlineCommand (b :: t))
    by_cases hb : b = 42
    · rw [if_pos hb, if_pos hb, parseArrayCommandChecked, parseArrayCommand, arrayCommand,
        readLineChecked_eq, Option.bind_some]
      cases readLine (b :: t) 1 with
      | none => rfl
      | some r =>
        obtain ⟨line, pos⟩ := r
        dsimp only
        cases parseInt line with
        | error e => rfl
        | ok n =>
          dsimp only
          split
          · rfl
          split
          · rfl
          · exact bulkLoopChecked_eq _ _ _
    · rw [if_neg hb, if_neg hb]
      exact parseInlineCommandChecked_eq (b :: t)

/-! ## Self-delimiting frames -/

/-- What the parser makes of the front of a buffer that a command is read from. -/
theorem parseCommand_cut {b e : Bytes} {argv : List Bytes} {c : Nat} (hb : b ≠ [])
    (h : parseCommand (b ++ e) = .ok (some (argv, c))) :
    parseCommand b = if c ≤ b.length then .ok (some (argv, c))
      else if b.head? ≠ some 42 ∧ 64 * 1024 < b.length then .error .tooLarge else .ok none := by
  rw [parseCommand_ranges] at h ⊢
  rcases hr : parseCommandRanges (b ++ e) with er | _ | ⟨ranges, consumed⟩
  · rw [hr] at h; cases h
  · rw [hr] at h; cases h
  · rw [hr] at h
    obtain ⟨rfl, rfl⟩ : ranges.map (slice (b ++ e)) = argv ∧ consumed = c := by
      simpa [Except.map] using h
    rw [ranges_cut hr hb]
    split
    · rename_i hle
      have hslices : ranges.map (slice (b ++ e)) = ranges.map (slice b) :=
        List.map_congr_left fun r hin => slice_append e (((ranges_within hr).2.2 r hin).trans hle)
      rw [hslices]
      rfl
    split <;> rfl

/-- **Self-delimiting.** For every buffer: the parser never indexes out of bounds; a
command that it reads takes at least one byte and no more than there are, is read the
same from these bytes with anything behind them, and from no proper front of them (an
inline line may be refused for its length so far, but not below 64 KiB); and an error
of the array form stays, whatever follows. -/
theorem parser_self_delimiting (b : Bytes) :
    parseCommandChecked b = some (parseCommand b) ∧
      (∀ argv c, parseCommand b = .ok (some (argv, c)) →
        0 < c ∧ c ≤ b.length ∧ (∀ e, parseCommand (b.take c ++ e) = .ok (some (argv, c))) ∧
          ∀ q r, b.take c = q ++ r → r ≠ [] → b.head? = some 42 ∨ c ≤ 65537 →
          parseCommand q = .ok none) ∧
      ∀ er, b.head? = some 42 → parseCommand b = .error er →
      ∀ e, parseCommand (b ++ e) = .error er := by
  refine ⟨parseCommandChecked_eq b, fun argv c h => ?_, fun er hx h e => ?_⟩
  · obtain ⟨hpos, hle⟩ := parseCommand_bounds h
    have hlen : (b.take c).length = c := by rw [List.length_take]; omega
    have hsplit : b.take c ++ b.drop c = b := List.take_append_drop c b
    refine ⟨hpos, hle, fun e => ?_, fun q r hq hr hform => ?_⟩
    · have hne : b.take c ≠ [] := List.length_pos_iff.1 (by omega)
      have hcut : parseCommand (b.take c) = .ok (some (argv, c)) := by
        rw [parseCommand_cut (e := b.drop c) hne (by rwa [hsplit]), if_pos hlen.ge]
      exact parseCommand_append e hcut
    · by_cases hq0 : q = []
      · rw [hq0]; rfl
      have hqlen : q.length < c := by
        have := List.length_pos_iff.2 hr
        rw [hq, List.length_append] at hlen
        omega
      have hwhole : parseCommand (q ++ (r ++ b.drop c)) = .ok (some (argv, c)) := by
        rwa [← List.append_assoc, ← hq, hsplit]
      rw [parseCommand_cut hq0 hwhole, if_neg (by omega), if_neg]
      rintro ⟨hhead, hlong⟩
      rcases hform with hx | hc
      · rw [← hsplit, hq, List.append_assoc, head_append hq0] at hx
        exact hhead hx
      · omega
  · rw [parseCommand_ranges] at h ⊢
    rcases hr : parseCommandRanges b with er' | _ | ⟨ranges, consumed⟩
    · rw [hr] at h
      cases h
      rcases ranges_error e hr with ⟨-, h'⟩ | ⟨hx', -⟩
      · rw [h']; rfl
      · exact absurd hx hx'
    · rw [hr] at h; cases h
    · rw [hr] at h; cases h

end Inmem.L1.Resp
