import Inmem.L1Encoding.Bytes

/-!
# RESP2 / RESP3: command parsers, direct writers and reply encoding

Model of crates/proto/src/resp.rs. A buffer is a `Bytes`; positions in it are
natural numbers, as in the source (`pos`, `after_len`, `data_end`), so that
the results carry the same consumed counts and ranges.

`parse_array_command` and the array branch of `parse_command_ranges` are the
same loop except for what they push per argument (a copy of the data, or its
range). The loop is `bulkLoop`, with the pushed value as a parameter; each
parser applies it to its own. Their inline branches are written differently
in the source (`split` / `filter` against an index loop) and stay separate.
-/
namespace Inmem.L1.Resp

open Inmem.L1 Inmem.Core.Decimal

/-- mirrors crates/proto/src/resp.rs:7-12 -/
inductive ProtocolError where
  | malformed (msg : Bytes)
  | tooLarge
  deriving DecidableEq, Repr

/-- The `Display` text.
mirrors crates/proto/src/resp.rs:14-21 -/
def ProtocolError.text : ProtocolError → Bytes
  | .malformed m => lit "protocol error: " ++ m
  | .tooLarge => lit "protocol error: frame too large"

def MAX_BULK_LEN : Int := 512 * 1024 * 1024

def MAX_ARRAY_LEN : Int := 1024 * 1024

def crlf : Bytes := [13, 10]

/-- Index of the first CRLF. -/
def crlfAt : Bytes → Option Nat
  | [] => none
  | [_] => none
  | a :: b :: t => if a = 13 ∧ b = 10 then some 0 else (crlfAt (b :: t)).map (· + 1)

/-- The line that starts at `start` (without its CRLF) and the index after
the CRLF.
mirrors crates/proto/src/resp.rs:33-42 -/
def readLine (buf : Bytes) (start : Nat) : Option (Bytes × Nat) :=
  (crlfAt (buf.drop start)).map fun n => ((buf.drop start).take n, start + n + 2)

/-- mirrors crates/proto/src/resp.rs:44-49 -/
def parseInt (line : Bytes) : Except ProtocolError Int :=
  match parseI64 line with
  | some z => .ok z
  | none => .error (.malformed (lit "invalid integer"))

/-! ## Commands -/

/-- The bulk-string loop: `n` arguments still to read, from `pos` on.
mirrors crates/proto/src/resp.rs:84-113 and :157-185 -/
def bulkLoop {α : Type} (emit : Nat → Nat → α) (buf : Bytes) :
    Nat → Nat → Except ProtocolError (Option (List α × Nat))
  | 0, pos => .ok (some ([], pos))
  | n + 1, pos =>
    if buf.length ≤ pos then .ok none
    else if buf[pos]? ≠ some 36 then .error (.malformed (lit "expected bulk string in command"))
    else match readLine buf (pos + 1) with
      | none => .ok none
      | some (lenLine, afterLen) =>
        match parseInt lenLine with
        | .error e => .error e
        | .ok len =>
          if len < 0 then .error (.malformed (lit "null bulk in command"))
          else if MAX_BULK_LEN < len then .error .tooLarge
          else
            let dataEnd := afterLen + len.toNat
            if buf.length < dataEnd + 2 then .ok none
            else if (buf.drop dataEnd).take 2 ≠ crlf then
              .error (.malformed (lit "bulk not CRLF-terminated"))
            else (bulkLoop emit buf n (dataEnd + 2)).map
              (Option.map fun r => (emit afterLen len.toNat :: r.1, r.2))

/-- The array form, for either parser.
mirrors crates/proto/src/resp.rs:71-83 and :146-156 -/
def arrayCommand {α : Type} (emit : Nat → Nat → α) (buf : Bytes) :
    Except ProtocolError (Option (List α × Nat)) :=
  match readLine buf 1 with
  | none => .ok none
  | some (line, pos) =>
    match parseInt line with
    | .error e => .error e
    | .ok n =>
      -- a null array is an empty command, which the callers skip
      if n < 0 then .ok (some ([], pos))
      else if MAX_ARRAY_LEN < n then .error .tooLarge
      else bulkLoop emit buf n.toNat pos

/-- mirrors crates/proto/src/resp.rs:71-114 -/
def parseArrayCommand (buf : Bytes) : Except ProtocolError (Option (List Bytes × Nat)) :=
  arrayCommand (fun o l => (buf.drop o).take l) buf

/-- `slice::split` on ASCII whitespace, empty pieces included. -/
def splitWs : Bytes → List Bytes
  | [] => [[]]
  | b :: t =>
    if isAsciiWhitespace b then [] :: splitWs t
    else match splitWs t with
      | p :: ps => (b :: p) :: ps
      | [] => [[b]]

/-- mirrors crates/proto/src/resp.rs:116-130 -/
def parseInlineCommand (buf : Bytes) : Except ProtocolError (Option (List Bytes × Nat)) :=
  match readLine buf 0 with
  | none => if 64 * 1024 < buf.length then .error .tooLarge else .ok none
  | some (line, consumed) => .ok (some ((splitWs line).filter (· ≠ []), consumed))

/-- mirrors crates/proto/src/resp.rs:60-69 -/
def parseCommand (buf : Bytes) : Except ProtocolError (Option (List Bytes × Nat)) :=
  match buf with
  | [] => .ok none
  | b :: _ => if b = 42 then parseArrayCommand buf else parseInlineCommand buf

/-- First index from `i` on whose byte fails `p` (or the length). -/
def skipWhile (p : UInt8 → Bool) (line : Bytes) (i : Nat) : Nat :=
  i + ((line.drop i).takeWhile p).length

/-- mirrors crates/proto/src/resp.rs:194-206 -/
def tokenLoop (line : Bytes) : Nat → Nat → List (Nat × Nat)
  | 0, _ => []
  | f + 1, i =>
    if i < line.length then
      let start := skipWhile isAsciiWhitespace line i
      let stop := skipWhile (fun b => !isAsciiWhitespace b) line start
      (if start < stop then [(start, stop - start)] else []) ++ tokenLoop line f stop
    else []

/-- The zero-copy parser: ranges into `buf` and the consumed count.
mirrors crates/proto/src/resp.rs:137-209 -/
def parseCommandRanges (buf : Bytes) : Except ProtocolError (Option (List (Nat × Nat) × Nat)) :=
  match buf with
  | [] => .ok none
  | b :: _ =>
    if b = 42 then arrayCommand (fun o l => (o, l)) buf
    else match readLine buf 0 with
      | none => if 64 * 1024 < buf.length then .error .tooLarge else .ok none
      | some (line, consumed) => .ok (some (tokenLoop line line.length 0, consumed))

/-- A command as a RESP array of bulk strings. The source writes this out
three times (`encode_command`, `repl::encode`, `write_cmd`).
mirrors crates/server/src/persistence.rs:45-56, crates/server/src/repl.rs:135-146
and crates/core/src/store.rs:920-931 -/
def encodeArgs (args : List Bytes) : Bytes :=
  42 :: natText args.length ++ crlf ++
    args.flatMap fun a => 36 :: natText a.length ++ crlf ++ a ++ crlf

/-! ## Direct writers -/

/-- The digit loop of `write_uint`: `v` is what is left to write, `i` the
index of the last digit written. `none`: the index would go below zero.
mirrors crates/proto/src/resp.rs:257-263 -/
def digitLoop : Nat → Nat → Nat → Bytes → Option (Nat × Bytes)
  | 0, v, i, tmp => if v = 0 then some (i, tmp) else none
  | f + 1, v, i, tmp =>
    if v = 0 then some (i, tmp)
    else if i = 0 then none
    else digitLoop f (v / 10) (i - 1) (tmp.set (i - 1) (digit (v % 10)))

/-- mirrors crates/proto/src/resp.rs:252-265 -/
def writeUint (v : UInt64) : Bytes :=
  if v = 0 then [48]
  else match digitLoop 20 v.toNat 20 (List.replicate 20 0) with
    | some (i, tmp) => tmp.drop i
    | none => []

/-- mirrors crates/proto/src/resp.rs:212-218 -/
def writeBulk (data : Bytes) : Bytes :=
  36 :: writeUint (UInt64.ofNat data.length) ++ crlf ++ data ++ crlf

/-- mirrors crates/proto/src/resp.rs:221-223 -/
def writeNull (resp3 : Bool) : Bytes := if resp3 then lit "_\r\n" else lit "$-1\r\n"

/-- mirrors crates/proto/src/resp.rs:226-230 -/
def writeSimple (s : Bytes) : Bytes := 43 :: s ++ crlf

/-- mirrors crates/proto/src/resp.rs:233-237 -/
def writeError (msg : Bytes) : Bytes := 45 :: msg ++ crlf

/-- `n` is an `i64`; `unsigned_abs` is its absolute value as a `u64`.
mirrors crates/proto/src/resp.rs:240-249 -/
def writeInt (n : Int) : Bytes :=
  58 :: (if n < 0 then 45 :: writeUint (UInt64.ofNat n.natAbs)
    else writeUint (UInt64.ofNat n.toNat)) ++ crlf

/-! ## Replies -/

/-- mirrors crates/proto/src/resp.rs:270-289; `F` is the type of a `Double`. -/
inductive Reply (F : Type) where
  | simple (s : Bytes)
  | error (s : Bytes)
  | int (n : Int)
  | bulk (b : Option Bytes)
  | nullArray
  | array (items : List (Reply F))
  | null
  | bool (b : Bool)
  | double (d : F)
  | map (pairs : List (Reply F × Reply F))

def Reply.ok {F : Type} : Reply F := .simple (lit "OK")

mutual

/-- `fmt` is `format_double`.
mirrors crates/proto/src/resp.rs:298-372 -/
def Reply.encode {F : Type} (fmt : F → Bytes) (resp3 : Bool) : Reply F → Bytes
  | .simple s => 43 :: s ++ crlf
  | .error s => 45 :: s ++ crlf
  | .int n => 58 :: intText n ++ crlf
  | .bulk none => if resp3 then lit "_\r\n" else lit "$-1\r\n"
  | .bulk (some b) => 36 :: natText b.length ++ crlf ++ b ++ crlf
  | .nullArray => if resp3 then lit "_\r\n" else lit "*-1\r\n"
  | .array items => 42 :: natText items.length ++ crlf ++ Reply.encodeItems fmt resp3 items
  | .null => if resp3 then lit "_\r\n" else lit "$-1\r\n"
  | .bool b =>
    if resp3 then (if b then lit "#t\r\n" else lit "#f\r\n")
    else (if b then lit ":1\r\n" else lit ":0\r\n")
  | .double d =>
    if resp3 then 44 :: fmt d ++ crlf else 36 :: natText (fmt d).length ++ crlf ++ fmt d ++ crlf
  | .map pairs =>
    (if resp3 then 37 :: natText pairs.length ++ crlf
      else 42 :: natText (pairs.length * 2) ++ crlf) ++
      Reply.encodePairs fmt resp3 pairs

def Reply.encodeItems {F : Type} (fmt : F → Bytes) (resp3 : Bool) : List (Reply F) → Bytes
  | [] => []
  | r :: rs => r.encode fmt resp3 ++ Reply.encodeItems fmt resp3 rs

def Reply.encodePairs {F : Type} (fmt : F → Bytes) (resp3 : Bool) : List (Reply F × Reply F) → Bytes
  | [] => []
  | (k, v) :: ps => k.encode fmt resp3 ++ v.encode fmt resp3 ++ Reply.encodePairs fmt resp3 ps

end

example : parseCommand (lit "*2\r\n$3\r\nGET\r\n$3\r\nfoo\r\nrest") =
    .ok (some ([lit "GET", lit "foo"], 22)) := by decide +kernel

example : parseCommandRanges (lit "set  k v\r\n") = .ok (some ([(0, 3), (5, 1), (7, 1)], 10)) := by
  decide +kernel

example : writeInt (-9223372036854775808) = lit ":-9223372036854775808\r\n" := by decide +kernel

end Inmem.L1.Resp
