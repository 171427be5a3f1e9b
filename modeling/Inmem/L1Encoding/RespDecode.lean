import Inmem.L1Encoding.RespFrame

/-!
# Decoding replies

`decode` reads one frame off the front of a byte string and gives the reply back.
Some replies are encoded alike on purpose; `Reply.meaning` sends a reply to the one
that stands for all of these: in RESP3 every null is `Null`; in RESP2 `Null` is the
null bulk string, a `Bool` is an `Int` and a `Map` is the array of its keys and
values in turn.

* `encode_oneFrame`: a neat reply is encoded as one frame, and an error only if its text
  is a line (`error_oneFrame_iff`).
* `reply_framing`: an encoded reply decodes to its meaning, and the reader stops
  right behind it.
-/
namespace Inmem.L1.Resp

open Inmem.L1 Inmem.Core.Decimal

/-! ## The decoder -/

/-- One reply off the front: a frame is nested less deep than it has bytes. -/
def decode (resp3 : Bool) (b : Bytes) : Option (Reply Empty × Bytes) := decodeFuel resp3 b.length b

/-! ## What a reply stands for -/

mutual

/-- The reply that a client of this protocol version is told. -/
def Reply.meaning (resp3 : Bool) : Reply Empty → Reply Empty
  | .simple s => .simple s
  | .error s => .error s
  | .int n => .int n
  | .bulk (some b) => .bulk (some b)
  | .bulk none => if resp3 then .null else .bulk none
  | .nullArray => if resp3 then .null else .nullArray
  | .null => if resp3 then .null else .bulk none
  | .bool b => if resp3 then .bool b else .int (if b then 1 else 0)
  | .array items => .array (Reply.meaningItems resp3 items)
  | .map pairs =>
    if resp3 then .map (Reply.meaningPairs resp3 pairs)
    else .array ((Reply.meaningPairs resp3 pairs).flatMap fun p => [p.1, p.2])

def Reply.meaningItems (resp3 : Bool) : List (Reply Empty) → List (Reply Empty)
  | [] => []
  | r :: rs => r.meaning resp3 :: Reply.meaningItems resp3 rs

def Reply.meaningPairs (resp3 : Bool) :
    List (Reply Empty × Reply Empty) → List (Reply Empty × Reply Empty)
  | [] => []
  | (k, v) :: ps => (k.meaning resp3, v.meaning resp3) :: Reply.meaningPairs resp3 ps

end

/-! ## Reading back -/

/-- The bytes decode to the reply, whatever follows them. -/
def Decodes (resp3 : Bool) (b : Bytes) (r : Reply Empty) : Prop :=
  ∀ f, b.length ≤ f → ∀ rest, decodeFuel resp3 f (b ++ rest) = some (r, rest)

/-- A run of replies. -/
def DecodesAll (resp3 : Bool) (b : Bytes) (rs : List (Reply Empty)) : Prop :=
  ∀ f, b.length ≤ f → ∀ rest, readMany (decodeFuel resp3 f) rs.length (b ++ rest) = some (rs, rest)

section
variable {resp3 : Bool} {b l d : Bytes} {t : UInt8} {r : Reply Empty} {rs : List (Reply Empty)}

/-- A first line, and what the type of the frame says of the rest. -/
theorem decodes_of_body (hl : Line l)
    (h : ∀ f, d.length ≤ f → ∀ rest,
      decodeBody resp3 (decodeFuel resp3 f) t l (d ++ rest) = some (r, rest)) :
    Decodes resp3 (t :: l ++ crlf ++ d) r := by
  intro f hf rest
  simp only [List.length_append, List.length_cons] at hf
  obtain ⟨f, rfl⟩ : ∃ g, f = g + 1 := ⟨f - 1, by omega⟩
  rw [List.append_assoc, List.cons_append, List.cons_append, decodeFuel, takeLine_line hl]
  exact h f (by omega) rest

/-- A frame of one line. -/
theorem decodes_of_line (hl : Line l)
    (h : ∀ read rest, decodeBody resp3 read t l rest = some (r, rest)) :
    Decodes resp3 (t :: l ++ crlf) r := by
  have := decodes_of_body (d := []) hl fun f _ rest => h (decodeFuel resp3 f) rest
  rwa [List.append_nil] at this

theorem decodesAll_nil : DecodesAll resp3 [] [] := fun _ _ _ => rfl

theorem DecodesAll.cons {bs : Bytes} (h : Decodes resp3 b r) (hs : DecodesAll resp3 bs rs) :
    DecodesAll resp3 (b ++ bs) (r :: rs) := by
  intro f hf rest
  rw [List.length_append] at hf
  rw [List.append_assoc, List.length_cons, readMany, h f (by omega), Option.bind_some,
    hs f (by omega)]
  rfl

theorem decodes_int (n : Int) : Decodes resp3 (58 :: intText n ++ crlf) (.int n) :=
  decodes_of_line (line_intText n) fun _ _ => by
    simp only [decodeBody, readInt_intText]
    rfl

theorem decodes_bulk (d : Bytes) :
    Decodes resp3 (36 :: natText d.length ++ crlf ++ d ++ crlf) (.bulk (some d)) := by
  rw [List.append_assoc _ d]
  refine decodes_of_body (line_natText _) fun f _ rest => ?_
  have hbulk := takeBulk_append d rest
  rw [← List.append_assoc] at hbulk
  simp only [decodeBody, if_neg (natText_ne_minus _), readNat_natText, Option.bind_some, hbulk]
  rfl

theorem decodes_array (h : DecodesAll resp3 b rs) :
    Decodes resp3 (42 :: natText rs.length ++ crlf ++ b) (.array rs) := by
  refine decodes_of_body (line_natText _) fun f hf rest => ?_
  simp only [decodeBody, if_neg (natText_ne_minus _), readNat_natText, Option.bind_some,
    h f hf rest]
  rfl

theorem pairUp_flat (ps : List (Reply Empty × Reply Empty)) :
    pairUp (ps.flatMap fun p => [p.1, p.2]) = ps := by
  induction ps with
  | nil => rfl
  | cons p ps ih =>
    rw [List.flatMap_cons]
    show (p.1, p.2) :: pairUp (ps.flatMap fun p => [p.1, p.2]) = p :: ps
    rw [ih]

theorem length_flat (ps : List (Reply Empty × Reply Empty)) :
    (ps.flatMap fun p => [p.1, p.2]).length = ps.length * 2 := by
  simp [List.length_flatMap]

theorem decodes_map {ps : List (Reply Empty × Reply Empty)}
    (h : DecodesAll true b (ps.flatMap fun p => [p.1, p.2])) :
    Decodes true (37 :: natText ps.length ++ crlf ++ b) (.map ps) := by
  refine decodes_of_body (line_natText _) fun f hf rest => ?_
  have hflat := h f hf rest
  rw [length_flat] at hflat
  simp only [decodeBody, readNat_natText, Option.bind_some, readMany_pairs _ hflat, pairUp_flat]
  rfl

end

theorem meaningItems_length (resp3 : Bool) (items : List (Reply Empty)) :
    (Reply.meaningItems resp3 items).length = items.length := by
  induction items with
  | nil => rfl
  | cons r rs ih => rw [Reply.meaningItems, List.length_cons, List.length_cons, ih]

theorem meaningPairs_length (resp3 : Bool) (pairs : List (Reply Empty × Reply Empty)) :
    (Reply.meaningPairs resp3 pairs).length = pairs.length := by
  induction pairs with
  | nil => rfl
  | cons p ps ih => rw [Reply.meaningPairs, List.length_cons, List.length_cons, ih]

theorem decodes_null (resp3 : Bool) :
    Decodes resp3 (if resp3 then lit "_\r\n" else lit "$-1\r\n")
      (if resp3 then .null else .bulk none) := by
  cases resp3 with
  | true => exact decodes_of_line (t := 95) (l := []) (by decide) fun _ _ => rfl
  | false => exact decodes_of_line (t := 36) (l := lit "-1") (by decide) fun _ _ => rfl

theorem decodes_nullArray (resp3 : Bool) :
    Decodes resp3 (if resp3 then lit "_\r\n" else lit "*-1\r\n")
      (if resp3 then .null else .nullArray) := by
  cases resp3 with
  | true => exact decodes_of_line (t := 95) (l := []) (by decide) fun _ _ => rfl
  | false => exact decodes_of_line (t := 42) (l := lit "-1") (by decide) fun _ _ => rfl

theorem decodes_bool (resp3 b : Bool) :
    Decodes resp3
    (if resp3 then (if b then lit "#t\r\n" else lit "#f\r\n")
      else (if b then lit ":1\r\n" else lit ":0\r\n"))
    (if resp3 then .bool b else .int (if b then 1 else 0)) := by
  cases resp3 with
  | true =>
    cases b with
    | true => exact decodes_of_line (t := 35) (l := lit "t") (by decide) fun _ _ => rfl
    | false => exact decodes_of_line (t := 35) (l := lit "f") (by decide) fun _ _ => rfl
  | false =>
    cases b with
    | true => exact decodes_int 1
    | false => exact decodes_int 0

mutual

/-- An encoded reply decodes to its meaning. -/
theorem encode_decodes (resp3 : Bool) :
    ∀ r : Reply Empty, r.Neat → Decodes resp3 (r.encode Empty.elim resp3) (r.meaning resp3)
  | .simple s, h => decodes_of_line h fun _ _ => rfl
  | .error s, h => decodes_of_line h fun _ _ => rfl
  | .int n, _ => decodes_int n
  | .bulk none, _ => decodes_null resp3
  | .bulk (some b), _ => decodes_bulk b
  | .nullArray, _ => decodes_nullArray resp3
  | .null, _ => decodes_null resp3
  | .bool b, _ => decodes_bool resp3 b
  | .array items, h => by
    have hs := decodes_array (items_decode resp3 items h)
    rwa [meaningItems_length] at hs
  | .map pairs, h => by
    have hp := pairs_decode resp3 pairs h
    cases resp3 with
    | true =>
      have hm := decodes_map hp
      rwa [meaningPairs_length] at hm
    | false =>
      have ha := decodes_array hp
      rwa [length_flat, meaningPairs_length] at ha

theorem items_decode (resp3 : Bool) : ∀ items : List (Reply Empty), Reply.NeatItems items →
    DecodesAll resp3 (Reply.encodeItems Empty.elim resp3 items) (Reply.meaningItems resp3 items)
  | [], _ => decodesAll_nil
  | r :: rs, h => .cons (encode_decodes resp3 r h.1) (items_decode resp3 rs h.2)

theorem pairs_decode (resp3 : Bool) :
    ∀ pairs : List (Reply Empty × Reply Empty), Reply.NeatPairs pairs →
    DecodesAll resp3 (Reply.encodePairs Empty.elim resp3 pairs)
      ((Reply.meaningPairs resp3 pairs).flatMap fun p => [p.1, p.2])
  | [], _ => decodesAll_nil
  | (k, v) :: ps, h => by
    rw [Reply.encodePairs, List.append_assoc, Reply.meaningPairs, List.flatMap_cons]
    exact .cons (encode_decodes resp3 k h.1)
      (.cons (encode_decodes resp3 v h.2.1) (pairs_decode resp3 ps h.2.2))

end

/-! ## Frames -/

theorem Decodes.oneFrame {resp3 : Bool} {b : Bytes} {r : Reply Empty} (h : Decodes resp3 b r) :
    OneFrame resp3 b :=
  ⟨b.length, r, h⟩

/-- **Replies are frames.** A reply whose simple strings and errors are lines is
encoded as one frame of the version it is encoded for. -/
theorem encode_oneFrame (resp3 : Bool) (r : Reply Empty) (h : r.Neat) :
    OneFrame resp3 (r.encode Empty.elim resp3) :=
  (encode_decodes resp3 r h).oneFrame

theorem simple_oneFrame (resp3 : Bool) {s : Bytes} (h : Line s) : OneFrame resp3 (writeSimple s) :=
  encode_oneFrame resp3 (.simple s) h

theorem error_oneFrame (resp3 : Bool) {s : Bytes} (h : Line s) : OneFrame resp3 (writeError s) :=
  encode_oneFrame resp3 (.error s) h

/-- An error is one frame exactly when its text is a line. -/
theorem error_oneFrame_iff (resp3 : Bool) (s : Bytes) : OneFrame resp3 (writeError s) ↔ Line s := by
  refine ⟨fun ⟨f₀, r', h⟩ => ?_, error_oneFrame resp3⟩
  by_contra hs
  have h0 := h (f₀ + 1) (Nat.le_succ _) []
  rw [List.append_nil, writeError, List.cons_append, decodeFuel] at h0
  obtain ⟨r, hr, hbody⟩ := Option.bind_eq_some_iff.1 h0
  have hrest : r.2 = [] := congrArg Prod.snd (Option.some.inj hbody)
  exact takeLine_broken hs hr hrest

theorem writeInt_oneFrame (resp3 : Bool) {n : Int} (h : InI64 n) : OneFrame resp3 (writeInt n) := by
  rw [writeInt_eq h]
  exact (decodes_int n).oneFrame

theorem writeBulk_oneFrame (resp3 : Bool) {b : Bytes} (h : b.length < 2 ^ 64) :
    OneFrame resp3 (writeBulk b) := by
  rw [writeBulk_eq h]
  exact (decodes_bulk b).oneFrame

theorem writeNull_oneFrame (resp3 : Bool) : OneFrame resp3 (writeNull resp3) :=
  (decodes_null resp3).oneFrame

/-! ## Framing -/

theorem Decodes.decode {resp3 : Bool} {b : Bytes} {r : Reply Empty} (h : Decodes resp3 b r)
    (rest : Bytes) : Resp.decode resp3 (b ++ rest) = some (r, rest) :=
  h _ (by rw [List.length_append]; omega) rest

/-- **Framing.** Every reply without a double whose simple strings and errors are lines,
nested as it may be, in both protocol versions and whatever follows: it decodes to what
it stands for, and the reader stops right behind it; so a reply that stands for
something else has another encoding, and neither is the beginning of the other. -/
theorem reply_framing (resp3 : Bool) (r : Reply Empty) (h : r.Neat) (rest : Bytes) :
    Resp.decode resp3 (r.encode Empty.elim resp3 ++ rest) = some (r.meaning resp3, rest) ∧
      ∀ (r' : Reply Empty) (rest' : Bytes), r'.Neat →
        r'.encode Empty.elim resp3 ++ rest' = r.encode Empty.elim resp3 ++ rest →
          r'.meaning resp3 = r.meaning resp3 ∧ rest' = rest := by
  have hr := (encode_decodes resp3 r h).decode rest
  refine ⟨hr, fun r' rest' h' e => ?_⟩
  have hr' := (encode_decodes resp3 r' h').decode rest'
  rw [e, hr] at hr'
  obtain ⟨e1, e2⟩ := Prod.mk.inj (Option.some.inj hr')
  exact ⟨e1.symm, e2.symm⟩

/-- A map in an array, in both versions. -/
theorem reply_framing_nested :
    let r : Reply Empty :=
      .array [.map [(.simple (lit "a"), .bool true)], .bulk none, .bulk (some (lit "\r\n"))]
    (Resp.decode true (r.encode Empty.elim true ++ lit "+OK")).map Prod.snd = some (lit "+OK") ∧
      (Resp.decode false (r.encode Empty.elim false ++ lit "+OK")).map Prod.snd =
        some (lit "+OK") := by
  intro r
  have h : r.Neat := ⟨⟨(by decide : Line (lit "a")), trivial, trivial⟩, trivial, trivial, trivial⟩
  rw [(reply_framing true r h (lit "+OK")).1, (reply_framing false r h (lit "+OK")).1]
  exact ⟨rfl, rfl⟩

end Inmem.L1.Resp
