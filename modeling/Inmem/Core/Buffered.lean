import Inmem.Core.Files

/-!
# A buffered writer on a file that is appended to

A record is logged through a writer with a buffer of `cap` bytes: it is handed over and the
buffer is flushed. If it has no room beside what is still in the buffer, that is written first; and
a
record as large as the buffer goes past it. Every system call may fail or take a part.

What the file holds followed by what is in the buffer is the log. `Room` says when a record is
certain
to get into it, and `append_spec` what is certain then: the log has grown by the
record, whatever becomes of the calls, and at every moment the file is a front part of it
(`append_ends`: that many calls suffice).
Otherwise a failure leaves the record out (`append_refuses`), or tears it (`append_tears`).
-/
namespace Inmem.Core.Buffered

open Inmem.Core.Serial Inmem.Core.Crash Inmem.Core.Files

variable {B X : Type}

/-! ## The file -/

/-- Programs that write to a file: each call is given bytes and says how many it took. -/
abbrev SinkProg (B X α : Type) := Prog (List B) (fun _ => Except (Failure X) Nat) α

/-- One call; the file was opened for appending. -/
def put : Fate X → (bytes : List B) → List B → Except (Failure X) Nat × List B
  | .fails e, _, file => (.error (.other e), file)
  | .takes n, bytes, file => (.ok (min n bytes.length), file ++ bytes.take n)

/-! ## The writer -/

/-- How a call of the writer ended, and what is in the buffer then. -/
abbrev Answer (B X : Type) := Except (Failure X) Unit × List B

/-- Write until nothing is left, or a call fails or takes nothing. -/
def drain (buffered : Bool) : Nat → List B → SinkProg B X (Answer B X)
  | _, [] => .pure (.ok (), [])
  | 0, rest => .pure (.error (.zero buffered), rest)
  | f + 1, rest => .call rest fun
    | .error e => .pure (.error e, rest)
    | .ok n =>
      if n = 0 then .pure (.error (.zero buffered), rest) else drain buffered f (rest.drop n)

def flush (buf : List B) : SinkProg B X (Answer B X) := drain true buf.length buf

/-- The buffer is flushed if it has no room for the bytes. -/
def makeRoom (cap : Nat) (buf bytes : List B) : SinkProg B X (Answer B X) :=
  if cap - buf.length < bytes.length then flush buf else .pure (.ok (), buf)

/-- Hand over all bytes. Those that go past the buffer are not kept if a call fails. -/
def writeAll (cap : Nat) (buf bytes : List B) : SinkProg B X (Answer B X) :=
  if bytes.length < cap - buf.length then .pure (.ok (), buf ++ bytes)
  else do
    let r ← makeRoom cap buf bytes
    match r with
    | (.error e, left) => pure (.error e, left)
    | (.ok (), left) =>
      if cap ≤ bytes.length then do
        let r ← (drain false bytes.length bytes : SinkProg B X (Answer B X))
        pure (r.1, left)
      else pure (.ok (), left ++ bytes)

/-- Log a record: hand it over, and flush. -/
def append (cap : Nat) (buf bytes : List B) : SinkProg B X (Answer B X) := do
  let r ← writeAll cap buf bytes
  match r with
  | (.error e, left) => pure (.error e, left)
  | (.ok (), left) => flush left

/-! ## With room -/

/-- The record has room in the buffer, and does not go past it. -/
def Room (cap : Nat) (buf bytes : List B) : Prop :=
  bytes.length < cap ∧ buf.length + bytes.length ≤ cap

instance (cap : Nat) (buf bytes : List B) : Decidable (Room cap buf bytes) :=
  inferInstanceAs (Decidable (_ ∧ _))

/-- The file holds at least `lo`, and a front part of `log`. -/
def Between (lo log file : List B) : Prop := lo <+: file ∧ file <+: log

/-- The file followed by the buffer is the log; the buffer is empty if all went well. -/
def Flushed (lo log : List B) (r : Answer B X) (file : List B) : Prop :=
  lo <+: file ∧ file ++ r.2 = log ∧ (r.1 = .ok () → r.2 = [])

variable {lo log : List B}

theorem drain_spec (buffered : Bool) (f : Nat) :
    ∀ (rest file : List B), lo <+: file → file ++ rest = log →
    Guarded put (fun _ : Fate X => True) (Between lo log) (Flushed lo log)
      (drain buffered f rest) file := by
  induction f with
  | zero =>
    intro rest file hlo hlog
    cases rest with
    | nil => exact ⟨hlo, hlog, fun _ => rfl⟩
    | cons b rest => exact ⟨hlo, hlog, fun h => by cases h⟩
  | succ f ih =>
    intro rest file hlo hlog
    cases rest with
    | nil => exact ⟨hlo, hlog, fun _ => rfl⟩
    | cons b rest =>
      refine ⟨⟨hlo, hlog ▸ List.prefix_append ..⟩, fun e _ => ?_⟩
      cases e with
      | fails e => exact ⟨hlo, hlog, fun h => by cases h⟩
      | takes n =>
        have hlo' : lo <+: file ++ (b :: rest).take n := hlo.trans (List.prefix_append ..)
        have hlog' : file ++ (b :: rest).take n ++ (b :: rest).drop (min n (b :: rest).length) =
            log := by
          rw [List.append_assoc, take_append_drop_min, hlog]
        show Guarded put _ _ _ (if min n (b :: rest).length = 0 then _ else _) _
        split
        · rename_i h0
          rw [h0] at hlog'
          exact ⟨hlo', hlog', fun h => by cases h⟩
        · exact ih _ _ hlo' hlog'

theorem writeAll_room {cap : Nat} {buf bytes : List B} (h : Room cap buf bytes) :
    (writeAll cap buf bytes : SinkProg B X (Answer B X)) = .pure (.ok (), buf ++ bytes) := by
  obtain ⟨hsmall, hroom⟩ := h
  unfold writeAll
  by_cases hspare : bytes.length < cap - buf.length
  · exact if_pos hspare
  · -- the record fills the buffer
    have hmake : (makeRoom cap buf bytes : SinkProg B X (Answer B X)) = .pure (.ok (), buf) :=
      if_neg (by omega)
    rw [if_neg hspare, hmake]
    exact if_neg (Nat.not_le.2 hsmall)

/-- What is certain of a record that has room. -/
theorem append_spec {cap : Nat} {buf bytes : List B} (h : Room cap buf bytes) (file : List B) :
    Guarded put (fun _ : Fate X => True) (Between file (file ++ (buf ++ bytes)))
      (Flushed file (file ++ (buf ++ bytes)))
      (append cap buf bytes) file := by
  rw [append, writeAll_room h]
  exact drain_spec true _ _ file List.prefix_rfl rfl

theorem drain_ends (buffered : Bool) (f : Nat) : ∀ rest file : List B,
    Ends put (fun _ : Fate X => True) f (drain buffered f rest) file := by
  induction f with
  | zero =>
    intro rest file
    cases rest <;> trivial
  | succ f ih =>
    intro rest file
    cases rest with
    | nil => trivial
    | cons b rest =>
      intro e _
      cases e with
      | fails e => exact ends_pure ..
      | takes n =>
        show Ends put _ f (if min n (b :: rest).length = 0 then _ else _) _
        split
        · exact ends_pure ..
        · exact ih ..

theorem append_ends {cap : Nat} {buf bytes : List B} (h : Room cap buf bytes) (file : List B) :
    Ends put (fun _ : Fate X => True) (buf ++ bytes).length (append cap buf bytes) file := by
  rw [append, writeAll_room h]
  exact drain_ends true _ _ file

/-! ## Without -/

theorem not_room {cap : Nat} {buf bytes : List B} (h : ¬ Room cap buf bytes) :
    buf = [] ∧ cap ≤ bytes.length ∨ buf ≠ [] ∧ cap < buf.length + bytes.length := by
  rw [Room, not_and_or, Nat.not_lt, Nat.not_le] at h
  cases buf with
  | nil =>
    rw [List.length_nil] at h
    exact .inl ⟨rfl, by omega⟩
  | cons b buf =>
    rw [List.length_cons] at h ⊢
    exact .inr ⟨List.cons_ne_nil b buf, by omega⟩

/-- A write fails: the record is left out. -/
theorem append_refuses {cap : Nat} {buf bytes : List B} (hcap : buf.length ≤ cap) (hbuf : buf ≠ [])
    (h : cap < buf.length + bytes.length) (e : X) (file : List B) :
    alone put [.fails e] (append cap buf bytes) file = (.pure (.error (.other e), buf), file) := by
  have hspare : ¬ bytes.length < cap - buf.length := by omega
  have hmake : (makeRoom cap buf bytes : SinkProg B X (Answer B X)) = flush buf := if_pos (by omega)
  rw [append, writeAll, if_neg hspare, hmake]
  obtain ⟨b, t, rfl⟩ := List.exists_cons_of_ne_nil hbuf
  rfl

/-- A write takes a part of a record that goes past the buffer, and the next one fails: the part
stays in the file, and the rest is left out. -/
theorem append_tears {cap : Nat} {bytes : List B} (h : cap ≤ bytes.length) {n : Nat} (h0 : 0 < n)
    (hn : n < bytes.length) (e : X) (file : List B) :
    alone put [.takes n, .fails e] (append cap [] bytes) file =
      (.pure (.error (.other e), []), file ++ bytes.take n) := by
  have hspare : ¬ bytes.length < cap - ([] : List B).length := Nat.not_lt.2 h
  have hmake : (makeRoom cap [] bytes : SinkProg B X (Answer B X)) = .pure (.ok (), []) := by
    unfold makeRoom
    split <;> rfl
  obtain ⟨b, t, rfl⟩ : ∃ b t, bytes = b :: t := List.exists_cons_of_ne_nil fun hnil => by
    rw [hnil] at hn
    cases hn
  obtain ⟨f, hf⟩ : ∃ f, t.length = f + 1 := ⟨t.length - 1, by rw [List.length_cons] at hn; omega⟩
  rw [List.length_cons, hf] at h hn
  have hmin : min n (f + 1 + 1) = n := Nat.min_eq_left (Nat.le_of_lt hn)
  -- the second call is given what the first has left
  obtain ⟨b', t', hrest⟩ : ∃ b' t', (b :: t).drop n = b' :: t' :=
    List.exists_cons_of_ne_nil fun hnil => by
      have := List.drop_eq_nil_iff.1 hnil
      rw [List.length_cons] at this
      omega
  rw [append, writeAll, if_neg hspare, hmake, Prog.pure_bind]
  simp only [List.length_cons, hf, if_pos h, drain, Prog.pure_eq, Prog.call_bind, Prog.pure_bind,
    alone, List.foldl_cons, List.foldl_nil, advance, put, hmin, if_neg (Nat.ne_of_gt h0), hrest]

end Inmem.Core.Buffered
