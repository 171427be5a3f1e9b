import Inmem.L4App.Deadlines

/-!
# Two ways to set a value with a deadline

`SETEX k n v` and `SET k v EX n`, and `PSETEX` and `SET PX` for milliseconds, are written
separately. Both parse `n` as an `i64` and add it to the clock, but only the first pair
refuses an `n` that is not positive.

* `setex_exec`, `set_exec`: what the two do, for any argument.
* `setex_agrees_iff`: they agree unless `n` is a number that is not positive.
-/
namespace Inmem.L4

open Inmem.Core Inmem.L1 Inmem.L1.Resp Inmem.L3

section
variable {σ : Type} [Score σ]

/-- The units of the two pairs of commands, in milliseconds. -/
def unitOf (ms : Bool) : Nat := if ms then 1 else 1000

def setexName (ms : Bool) : Bytes := if ms then lit "PSETEX" else lit "SETEX"

def setWord (ms : Bool) : Bytes := if ms then lit "PX" else lit "EX"

/-- Reading the clock and setting the value with the deadline. -/
def setBy (E : Surroundings) (k v : Bytes) (m : Int) (ms : Bool) (s : Sys σ) : Sys σ :=
  (Sys.call E (.key k (.set v { expireAt := some (deadlineAfter (E.clock s.tick) m (unitOf ms)) }))
    ⟨s.world, s.tick + 1⟩).2

/-- What `SETEX` or `PSETEX` does. -/
theorem setex_exec (cfg : Config) (st : ConnState) (E : Surroundings) (s : Sys σ) (k n v : Bytes)
    (ms : Bool) :
    s.exec E (dispatch cfg st (setexName ms) [k, n, v]) =
      (parseI64 n).elim ((notInteger, st), s) fun m =>
      if m ≤ 0 then ((.r (err (lit "invalid expire time")), st), s)
      else ((.w .ok, st), setBy E k v m ms s) := by
  have hprog : (dispatch cfg st (setexName ms) [k, n, v] : Cmd σ _) =
      keep st (setexCmd [k, n, v] ms) := by
    have hname : CmdName.ofName (upperName (setexName ms)) =
        some (if ms then .psetex else .setex) := by
      revert ms
      decide
    rw [dispatch, hname]
    cases ms <;> rfl
  rw [hprog, keep, setexCmd]
  cases parseI64 n with
  | none => rfl
  | some m =>
    rw [Option.elim_some]
    dsimp only
    split
    · rfl
    · rw [Prog.bind_assoc, exec_now, Prog.bind_assoc, exec_key]
      cases ms <;> rfl

/-- The options of `SET` with one of the two words. -/
theorem setOptions_word (now : Nat) (n : Bytes) (ms : Bool) :
    setOptions now [setWord ms, n] {} false =
    (parseI64 n).elim (.error notInteger) fun m => .ok
      ({ expireAt := some (deadlineAfter now m (unitOf ms)) }, false) := by
  have hplain : plainWord (optionWord (setWord ms)) {} false = none := by
    revert ms
    decide
  have hword : expiryWord (optionWord (setWord ms)) = some (unitOf ms, false) := by
    revert ms
    decide
  rw [setOptions_cons, optionRound, hplain, hword]
  rfl

/-- What `SET` with one of the two words does. -/
theorem set_exec (cfg : Config) (st : ConnState) (E : Surroundings) (s : Sys σ) (k n v : Bytes)
    (ms : Bool) :
    s.exec E (dispatch cfg st (lit "SET") [k, v, setWord ms, n]) =
      (parseI64 n).elim ((notInteger, st), ⟨s.world, s.tick + 1⟩) fun m => ((.w .ok, st),
        setBy E k v m ms s) := by
  have hprog : (dispatch cfg st (lit "SET") [k, v, setWord ms, n] : Cmd σ _) =
      keep st (setCmd [k, v, setWord ms, n]) := by
    have hname : CmdName.ofName (upperName (lit "SET")) = some .set := by decide
    rw [dispatch, hname]
    rfl
  rw [hprog, keep, setCmd, Prog.bind_assoc, exec_now, setOptions_word]
  cases parseI64 n with
  | none => rfl
  | some m =>
    dsimp only [Option.elim_some]
    rw [setWith, if_neg Bool.false_ne_true, Prog.bind_assoc, exec_key, set_did]
    rfl

/-- Two commands both fail and change nothing, or both succeed with the same reply, the
same flag and the same store. -/
def SameOutcome (s : Sys σ) (a b : (Outcome × ConnState) × Sys σ) : Prop :=
  (∃ e e', a.1.1.reply = .error e ∧ b.1.1.reply = .error e' ∧ a.2.world = s.world ∧
    b.2.world = s.world) ∨
    ((∀ e, a.1.1.reply ≠ .error e) ∧ a.1.1.reply = b.1.1.reply ∧ a.1.1.persist = b.1.1.persist ∧
      a.2.world = b.2.world)

/-- **SETEX and SET EX.** On every store, at every clock and for any bytes as the time:
`SETEX k n v` and `SET k v EX n` agree, and so do `PSETEX` and `SET PX`, if and only if `n` is
not a number or a positive one. -/
theorem setex_agrees_iff (cfg : Config) (st : ConnState) (E : Surroundings) (s : Sys σ)
    (k n v : Bytes) (ms : Bool) :
    SameOutcome s (s.exec E (dispatch cfg st (setexName ms) [k, n, v]))
      (s.exec E (dispatch cfg st (lit "SET") [k, v, setWord ms, n])) ↔
      ∀ m, parseI64 n = some m → 0 < m := by
  rw [setex_exec, set_exec]
  cases parseI64 n with
  | none => exact iff_of_true (.inl ⟨_, _, rfl, rfl, rfl, rfl⟩) fun m hm => by cases hm
  | some m =>
    dsimp only [Option.elim_some]
    by_cases hm : m ≤ 0
    · rw [if_pos hm]
      refine iff_of_false (fun h => ?_) fun h => absurd (h m rfl) (by omega)
      rcases h with ⟨e, e', -, he, -⟩ | ⟨hok, -⟩
      · cases he
      · exact hok _ rfl
    · rw [if_neg hm]
      refine iff_of_true (.inr ⟨fun e he => ?_, rfl, rfl, rfl⟩) fun m' hm' => ?_
      · cases he
      · cases hm'
        omega

end

/-- Zero: `SETEX` refuses it, `SET EX` stores a value that has expired. -/
theorem setex_zero_differs :
    encodeReply false (ranAt 1000 (lit "SETEX") [lit "k", lit "0", lit "v"] emptySys).1.1.reply =
        lit "-ERR invalid expire time\r\n" ∧
      encodeReply false
        (ranAt 1000 (lit "SET") [lit "k", lit "v", lit "EX", lit "0"] emptySys).1.1.reply =
          lit "+OK\r\n" ∧
      (ranAt 1000 (lit "SET") [lit "k", lit "v", lit "EX", lit "0"] emptySys).1.1.persist = true ∧
      (ranAt 1000 (lit "SET") [lit "k", lit "v", lit "EX", lit "0"] emptySys).2.raw (lit "k") =
        some ⟨.str (lit "v"), some 1000⟩ := by
  decide +kernel

end Inmem.L4
