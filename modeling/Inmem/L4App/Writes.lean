import Inmem.L3Store.KeyOps
import Inmem.L4App.Conn

/-!
# What a command writes

Of the commands the dispatcher knows, some thirty can change the keyspace.
`Write` says what such a command asks of the store, with its arguments parsed;
`writeCmd` reads it off the argument vector. `Write.prog` is the command with
its reply left out: the calls it makes, and whether the server logs it.

* `dispatch_runs`: the dispatcher runs exactly `Write.prog`, and a command with
  no `Write` only reads and is not logged;
* `serveCmd_runs`: the same for the connection loop, whose fast path leaves out
  the clock reading of a plain `SET`.
-/
namespace Inmem.L4

open Inmem.Core Inmem.L1 Inmem.L1.Resp Inmem.L3

section
variable {σ : Type}

/-! ## Writes -/

/-- A command that can change the keyspace. -/
inductive Write (σ : Type)
  | flush
  /-- `SET` with the words after the value -/
  | set (k v : Bytes) (opts : List Bytes)
  /-- `SETEX` and `PSETEX` with a positive amount -/
  | setex (k v : Bytes) (n : Int) (unit : Nat)
  | getset (k v : Bytes)
  | mset (pairs : List (Bytes × Bytes))
  | del (ks : List Bytes)
  /-- a command that runs one operation on one key -/
  | one (k : Bytes) (op : KeyOp σ) (h : op.modifies = true)
  | expire (k : Bytes) (n : Int) (unit : Nat) (absolute : Bool) (flag : Option Bytes)
  | persist (k : Bytes)

/-- The loop of `MSET` over pairs. -/
def setPairs : List (Bytes × Bytes) → Cmd σ Unit
  | [] => return ()
  | (k, v) :: rest => do
    let _ ← onKey k (.set v {})
    setPairs rest

theorem msetLoop_pairs : ∀ args : List Bytes, (msetLoop args : Cmd σ Unit) = setPairs (pairsOf args)
  | [] => rfl
  | [_] => rfl
  | k :: v :: rest => by
    simp only [msetLoop, pairsOf, setPairs, onKey, Prog.call_bind, Prog.pure_bind,
      msetLoop_pairs rest]

/-- Read the string if asked to, then set the key. -/
def Write.setTail (k v : Bytes) (opts : SetOptions) (get : Bool) : Cmd σ Bool :=
  if get then do
    let old ← onKey k .get
    if old.isOk then onKey k (.set v opts) else return false
  else onKey k (.set v opts)

/-- The part of `EXPIRE` after the key was found. -/
def Write.expireTail (k : Bytes) (n : Int) (unit : Nat) (absolute : Bool) (flag : Option Bytes) :
    Cmd σ Bool := do
  let now ← ask .nowMs
  let newAt := deadlineAfter (if absolute then 0 else now) n unit
  match flag with
  | none => do
    let _ ← onKey k (.expireAt (some newAt))
    return true
  | some flag => do
    let cur ← onKey k .pttl
    if expireAllowed flag cur now newAt = some true then do
      let _ ← onKey k (.expireAt (some newAt))
      return true
    else return false

/-- The command without its reply: whether it is logged. -/
def Write.prog : Write σ → Cmd σ Bool
  | .flush => do
    let _ ← ask .flushAll
    return true
  | .set k v words => do
    let now ← ask .nowMs
    match setOptions now words {} false with
    | .error _ => return false
    | .ok (opts, get) => Write.setTail k v opts get
  | .setex k v n unit => do
    let now ← ask .nowMs
    let _ ← onKey k (.set v { expireAt := some (deadlineAfter now n unit) })
    return true
  | .getset k v => do
    let old ← onKey k .get
    if old.isOk then do
      let _ ← onKey k (.set v {})
      return true
    else return false
  | .mset pairs => do
    setPairs pairs
    return true
  | .del ks => do
    let n ← countKeys .del id ks
    return 0 < n
  | .one k op _ => do
    let a ← onKey k op
    return op.dirty a
  | .expire k n unit absolute flag => do
    let live ← onKey k .exists
    if live then Write.expireTail k n unit absolute flag else return false
  | .persist k => do
    let cur ← onKey k .pttl
    match cur with
    | .millis _ => do
      let _ ← onKey k (.expireAt none)
      return true
    | _ => return false

end

section
variable {σ : Type}

/-- The arguments of `INCR` and its relatives. -/
def incrWrite (name : Bytes) (args : List Bytes) (fixed : Int) (by_ : Bool) : Option (Write σ) :=
  match by_, args with
  | true, [k, d] =>
    (parseI64 d).bind fun d =>
      if eqCi name (lit "decrby") then (if InI64 (-d) then some (.one k (.incrBy (-d)) rfl)
        else none)
      else some (.one k (.incrBy d) rfl)
  | false, [k] => some (.one k (.incrBy fixed) rfl)
  | _, _ => none

/-- The arguments of `LPOP` and `RPOP`. -/
def popWrite (args : List Bytes) (left : Bool) : Option (Write σ) :=
  match args with
  | [k] => some (.one k (.pop 1 left) rfl)
  | [k, c] =>
    (parseI64 c).bind fun c => if 0 ≤ c then some (.one k (.pop c.toNat left) rfl) else none
  | _ => none

/-- The arguments of `EXPIRE` and its relatives. -/
def expireWrite (args : List Bytes) (unit : Nat) (absolute : Bool) : Option (Write σ) :=
  match args with
  | k :: n :: rest => (parseI64 n).map fun n => .expire k n unit absolute rest.head?
  | _ => none

def setexWrite (args : List Bytes) (ms : Bool) : Option (Write σ) :=
  match args with
  | [k, n, v] =>
    (parseI64 n).bind fun n => if n ≤ 0 then none else some (.setex k v n (if ms then 1 else 1000))
  | _ => none

/-- A command with a key and at least one more argument. -/
def restWrite (args : List Bytes) (op : List Bytes → KeyOp σ) (h : ∀ l, (op l).modifies = true) :
    Option (Write σ) :=
  match args with
  | k :: m :: ms => some (.one k (op (m :: ms)) (h _))
  | _ => none

/-- The arguments of `HSET` and `HMSET`. -/
def hsetWrite (args : List Bytes) : Option (Write σ) :=
  match args with
  | k :: rest =>
    if rest.length < 2 ∨ rest.length % 2 = 1 then none else some (.one k (.hset (pairsOf rest)) rfl)
  | [] => none

/-- The arguments of `ZADD`. -/
def zaddWrite [Score σ] (args : List Bytes) : Option (Write σ) :=
  match args with
  | k :: rest =>
    if rest.length < 2 ∨ rest.length % 2 = 1 then none
    else (zaddPairs rest).map fun pairs => .one k (.zadd pairs) rfl
  | [] => none

/-- What a command of this name writes, if it does. -/
def writeOf [Score σ] (name : Bytes) (args : List Bytes) : CmdName → Option (Write σ)
  | .flushall | .flushdb => some .flush
  | .set => match args with | k :: v :: words => some (.set k v words) | _ => none
  | .getset => match args with | [k, v] => some (.getset k v) | _ => none
  | .setnx => match args with | [k, v] => some (.one k (.set v { nx := true }) rfl) | _ => none
  | .setex => setexWrite args false
  | .psetex => setexWrite args true
  | .mset => if args.length < 2 ∨ args.length % 2 = 1 then none else some (.mset (pairsOf args))
  | .append => match args with | [k, v] => some (.one k (.append v) rfl) | _ => none
  | .incr => incrWrite name args 1 false
  | .decr => incrWrite name args (-1) false
  | .incrby | .decrby => incrWrite name args 0 true
  | .lpush => restWrite args (.push · true) fun _ => rfl
  | .rpush => restWrite args (.push · false) fun _ => rfl
  | .lpop => popWrite args true
  | .rpop => popWrite args false
  | .hset | .hmset => hsetWrite args
  | .hdel => restWrite args .hdel fun _ => rfl
  | .sadd => restWrite args .sadd fun _ => rfl
  | .srem => restWrite args .srem fun _ => rfl
  | .zadd => zaddWrite args
  | .zrem => restWrite args .zrem fun _ => rfl
  | .del | .unlink => match args with | [] => none | ks => some (.del ks)
  | .expire => expireWrite args 1000 false
  | .pexpire => expireWrite args 1 false
  | .expireat => expireWrite args 1000 true
  | .pexpireat => expireWrite args 1 true
  | .persist => match args with | [k] => some (.persist k) | _ => none
  | _ => none

/-- What a command writes, if it does. -/
def writeCmd [Score σ] (name : Bytes) (args : List Bytes) : Option (Write σ) :=
  (CmdName.ofName (upperName name)).bind (writeOf name args)

/-! ## The dispatcher runs its write -/

/-- A program with what it returns reduced to a flag. -/
def flagged {α : Type} (p : Cmd σ α) (flag : α → Bool) : Cmd σ Bool := p >>= fun a => return flag a

/-- What is known of a program, given what its command writes. -/
def Runs {α : Type} (p : Cmd σ α) (flag : α → Bool) : Option (Write σ) → Prop
  | some w => flagged p flag = w.prog
  | none => p.All (fun c => c.isRead = true) fun a => flag a = false

theorem setOptions_error (now : Nat) (args : List Bytes) (opts : SetOptions) (get : Bool)
    {o : Outcome} (h : setOptions now args opts get = .error o) : o.persist = false := by
  fun_induction setOptions now args opts get <;>
    first | (cases h; rfl) | cases h | (rename_i ih; exact ih h)

theorem setCmd_runs (args : List Bytes) : Runs (setCmd args : Cmd σ Outcome) Outcome.persist
    (match args with | k :: v :: words => some (.set k v words) | _ => none) := by
  match args with
  | [] => exact rfl
  | [_] => exact rfl
  | k :: v :: words =>
    simp only [Runs, flagged, setCmd, Write.prog, ask, Prog.call_bind, Prog.pure_bind]
    congr 1
    funext now
    cases h : setOptions now words {} false with
    | error o => exact congrArg Prog.pure (setOptions_error now words {} false h)
    | ok r =>
      obtain ⟨opts, get⟩ := r
      cases get with
      | false => rfl
      | true =>
        simp only [setWith, Write.setTail, if_true, onKey, Prog.call_bind, Prog.pure_bind]
        congr 1
        funext old
        cases old <;> rfl

theorem getsetCmd_runs (k v : Bytes) :
    Runs (getsetCmd k v : Cmd σ Outcome) Outcome.persist (some (.getset k v)) := by
  simp only [Runs, flagged, getsetCmd, Write.prog, onKey, Prog.call_bind, Prog.pure_bind]
  congr 1
  funext old
  cases old <;> rfl

theorem setexCmd_runs (args : List Bytes) (ms : Bool) :
    Runs (setexCmd args ms : Cmd σ Outcome) Outcome.persist (setexWrite args ms) := by
  match args with
  | [] | [_] | [_, _] | _ :: _ :: _ :: _ :: _ => exact rfl
  | [k, n, v] =>
    simp only [setexCmd, setexWrite]
    cases parseI64 n with
    | none => exact rfl
    | some n =>
      by_cases h : n ≤ 0
      · simp only [h, if_true, Option.bind_some]; exact rfl
      · simp only [h, if_false, Option.bind_some]; exact rfl

theorem msetCmd_runs (args : List Bytes) : Runs (msetCmd args : Cmd σ Outcome) Outcome.persist
    (if args.length < 2 ∨ args.length % 2 = 1 then none else some (.mset (pairsOf args))) := by
  unfold msetCmd
  by_cases h : args.length < 2 ∨ args.length % 2 = 1
  · rw [if_pos h, if_pos h]; exact rfl
  · rw [if_neg h, if_neg h]
    show flagged _ _ = Write.prog _
    simp only [flagged, Write.prog, msetLoop_pairs, Prog.bind_assoc]
    rfl

/-- A command that makes one modifying call. -/
theorem one_runs (k : Bytes) (op : KeyOp σ) (h : op.modifies = true) (reply : op.Res → Outcome)
    (hr : ∀ a, (reply a).persist = op.dirty a) :
    Runs (onKey k op >>= fun a => return reply a) Outcome.persist (some (.one k op h)) := by
  simp only [Runs, flagged, Write.prog, onKey, Prog.call_bind, Prog.pure_bind, Prog.pure_eq]
  exact congrArg _ (funext fun a => congrArg Prog.pure (hr a))

theorem orErr_isOk {α : Type} (res : Except StoreErr α) (ok : α → Outcome)
    (h : ∀ a, (ok a).persist = true) : (orErr res ok).persist = res.isOk := by
  cases res with
  | ok a => exact h a
  | error e => rfl

theorem incrCmd_runs (name : Bytes) (args : List Bytes) (fixed : Int) (by_ : Bool) :
    Runs (incrCmd name args fixed by_ : Cmd σ Outcome) Outcome.persist
      (incrWrite name args fixed by_) := by
  have key : ∀ k d, Runs (incrKey k d : Cmd σ Outcome) Outcome.persist
      (some (.one k (.incrBy d) rfl)) :=
    fun k d => one_runs k (.incrBy d) rfl _ fun a => orErr_isOk a _ fun _ => rfl
  cases by_ with
  | true =>
    match args with
    | [] => exact rfl
    | [_] => exact rfl
    | [k, d] =>
      simp only [incrCmd, incrWrite, if_true]
      cases parseI64 d with
      | none => exact rfl
      | some d =>
        simp only [Option.bind_some]
        by_cases h1 : eqCi name (lit "decrby") = true
        · by_cases h2 : InI64 (-d)
          · simp only [h1, h2, if_true]; exact key k (-d)
          · simp only [h1, h2, if_true, if_false]; exact rfl
        · simp only [h1]; exact key k d
    | _ :: _ :: _ :: _ => exact rfl
  | false =>
    match args with
    | [] => exact rfl
    | [k] => exact key k fixed
    | _ :: _ :: _ => exact rfl

theorem pushCmd_runs (args : List Bytes) (left : Bool) :
    Runs (pushCmd args left : Cmd σ Outcome) Outcome.persist
      (restWrite args (.push · left) fun _ => rfl) := by
  match args with
  | [] => exact rfl
  | [_] => exact rfl
  | k :: v :: vs =>
    exact one_runs k (.push (v :: vs) left) rfl _ fun a => orErr_isOk a _ fun _ => rfl

theorem popCmd_runs (args : List Bytes) (left : Bool) :
    Runs (popCmd args left : Cmd σ Outcome) Outcome.persist (popWrite args left) := by
  have key : ∀ k n c,
      Runs (onKey k (.pop n left) >>= fun res => return orErr res (popReply c) : Cmd σ Outcome)
      Outcome.persist (some (.one k (.pop n left) rfl)) :=
    fun k n c => one_runs k (.pop n left) rfl _ fun a => by cases a <;> rfl
  match args with
  | [] => exact rfl
  | [k] => exact key k 1 false
  | [k, c] =>
    simp only [popCmd, popWrite]
    cases parseI64 c with
    | none => exact rfl
    | some c =>
      by_cases h : 0 ≤ c
      · simp only [h, if_true, Option.bind_some]; exact key k c.toNat true
      · simp only [h, if_false, Option.bind_some]; exact rfl
  | _ :: _ :: _ :: _ => exact rfl

theorem hsetCmd_runs (args : List Bytes) (hmset : Bool) :
    Runs (hsetCmd args hmset : Cmd σ Outcome) Outcome.persist (hsetWrite args) := by
  match args with
  | [] => exact rfl
  | k :: rest =>
    simp only [hsetCmd, hsetWrite]
    by_cases h : rest.length < 2 ∨ rest.length % 2 = 1
    · rw [if_pos h, if_pos h]; exact rfl
    · rw [if_neg h, if_neg h]
      exact one_runs k (.hset (pairsOf rest)) rfl _ fun a => orErr_isOk a _ fun _ => rfl

theorem zaddCmd_runs [Score σ] (args : List Bytes) :
    Runs (zaddCmd args : Cmd σ Outcome) Outcome.persist (zaddWrite args) := by
  match args with
  | [] => exact rfl
  | k :: rest =>
    simp only [zaddCmd, zaddWrite]
    by_cases h : rest.length < 2 ∨ rest.length % 2 = 1
    · rw [if_pos h, if_pos h]; exact rfl
    · rw [if_neg h, if_neg h]
      cases (zaddPairs rest : Option (List (σ × Bytes))) with
      | none => exact rfl
      | some pairs => exact one_runs k (.zadd pairs) rfl _ fun a => orErr_isOk a _ fun _ => rfl

theorem expireCmd_runs (args : List Bytes) (unit : Nat) (absolute : Bool) :
    Runs (expireCmd args unit absolute : Cmd σ Outcome) Outcome.persist
      (expireWrite args unit absolute) := by
  match args with
  | [] => exact rfl
  | [_] => exact rfl
  | k :: n :: rest =>
    simp only [expireCmd, expireWrite]
    cases parseI64 n with
    | none => exact rfl
    | some n =>
      simp only [Option.map_some, Runs, flagged, Write.prog, onKey, Prog.call_bind, Prog.pure_bind]
      congr 1
      funext live
      cases live with
      | false => rfl
      | true =>
        simp only [Bool.not_true, Bool.false_eq_true, if_false, if_true, Write.expireTail, ask,
          Prog.call_bind, Prog.pure_bind]
        congr 1
        funext now
        cases rest with
        | nil => rfl
        | cons flag rest =>
          simp only [List.head?_cons, onKey, Prog.call_bind, Prog.pure_bind]
          congr 1
          funext cur
          rcases expireAllowed flag cur now _ with _ | _ | _ <;> rfl

theorem persistCmd_runs (k : Bytes) :
    Runs (persistCmd k : Cmd σ Outcome) Outcome.persist (some (.persist k)) := by
  simp only [Runs, flagged, persistCmd, Write.prog, onKey, Prog.call_bind, Prog.pure_bind]
  congr 1
  funext cur
  cases cur <;> rfl

/-- A program that only reads. -/
abbrev Quiet {α : Type} (p : Cmd σ α) (Q : α → Prop) : Prop := p.All (fun c => c.isRead = true) Q

theorem mgetLoop_quiet (ks : List Bytes) : Quiet (mgetLoop ks : Cmd σ _) fun _ => True := by
  induction ks with
  | nil => trivial
  | cons k ks ih => exact ⟨rfl, fun _ => ih.bind fun _ _ => trivial⟩

theorem hmgetLoop_quiet (k : Bytes) (fs : List Bytes) :
    Quiet (hmgetLoop k fs : Cmd σ _) fun _ => True := by
  induction fs with
  | nil => trivial
  | cons f fs ih => exact ⟨rfl, fun _ => ih.bind fun _ _ => trivial⟩

theorem countExists_quiet (ks : List Bytes) :
    Quiet (countKeys .exists id ks : Cmd σ Nat) fun _ => True := by
  induction ks with
  | nil => trivial
  | cons k ks ih => exact ⟨rfl, fun _ => ih.bind fun _ _ => trivial⟩

theorem orErr_quiet {α : Type} (res : Except StoreErr α) (ok : α → Outcome)
    (h : ∀ a, (ok a).persist = false) : (orErr res ok).persist = false := by
  cases res with
  | ok a => exact h a
  | error e => rfl

theorem one_quiet (k : Bytes) (op : KeyOp σ) (h : op.isRead = true) (reply : op.Res → Outcome)
    (hr : ∀ a, (reply a).persist = false) :
    Quiet (onKey k op >>= fun a => return reply a) fun o => o.persist = false :=
  ⟨h, hr⟩

theorem commandMeta_quiet (args : List Bytes) : (commandMeta args).persist = false := by
  unfold commandMeta
  split
  · split <;> rfl
  · rfl

theorem configCmd_quiet (cfg : Config) (args : List Bytes) :
    (configCmd cfg args).persist = false := by
  unfold configCmd
  split
  · split <;> rfl
  · rfl

theorem lrangeCmd_quiet (k start stop : Bytes) :
    Quiet (lrangeCmd k start stop : Cmd σ Outcome) fun o => o.persist = false := by
  unfold lrangeCmd
  split
  · exact one_quiet k _ rfl _ fun a => orErr_quiet a _ fun _ => rfl
  · exact rfl

theorem zrangeCmd_quiet [Score σ] (k start stop : Bytes) (rest : List Bytes) :
    Quiet (zrangeCmd k start stop rest : Cmd σ Outcome) fun o => o.persist = false := by
  unfold zrangeCmd
  split
  · exact one_quiet k _ rfl _ fun a => orErr_quiet a _ fun _ => rfl
  · exact rfl

/-- The dispatcher's store commands run the write they stand for. -/
theorem storeCmd_runs [Score σ] (cfg : Config) (st : ConnState) (name : Bytes) (args : List Bytes)
    (c : CmdName) :
    Runs (storeCmd cfg st name args c : Cmd σ Outcome) Outcome.persist (writeOf name args c) := by
  cases c with
  | flushall | flushdb => rfl
  | set => exact setCmd_runs args
  | getset =>
    match args with
    | [k, v] => exact getsetCmd_runs k v
    | [] | [_] | _ :: _ :: _ :: _ => rfl
  | setnx =>
    match args with
    | [k, v] => exact one_runs k (.set v { nx := true }) rfl _ fun _ => rfl
    | [] | [_] | _ :: _ :: _ :: _ => rfl
  | setex => exact setexCmd_runs args false
  | psetex => exact setexCmd_runs args true
  | mset => exact msetCmd_runs args
  | append =>
    match args with
    | [k, v] => exact one_runs k (.append v) rfl _ fun a => orErr_isOk a _ fun _ => rfl
    | [] | [_] | _ :: _ :: _ :: _ => rfl
  | incr => exact incrCmd_runs name args 1 false
  | decr => exact incrCmd_runs name args (-1) false
  | incrby | decrby => exact incrCmd_runs name args 0 true
  | lpush => exact pushCmd_runs args true
  | rpush => exact pushCmd_runs args false
  | lpop => exact popCmd_runs args true
  | rpop => exact popCmd_runs args false
  | hset => exact hsetCmd_runs args false
  | hmset => exact hsetCmd_runs args true
  | hdel =>
    match args with
    | k :: m :: ms => exact one_runs k (.hdel (m :: ms)) rfl _ fun a => by cases a <;> rfl
    | [] | [_] => rfl
  | sadd =>
    match args with
    | k :: m :: ms => exact one_runs k (.sadd (m :: ms)) rfl _ fun a => by cases a <;> rfl
    | [] | [_] => rfl
  | srem =>
    match args with
    | k :: m :: ms => exact one_runs k (.srem (m :: ms)) rfl _ fun a => by cases a <;> rfl
    | [] | [_] => rfl
  | zadd => exact zaddCmd_runs args
  | zrem =>
    match args with
    | k :: m :: ms => exact one_runs k (.zrem (m :: ms)) rfl _ fun a => by cases a <;> rfl
    | [] | [_] => rfl
  | del | unlink =>
    match args with
    | [] => rfl
    | k :: ks => exact (Prog.bind_assoc _ _ _).trans rfl
  | expire => exact expireCmd_runs args 1000 false
  | pexpire => exact expireCmd_runs args 1 false
  | expireat => exact expireCmd_runs args 1000 true
  | pexpireat => exact expireCmd_runs args 1 true
  | persist =>
    match args with
    | [k] => exact persistCmd_runs k
    | [] | _ :: _ :: _ => rfl
  -- from here on the commands that only read
  | ping =>
    match args with
    | [] | [_] | _ :: _ :: _ => rfl
  | echo =>
    match args with
    | [] | [_] | _ :: _ :: _ => rfl
  | quit | select | hello | auth | client => rfl
  | command => exact commandMeta_quiet args
  | config => exact configCmd_quiet cfg args
  | info => exact ⟨rfl, fun _ => ⟨rfl, fun _ => rfl⟩⟩
  | dbsize => exact ⟨rfl, fun _ => rfl⟩
  | get =>
    match args with
    | [k] => exact one_quiet k .get rfl _ fun a => orErr_quiet a _ fun _ => rfl
    | [] | _ :: _ :: _ => rfl
  | mget =>
    match args with
    | [] => rfl
    | k :: ks => exact (mgetLoop_quiet (k :: ks)).bind fun _ _ => rfl
  | strlen =>
    match args with
    | [k] => exact one_quiet k .strlen rfl _ fun a => orErr_quiet a _ fun _ => rfl
    | [] | _ :: _ :: _ => rfl
  | llen =>
    match args with
    | [k] => exact one_quiet k .llen rfl _ fun a => orErr_quiet a _ fun _ => rfl
    | [] | _ :: _ :: _ => rfl
  | lrange =>
    match args with
    | [k, start, stop] => exact lrangeCmd_quiet k start stop
    | [] | [_] | [_, _] | _ :: _ :: _ :: _ :: _ => rfl
  | hget =>
    match args with
    | [k, f] => exact one_quiet k (.hget f) rfl _ fun a => orErr_quiet a _ fun _ => rfl
    | [] | [_] | _ :: _ :: _ :: _ => rfl
  | hlen =>
    match args with
    | [k] => exact one_quiet k .hlen rfl _ fun a => orErr_quiet a _ fun _ => rfl
    | [] | _ :: _ :: _ => rfl
  | hexists =>
    match args with
    | [k, f] => exact one_quiet k (.hget f) rfl _ fun a => orErr_quiet a _ fun _ => rfl
    | [] | [_] | _ :: _ :: _ :: _ => rfl
  | hgetall =>
    match args with
    | [k] => exact one_quiet k .hgetall rfl _ fun a => orErr_quiet a _ fun _ => by split <;> rfl
    | [] | _ :: _ :: _ => rfl
  | hkeys =>
    match args with
    | [k] => exact one_quiet k .hgetall rfl _ fun a => orErr_quiet a _ fun _ => rfl
    | [] | _ :: _ :: _ => rfl
  | hvals =>
    match args with
    | [k] => exact one_quiet k .hgetall rfl _ fun a => orErr_quiet a _ fun _ => rfl
    | [] | _ :: _ :: _ => rfl
  | hmget =>
    match args with
    | k :: f :: fs => exact (hmgetLoop_quiet k (f :: fs)).bind fun _ _ => rfl
    | [] | [_] => rfl
  | sismember =>
    match args with
    | [k, m] => exact one_quiet k (.sismember m) rfl _ fun a => orErr_quiet a _ fun _ => rfl
    | [] | [_] | _ :: _ :: _ :: _ => rfl
  | scard =>
    match args with
    | [k] => exact one_quiet k .scard rfl _ fun a => orErr_quiet a _ fun _ => rfl
    | [] | _ :: _ :: _ => rfl
  | smembers =>
    match args with
    | [k] => exact one_quiet k .smembers rfl _ fun a => orErr_quiet a _ fun _ => rfl
    | [] | _ :: _ :: _ => rfl
  | zscore =>
    match args with
    | [k, m] => exact one_quiet k (.zscore m) rfl _ fun a => orErr_quiet a _ fun _ => rfl
    | [] | [_] | _ :: _ :: _ :: _ => rfl
  | zcard =>
    match args with
    | [k] => exact one_quiet k .zcard rfl _ fun a => orErr_quiet a _ fun _ => rfl
    | [] | _ :: _ :: _ => rfl
  | zrange =>
    match args with
    | k :: start :: stop :: rest => exact zrangeCmd_quiet k start stop rest
    | [] | [_] | [_, _] => rfl
  | «exists» =>
    match args with
    | [] => rfl
    | k :: ks => exact (countExists_quiet (k :: ks)).bind fun _ _ => rfl
  | type =>
    match args with
    | [k] => exact one_quiet k .typeOf rfl _ fun a => rfl
    | [] | _ :: _ :: _ => rfl
  | ttl =>
    match args with
    | [k] => exact one_quiet k .pttl rfl _ fun a => rfl
    | [] | _ :: _ :: _ => rfl
  | pttl =>
    match args with
    | [k] => exact one_quiet k .pttl rfl _ fun a => rfl
    | [] | _ :: _ :: _ => rfl
  | keys =>
    match args with
    | [pat] => exact ⟨rfl, fun _ => rfl⟩
    | [] | _ :: _ :: _ => rfl
  | scan =>
    match args with
    | [] => rfl
    | _ :: opts => exact ⟨rfl, fun _ => rfl⟩
  | save | bgsave => exact ⟨rfl, fun a => by cases a <;> rfl⟩

theorem auth_quiet (cfg : Config) (st : ConnState) (args : List Bytes) :
    (auth cfg st args).1.persist = false ∧ (auth cfg st args).1.quit = false := by
  unfold auth
  dsimp only
  split
  · split
    · exact ⟨rfl, rfl⟩
    · split <;> exact ⟨rfl, rfl⟩
  · split
    · exact ⟨rfl, rfl⟩
    · split <;> exact ⟨rfl, rfl⟩
  · exact ⟨rfl, rfl⟩

theorem hello_quiet (st : ConnState) (args : List Bytes) :
    (hello st args).1.persist = false ∧ (hello st args).1.quit = false := by
  unfold hello
  split
  · exact ⟨rfl, rfl⟩
  · split <;> exact ⟨rfl, rfl⟩

theorem clientCmd_quiet (st : ConnState) (args : List Bytes) :
    (clientCmd st args).1.persist = false := by
  unfold clientCmd
  split
  · rfl
  · dsimp only
    split
    · rfl
    · split
      · rfl
      · split
        · rfl
        · split <;> rfl

/-- What is known of a program carries over when its result is mapped. -/
theorem Runs.map {α β : Type} {p : Cmd σ α} {flag : α → Bool} {w : Option (Write σ)}
    (h : Runs p flag w) (f : α → β) (flag' : β → Bool) (hf : ∀ a, flag' (f a) = flag a) :
    Runs (p >>= fun a => return f a) flag' w := by
  cases w with
  | none => exact Prog.All.bind h fun a ha => (hf a).trans ha
  | some w =>
    refine Eq.trans ?_ h
    simp only [flagged, Prog.bind_assoc, Prog.pure_eq, Prog.pure_bind, hf]

/-- **The dispatcher.** A command runs exactly the write it stands for; without
one it only reads and is not logged. -/
theorem dispatch_runs [Score σ] (cfg : Config) (st : ConnState) (name : Bytes) (args : List Bytes) :
    Runs (dispatch cfg st name args : Cmd σ (Outcome × ConnState)) (fun r => r.1.persist)
      (writeCmd name args) := by
  unfold dispatch writeCmd
  cases CmdName.ofName (upperName name) with
  | none => exact rfl
  | some c =>
    cases c with
    | hello => exact (hello_quiet st args).1
    | auth => exact (auth_quiet cfg st args).1
    | client => exact clientCmd_quiet st args
    | _ => exact (storeCmd_runs cfg st name args _).map _ _ fun _ => rfl

/-! ## The connection loop -/

/-- What the connection loop runs for a command that writes. A plain `SET` on the
fast path is logged whatever the store answers, like an `MSET` of one pair. -/
def servedWrite [Score σ] (name : Bytes) (args : List Bytes) : Option (Write σ) :=
  match args with
  | [k, v] => if upperName name = lit "SET" then some (.mset [(k, v)]) else writeCmd name args
  | _ => writeCmd name args

/-- The dispatcher runs the same write as the connection loop, but for the clock
reading of a plain `SET`. -/
theorem served_dispatched [Score σ] (name : Bytes) (args : List Bytes) :
    (servedWrite name args : Option (Write σ)) = writeCmd name args ∨
      ∃ k x, (servedWrite name args : Option (Write σ)) = some (.mset [(k, x)]) ∧
        (writeCmd name args : Option (Write σ)) = some (.set k x []) := by
  unfold servedWrite
  split
  · split
    · rename_i k x hn
      refine .inr ⟨k, x, rfl, ?_⟩
      simp only [writeCmd, hn]
      rfl
    · exact .inl rfl
  · exact .inl rfl

theorem fastIncr_runs (k : Bytes) (delta : Int) :
    Runs (fastIncr k delta : Cmd σ (Bytes × Bool)) Prod.snd
      (some (.one k (.incrBy delta) rfl)) := by
  simp only [Runs, flagged, fastIncr, Write.prog, onKey, Prog.call_bind, Prog.pure_bind]
  congr 1
  funext res
  cases res <;> rfl

theorem serveFast_runs [Score σ] (st : ConnState) (name : Bytes) (args : List Bytes)
    {p : Cmd σ (Bytes × Bool)} (h : serveFast st name args = some p) :
    Runs p Prod.snd (servedWrite name args) := by
  unfold serveFast at h
  match args with
  | [] =>
    dsimp only at h
    split at h
    · rename_i hn
      cases h
      simp only [servedWrite, writeCmd, hn]
      exact rfl
    · cases h
  | [k] =>
    dsimp only at h
    by_cases h1 : upperName name = lit "GET"
    · rw [if_pos h1] at h
      cases h
      simp only [servedWrite, writeCmd, h1]
      exact ⟨rfl, fun a => by cases a <;> rfl⟩
    by_cases h2 : upperName name = lit "INCR"
    · rw [if_neg h1, if_pos h2] at h
      cases h
      have : (servedWrite name [k] : Option (Write σ)) = some (.one k (.incrBy 1) rfl) := by
        simp only [servedWrite, writeCmd, h2]; rfl
      rw [this]; exact fastIncr_runs k 1
    by_cases h3 : upperName name = lit "DECR"
    · rw [if_neg h1, if_neg h2, if_pos h3] at h
      cases h
      have : (servedWrite name [k] : Option (Write σ)) = some (.one k (.incrBy (-1)) rfl) := by
        simp only [servedWrite, writeCmd, h3]; rfl
      rw [this]; exact fastIncr_runs k (-1)
    · rw [if_neg h1, if_neg h2, if_neg h3] at h; cases h
  | [k, v] =>
    dsimp only at h
    split at h
    · rename_i hn
      cases h
      simp only [servedWrite, hn, if_true]
      exact rfl
    · cases h
  | _ :: _ :: _ :: _ => cases h

/-- **The connection loop.** Fast path or dispatcher, a command runs the write it
stands for. -/
theorem serveCmd_runs [Score σ] (cfg : Config) (st : ConnState) (name : Bytes) (args : List Bytes) :
    Runs (serveCmd cfg st name args : Cmd σ Served) Served.write (servedWrite name args) := by
  unfold serveCmd
  cases h : (serveFast st name args : Option (Cmd σ (Bytes × Bool))) with
  | some p => exact (serveFast_runs st name args h).map _ _ fun _ => rfl
  | none =>
    have : (servedWrite name args : Option (Write σ)) = writeCmd name args := by
      unfold servedWrite
      split
      · rw [if_neg]
        intro hn
        simp [serveFast, hn] at h
      · rfl
    rw [this]
    exact (dispatch_runs cfg st name args).map _ _ fun _ => rfl

end

end Inmem.L4
