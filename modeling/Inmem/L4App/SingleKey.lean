import Inmem.L4App.Locality

/-!
# Commands on one key

Most commands take one key, their first argument, and call the store for that key
only. `singleKey` lists them; a command that takes any number of keys counts when
it is given one.

* `dispatch_onlyOn`: such a command makes calls on its key, and may read the clock.
-/
namespace Inmem.L4

open Inmem.Core Inmem.L1 Inmem.L1.Resp Inmem.L3

/-- The key of a command that takes one. -/
def CmdName.key (args : List Bytes) : CmdName → Option Bytes
  | .set | .get | .getset | .setnx | .setex | .psetex | .append | .strlen | .incr | .decr | .incrby
  | .decrby
  | .lpush | .rpush | .lpop | .rpop | .llen | .lrange
  | .hset | .hmset | .hget | .hdel | .hlen | .hexists | .hgetall | .hkeys | .hvals | .hmget
  | .sadd | .srem | .sismember | .scard | .smembers
  | .zadd | .zscore | .zrem | .zcard | .zrange
  | .type | .expire | .pexpire | .expireat | .pexpireat | .persist | .ttl | .pttl => args.head?
  | .mget | .del | .unlink | .exists => if args.length = 1 then args.head? else none
  | .mset => if args.length = 2 then args.head? else none
  | _ => none

/-- The key of a single-key command. -/
def singleKey (a : Argv) : Option Bytes := (CmdName.ofName (upperName a.1)).bind (CmdName.key a.2)

section
variable {σ : Type} {k : Bytes}

/-- Every call is on this key, or reads the clock. -/
def OnlyOn {α : Type} (k : Bytes) (p : Cmd σ α) : Prop := p.All (Within [k]) fun _ => True

theorem onlyOn_pure {α : Type} (a : α) : OnlyOn k (.pure a : Cmd σ α) := trivial

theorem onlyOn_call {α : Type} (op : KeyOp σ) {f : op.Res → Cmd σ α} (hf : ∀ a, OnlyOn k (f a)) :
    OnlyOn k (.call (.key k op) f) := ⟨List.mem_singleton_self k, hf⟩

theorem onlyOn_one {α : Type} (k : Bytes) (op : KeyOp σ) (f : op.Res → α) :
    OnlyOn k (onKey k op >>= fun a => .pure (f a) : Cmd σ α) :=
  onlyOn_call op fun a => onlyOn_pure (f a)

theorem onlyOn_clock {α : Type} {f : Nat → Cmd σ α} (hf : ∀ now, OnlyOn k (f now)) :
    OnlyOn k (.call .nowMs f) := ⟨trivial, hf⟩

/-- A command that runs a write on this key. -/
theorem Runs.onlyOn {α : Type} {p : Cmd σ α} {flag : α → Bool} {w : Write σ}
    (h : Runs p flag (some w)) (hk : w.keys = some [k]) : OnlyOn k p := by
  have hall : (flagged p flag).All (Within [k]) fun _ => True := by
    rw [show flagged p flag = w.prog from h]
    exact w.within hk
  exact (Prog.all_map flag).1 hall

theorem setCmd_onlyOn (k : Bytes) (rest : List Bytes) :
    OnlyOn k (setCmd (k :: rest) : Cmd σ Outcome) := by
  cases rest with
  | nil => exact onlyOn_pure _
  | cons v words => exact (setCmd_runs (k :: v :: words)).onlyOn rfl

theorem setexCmd_onlyOn (k : Bytes) (rest : List Bytes) (ms : Bool) :
    OnlyOn k (setexCmd (k :: rest) ms : Cmd σ Outcome) := by
  unfold setexCmd
  split
  · rename_i k' n v h
    obtain ⟨rfl, -⟩ := List.cons.inj h
    split
    · exact onlyOn_pure _
    · split
      · exact onlyOn_pure _
      · exact onlyOn_clock fun now => onlyOn_call _ fun _ => onlyOn_pure _
  · exact onlyOn_pure _

theorem incrCmd_onlyOn (name k : Bytes) (rest : List Bytes) (fixed : Int) (by_ : Bool) :
    OnlyOn k (incrCmd name (k :: rest) fixed by_ : Cmd σ Outcome) := by
  have hone : ∀ delta, OnlyOn k (incrKey k delta : Cmd σ Outcome) :=
    fun delta => onlyOn_one k (.incrBy delta) _
  unfold incrCmd
  cases by_ with
  | true =>
    simp only [if_true]
    split
    · rename_i k' d h
      obtain ⟨rfl, -⟩ := List.cons.inj h
      split
      · exact onlyOn_pure _
      · split
        · split
          · exact hone _
          · exact onlyOn_pure _
        · exact hone _
    · exact onlyOn_pure _
  | false =>
    simp only [Bool.false_eq_true, if_false]
    split
    · rename_i k' h
      obtain ⟨rfl, -⟩ := List.cons.inj h
      exact hone _
    · exact onlyOn_pure _

theorem pushCmd_onlyOn (k : Bytes) (rest : List Bytes) (left : Bool) :
    OnlyOn k (pushCmd (k :: rest) left : Cmd σ Outcome) := by
  cases rest with
  | nil => exact onlyOn_pure _
  | cons v vs => exact onlyOn_one k (.push (v :: vs) left) _

theorem popCmd_onlyOn (k : Bytes) (rest : List Bytes) (left : Bool) :
    OnlyOn k (popCmd (k :: rest) left : Cmd σ Outcome) := by
  match rest with
  | [] => exact onlyOn_one k (.pop 1 left) _
  | [c] =>
    simp only [popCmd]
    split
    · split
      · exact onlyOn_one k _ _
      · exact onlyOn_pure _
    · exact onlyOn_pure _
  | _ :: _ :: _ => exact onlyOn_pure _

theorem lrangeCmd_onlyOn (k start stop : Bytes) :
    OnlyOn k (lrangeCmd k start stop : Cmd σ Outcome) := by
  unfold lrangeCmd
  split
  · exact onlyOn_one k _ _
  · exact onlyOn_pure _

theorem hsetCmd_onlyOn (k : Bytes) (rest : List Bytes) (hmset : Bool) :
    OnlyOn k (hsetCmd (k :: rest) hmset : Cmd σ Outcome) := by
  simp only [hsetCmd]
  split
  · exact onlyOn_pure _
  · exact onlyOn_one k _ _

theorem hmgetLoop_onlyOn (k : Bytes) (fs : List Bytes) : OnlyOn k (hmgetLoop k fs : Cmd σ _) := by
  induction fs with
  | nil => exact onlyOn_pure _
  | cons f fs ih => exact onlyOn_call _ fun _ => ih.bind fun _ _ => onlyOn_pure _

theorem expireCmd_onlyOn (k : Bytes) (rest : List Bytes) (unit : Nat) (absolute : Bool) :
    OnlyOn k (expireCmd (k :: rest) unit absolute : Cmd σ Outcome) := by
  cases rest with
  | nil => exact onlyOn_pure _
  | cons n flags =>
    have hruns := expireCmd_runs (σ := σ) (k :: n :: flags) unit absolute
    cases hn : parseI64 n with
    | none => simp only [expireCmd, hn]; exact onlyOn_pure _
    | some z =>
      simp only [expireWrite, hn, Option.map_some] at hruns
      exact hruns.onlyOn rfl

theorem ttlCmd_onlyOn (k : Bytes) (rest : List Bytes) (seconds : Bool) :
    OnlyOn k (ttlCmd (k :: rest) seconds : Cmd σ Outcome) := by
  cases rest with
  | nil => exact onlyOn_one k .pttl _
  | cons => exact onlyOn_pure _

end

section
variable {σ : Type} [Score σ]

theorem zaddCmd_onlyOn (k : Bytes) (rest : List Bytes) :
    OnlyOn k (zaddCmd (k :: rest) : Cmd σ Outcome) := by
  simp only [zaddCmd]
  split
  · exact onlyOn_pure _
  · split
    · exact onlyOn_pure _
    · exact onlyOn_one k _ _

theorem zrangeCmd_onlyOn (k start stop : Bytes) (rest : List Bytes) :
    OnlyOn k (zrangeCmd k start stop rest : Cmd σ Outcome) := by
  unfold zrangeCmd
  split
  · exact onlyOn_one k _ _
  · exact onlyOn_pure _

theorem storeCmd_onlyOn (cfg : Config) (st : ConnState) (name : Bytes) {args : List Bytes}
    {c : CmdName} {k : Bytes} (h : c.key args = some k) :
    OnlyOn k (storeCmd cfg st name args c : Cmd σ Outcome) := by
  cases c with
  | set => cases args <;> cases h; exact setCmd_onlyOn k _
  | getset =>
    match args, h with
    | [_, v], rfl => exact (getsetCmd_runs _ v).onlyOn rfl
    | [_], _ | _ :: _ :: _ :: _, _ => exact onlyOn_pure _
  | setex => cases args <;> cases h; exact setexCmd_onlyOn k _ _
  | psetex => cases args <;> cases h; exact setexCmd_onlyOn k _ _
  | incr => cases args <;> cases h; exact incrCmd_onlyOn name k _ _ _
  | decr => cases args <;> cases h; exact incrCmd_onlyOn name k _ _ _
  | incrby => cases args <;> cases h; exact incrCmd_onlyOn name k _ _ _
  | decrby => cases args <;> cases h; exact incrCmd_onlyOn name k _ _ _
  | lpush => cases args <;> cases h; exact pushCmd_onlyOn k _ _
  | rpush => cases args <;> cases h; exact pushCmd_onlyOn k _ _
  | lpop => cases args <;> cases h; exact popCmd_onlyOn k _ _
  | rpop => cases args <;> cases h; exact popCmd_onlyOn k _ _
  | hset => cases args <;> cases h; exact hsetCmd_onlyOn k _ _
  | hmset => cases args <;> cases h; exact hsetCmd_onlyOn k _ _
  | zadd => cases args <;> cases h; exact zaddCmd_onlyOn k _
  | expire => cases args <;> cases h; exact expireCmd_onlyOn k _ _ _
  | pexpire => cases args <;> cases h; exact expireCmd_onlyOn k _ _ _
  | expireat => cases args <;> cases h; exact expireCmd_onlyOn k _ _ _
  | pexpireat => cases args <;> cases h; exact expireCmd_onlyOn k _ _ _
  | ttl => cases args <;> cases h; exact ttlCmd_onlyOn k _ _
  | pttl => cases args <;> cases h; exact ttlCmd_onlyOn k _ _
  | persist =>
    match args, h with
    | [_], rfl => exact (persistCmd_runs _).onlyOn rfl
    | _ :: _ :: _, _ => exact onlyOn_pure _
  | lrange =>
    match args, h with
    | [_, start, stop], rfl => exact lrangeCmd_onlyOn _ start stop
    | [_], _ | [_, _], _ | _ :: _ :: _ :: _ :: _, _ => exact onlyOn_pure _
  | zrange =>
    match args, h with
    | _ :: start :: stop :: rest, rfl => exact zrangeCmd_onlyOn _ start stop rest
    | [_], _ | [_, _], _ => exact onlyOn_pure _
  | hmget =>
    match args, h with
    | _ :: f :: fs, rfl => exact (hmgetLoop_onlyOn _ (f :: fs)).bind fun _ _ => onlyOn_pure _
    | [_], _ => exact onlyOn_pure _
  | mset =>
    match args, h with
    | [_, v], rfl =>
      simp only [storeCmd, msetCmd]
      rw [if_neg (by simp)]
      exact onlyOn_call _ fun _ => onlyOn_pure _
  | mget | del | unlink | «exists» =>
    match args, h with
    | [_], rfl => exact onlyOn_call _ fun _ => onlyOn_pure _
  -- one argument after the name
  | get | strlen | llen | hlen | hgetall | hkeys | hvals | scard | smembers | zcard | type =>
    match args, h with
    | [_], rfl => exact onlyOn_one _ _ _
    | _ :: _ :: _, _ => exact onlyOn_pure _
  -- two
  | setnx | append | hget | hexists | sismember | zscore =>
    match args, h with
    | [_, _], rfl => exact onlyOn_one _ _ _
    | [_], _ | _ :: _ :: _ :: _, _ => exact onlyOn_pure _
  -- two or more
  | hdel | sadd | srem | zrem =>
    match args, h with
    | _ :: _ :: _, rfl => exact onlyOn_one _ _ _
    | [_], _ => exact onlyOn_pure _
  | _ => cases h

/-- A single-key command makes calls on its key only. -/
theorem dispatch_onlyOn (cfg : Config) (st : ConnState) {a : Argv} {k : Bytes}
    (h : singleKey a = some k) :
    OnlyOn k (dispatch cfg st a.1 a.2 : Cmd σ (Outcome × ConnState)) := by
  unfold singleKey at h
  unfold dispatch
  cases hc : CmdName.ofName (upperName a.1) with
  | none => rw [hc] at h; cases h
  | some c =>
    rw [hc] at h
    cases c with
    | hello | auth | client => cases h
    | _ => exact Prog.All.bind (storeCmd_onlyOn cfg st a.1 h) fun _ _ => trivial

end

end Inmem.L4
