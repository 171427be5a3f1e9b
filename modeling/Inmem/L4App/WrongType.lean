import Inmem.L4App.Classify
import Inmem.L4App.Replies
import Inmem.L4App.SetOptions

/-!
# Commands on one type of value

Some thirty commands work on one of the five types a key can have. All of them
but one answer `WRONGTYPE` on a key of another type and only then: the store looks at
the live value, so a key that has expired counts as absent, and the dispatcher passes
the store's error on. `HMGET` reads field by field and answers a nil for each error.

* `storeCmd_typed`: what each command does with the store's answer;
* `wrongtype_discipline`: when the reply is the error.
-/
namespace Inmem.L4

open Inmem.Core Inmem.L1 Inmem.L1.Resp Inmem.L3

/-! ## Commands and arguments -/

/-- The type of value the command works on. -/
def CmdName.valueType : CmdName → Option TypeName
  | .get | .getset | .set | .append | .strlen | .incr | .decr | .incrby | .decrby => some .string
  | .lpush | .rpush | .lpop | .rpop | .llen | .lrange => some .list
  | .hset | .hmset | .hget | .hmget | .hdel | .hlen | .hexists | .hgetall | .hkeys | .hvals =>
    some .hash
  | .sadd | .srem | .sismember | .scard | .smembers => some .set
  | .zadd | .zscore | .zrem | .zcard | .zrange => some .zset
  | _ => none

/-- The argument as a number. -/
def intArg (args : List Bytes) (i : Nat) : Option Int := args[i]?.bind parseI64

/-- The arguments are not rejected by themselves: there are as many as the command
takes, and the numbers among them are numbers in its range. `SET` reads the value it
replaces with the option `GET` only. -/
def wellFormed (σ : Type) [Score σ] (c : CmdName) (args : List Bytes) : Bool :=
  match c with
  | .get | .strlen | .incr | .decr | .llen | .hlen | .hgetall | .hkeys | .hvals | .scard | .smembers
  | .zcard =>
    args.length == 1
  | .getset | .append | .hget | .hexists | .sismember | .zscore => args.length == 2
  | .lpush | .rpush | .hdel | .hmget | .sadd | .srem | .zrem => 2 ≤ args.length
  | .incrby => args.length == 2 && (intArg args 1).isSome
  | .decrby => args.length == 2 && (intArg args 1).any fun n => decide (InI64 (-n))
  | .lpop | .rpop =>
    args.length == 1 || args.length == 2 && (intArg args 1).any fun n => decide (0 ≤ n)
  | .lrange => args.length == 3 && (intArg args 1).isSome && (intArg args 2).isSome
  | .zrange => 3 ≤ args.length && (intArg args 1).isSome && (intArg args 2).isSome
  | .hset | .hmset => 3 ≤ args.length && args.length % 2 == 1
  | .zadd =>
    3 ≤ args.length && args.length % 2 == 1 &&
      (zaddPairs args.tail : Option (List (σ × Bytes))).isSome
  | .set =>
    2 ≤ args.length && match setOptions 0 (args.drop 2) {} false with
      | .ok (_, get) => get
      | .error _ => false
  | _ => false

/-- `INCRBY` and `DECRBY` share a handler, which looks at the name again. -/
theorem eqCi_decrby {name : Bytes} {c : CmdName} (h : CmdName.ofName (upperName name) = some c) :
    eqCi name (lit "decrby") = true ↔ c = .decrby := by
  have hall : ∀ c ∈ CmdName.all,
      c.text.length < 24 ∧ (lower c.text = lit "decrby" ↔ c = .decrby) := by decide +kernel
  obtain ⟨hlen, hiff⟩ := hall c (List.mem_of_find?_eq_some h)
  have htext := CmdName.text_of_ofName h
  rw [htext] at hlen
  rw [htext, upperName_short hlen, lower_upper] at hiff
  rw [← hiff, eqCi, decide_eq_true_eq]
  rfl

/-- The error. -/
def wrongTypeReply : Reply Empty := .error StoreErr.wrongType.text

theorem storeErr_wrongType {A : Type} (e : StoreErr) :
    storeErr e = wrongTypeReply ↔ isWrongType (.error e : Except StoreErr A) = true := by
  cases e with
  | wrongType => exact iff_of_true rfl rfl
  | notInteger | overflow | unreachable =>
    exact iff_of_false (fun h => absurd (Reply.error.inj h) (by decide)) Bool.false_ne_true

theorem orErr_wrongType {A : Type} (res : Except StoreErr A) {ok : A → Outcome}
    (h : ∀ a, isError (ok a).reply = false) :
    (orErr res ok).reply = wrongTypeReply ↔ isWrongType res = true := by
  cases res with
  | error e => exact storeErr_wrongType e
  | ok a =>
    refine iff_of_false (fun he => ?_) Bool.false_ne_true
    have := h a
    rw [show (ok a).reply = wrongTypeReply from he] at this
    cases this

section
variable {σ : Type}

/-- The program starts with an operation on `k` for values of type `t`, and its reply is
the error exactly when the operation answers so. -/
def Typed (k : Bytes) (t : TypeName) (p : Cmd σ Outcome) : Prop :=
  ∃ (op : KeyOp σ) (f : op.Res → Cmd σ Outcome), p = .call (.key k op) f ∧ op.valueType = some t ∧
    ∀ res, (f res).All (fun _ => True) fun o => o.reply = wrongTypeReply ↔ op.mistyped res = true

theorem typed_one {k : Bytes} {t : TypeName} {op : KeyOp σ} {f : op.Res → Outcome}
    (ht : op.valueType = some t)
    (h : ∀ res, (f res).reply = wrongTypeReply ↔ op.mistyped res = true) :
    Typed k t (onKey k op >>= fun res => return f res) := ⟨op, _, rfl, ht, h⟩

variable {k : Bytes} {args : List Bytes}

theorem getsetCmd_typed (k v : Bytes) : Typed k .string (getsetCmd k v : Cmd σ Outcome) := by
  refine ⟨.get, _, rfl, rfl, fun res => ?_⟩
  cases res with
  | error e => exact storeErr_wrongType e
  | ok old => exact ⟨trivial, fun _ => iff_of_false (fun h => by cases h) Bool.false_ne_true⟩

theorem setWith_typed (k v : Bytes) (opts : SetOptions) :
    Typed k .string (setWith k v opts true : Cmd σ Outcome) := by
  refine ⟨.get, _, rfl, rfl, fun res => ?_⟩
  cases res with
  | error e => exact storeErr_wrongType e
  | ok old => exact ⟨trivial, fun _ => iff_of_false (fun h => by cases h) Bool.false_ne_true⟩

theorem incrKey_typed (k : Bytes) (delta : Int) :
    Typed k .string (incrKey k delta : Cmd σ Outcome) :=
  typed_one rfl fun res => orErr_wrongType res fun _ => rfl

theorem popReply_noError (counted : Bool) (items : List Bytes) :
    isError (popReply counted items).reply = false := by
  cases counted <;> cases items <;> rfl

/-! ## The arguments, taken apart -/

theorem one_arg (h : (args.length == 1) = true) : ∃ k, args = [k] :=
  List.length_eq_one_iff.1 (eq_of_beq h)

theorem two_args (h : (args.length == 2) = true) : ∃ k a, args = [k, a] :=
  List.length_eq_two.1 (eq_of_beq h)

theorem range_args (h : decide (3 ≤ args.length) = true) :
    ∃ k a b rest, args = k :: a :: b :: rest := by
  match args, of_decide_eq_true h with
  | k :: a :: b :: rest, _ => exact ⟨k, a, b, rest, rfl⟩

/-- A key and pairs. -/
theorem pair_args (h : decide (3 ≤ args.length) = true) (hodd : (args.length % 2 == 1) = true) :
    ∃ k rest, args = k :: rest ∧ ¬ (rest.length < 2 ∨ rest.length % 2 = 1) := by
  match args, of_decide_eq_true h with
  | k :: rest, hlen =>
    have hmod := eq_of_beq hodd
    rw [List.length_cons] at hlen hmod
    exact ⟨k, rest, rfl, by omega⟩

theorem more_args (h : decide (2 ≤ args.length) = true) : ∃ k a as, args = k :: a :: as := by
  match args, of_decide_eq_true h with
  | k :: a :: as, _ => exact ⟨k, a, as, rfl⟩

end

section
variable {σ : Type} [Score σ] {args : List Bytes}

/-- What each command does with the store's answer. -/
theorem storeCmd_typed (cfg : Config) (st : ConnState) {name : Bytes} {c : CmdName} {t : TypeName}
    (hname : CmdName.ofName (upperName name) = some c) (ht : c.valueType = some t)
    (hw : wellFormed σ c args = true) (hset : c ≠ .set) (hmget : c ≠ .hmget) :
    Typed (args.headD []) t (storeCmd cfg st name args c : Cmd σ Outcome) := by
  cases c with
  | get =>
    cases ht
    obtain ⟨k, rfl⟩ := one_arg hw
    exact typed_one rfl fun res => orErr_wrongType res fun _ => rfl
  | strlen | llen | hlen | scard | zcard =>
    cases ht
    obtain ⟨k, rfl⟩ := one_arg hw
    exact typed_one rfl fun res => orErr_wrongType res fun _ => rfl
  | hkeys | hvals | smembers =>
    cases ht
    obtain ⟨k, rfl⟩ := one_arg hw
    exact typed_one rfl fun res => orErr_wrongType res fun _ => rfl
  | hgetall =>
    cases ht
    obtain ⟨k, rfl⟩ := one_arg hw
    exact typed_one rfl fun res => orErr_wrongType res fun _ => by split <;> rfl
  | incr | decr =>
    cases ht
    obtain ⟨k, rfl⟩ := one_arg hw
    exact incrKey_typed k _
  | getset =>
    cases ht
    obtain ⟨k, v, rfl⟩ := two_args hw
    exact getsetCmd_typed k v
  | append | hget | hexists | sismember | zscore =>
    cases ht
    obtain ⟨k, a, rfl⟩ := two_args hw
    exact typed_one rfl fun res => orErr_wrongType res fun _ => rfl
  | lpush | rpush | hdel | sadd | srem | zrem =>
    cases ht
    obtain ⟨k, a, as, rfl⟩ := more_args hw
    exact typed_one rfl fun res => orErr_wrongType res fun _ => rfl
  | incrby =>
    cases ht
    obtain ⟨h2, hint⟩ := Bool.and_eq_true_iff.1 hw
    obtain ⟨k, d, rfl⟩ := two_args h2
    obtain ⟨n, hn⟩ := Option.isSome_iff_exists.1 hint
    have hn : parseI64 d = some n := hn
    have hinc : eqCi name (lit "decrby") = false := Bool.eq_false_iff.2 fun h => by
      cases (eqCi_decrby hname).1 h
    simp only [storeCmd, incrCmd, if_true, hn, hinc, Bool.false_eq_true, if_false]
    exact incrKey_typed k n
  | decrby =>
    cases ht
    obtain ⟨h2, hint⟩ := Bool.and_eq_true_iff.1 hw
    obtain ⟨k, d, rfl⟩ := two_args h2
    obtain ⟨n, hn, hneg⟩ := (Option.any_eq_true _ _).1 hint
    have hn : parseI64 d = some n := hn
    simp only [storeCmd, incrCmd, if_true, hn, (eqCi_decrby hname).2 rfl, of_decide_eq_true hneg]
    exact incrKey_typed k (-n)
  | lpop | rpop =>
    cases ht
    rcases Bool.or_eq_true_iff.1 hw with h1 | hw
    · obtain ⟨k, rfl⟩ := one_arg h1
      exact typed_one rfl fun res => orErr_wrongType res (popReply_noError false)
    · obtain ⟨h2, hint⟩ := Bool.and_eq_true_iff.1 hw
      obtain ⟨k, d, rfl⟩ := two_args h2
      obtain ⟨n, hn, hpos⟩ := (Option.any_eq_true _ _).1 hint
      have hn : parseI64 d = some n := hn
      simp only [storeCmd, popCmd, hn, of_decide_eq_true hpos, if_true]
      exact typed_one rfl fun res => orErr_wrongType res (popReply_noError true)
  | lrange =>
    cases ht
    obtain ⟨hw, hj⟩ := Bool.and_eq_true_iff.1 hw
    obtain ⟨h3, hi⟩ := Bool.and_eq_true_iff.1 hw
    obtain ⟨k, a, b, rfl⟩ := List.length_eq_three.1 (eq_of_beq h3)
    obtain ⟨i, hi⟩ := Option.isSome_iff_exists.1 hi
    obtain ⟨j, hj⟩ := Option.isSome_iff_exists.1 hj
    have hi : parseI64 a = some i := hi
    have hj : parseI64 b = some j := hj
    simp only [storeCmd, lrangeCmd, hi, hj]
    exact typed_one rfl fun res => orErr_wrongType res fun _ => rfl
  | zrange =>
    cases ht
    obtain ⟨hw, hj⟩ := Bool.and_eq_true_iff.1 hw
    obtain ⟨h3, hi⟩ := Bool.and_eq_true_iff.1 hw
    obtain ⟨k, a, b, rest, rfl⟩ := range_args h3
    obtain ⟨i, hi⟩ := Option.isSome_iff_exists.1 hi
    obtain ⟨j, hj⟩ := Option.isSome_iff_exists.1 hj
    have hi : parseI64 a = some i := hi
    have hj : parseI64 b = some j := hj
    simp only [storeCmd, zrangeCmd, hi, hj]
    exact typed_one rfl fun res => orErr_wrongType res fun _ => rfl
  | hset | hmset =>
    cases ht
    obtain ⟨h3, hodd⟩ := Bool.and_eq_true_iff.1 hw
    obtain ⟨k, rest, rfl, hrest⟩ := pair_args h3 hodd
    simp only [storeCmd, hsetCmd, if_neg hrest]
    exact typed_one rfl fun res => orErr_wrongType res fun _ => rfl
  | zadd =>
    cases ht
    obtain ⟨hw, hscores⟩ := Bool.and_eq_true_iff.1 hw
    obtain ⟨h3, hodd⟩ := Bool.and_eq_true_iff.1 hw
    obtain ⟨k, rest, rfl, hrest⟩ := pair_args h3 hodd
    obtain ⟨pairs, hpairs⟩ := Option.isSome_iff_exists.1 hscores
    have hpairs : (zaddPairs rest : Option (List (σ × Bytes))) = some pairs := hpairs
    simp only [storeCmd, zaddCmd, if_neg hrest, hpairs]
    exact typed_one rfl fun res => orErr_wrongType res fun _ => rfl
  | set => exact absurd rfl hset
  | hmget => exact absurd rfl hmget
  | _ => cases ht

/-- `SET` reads the clock, and then the value that it is asked for. -/
theorem setCmd_typed (hw : wellFormed σ .set args = true) :
    ∃ f : Nat → Cmd σ Outcome, setCmd args = .call .nowMs f ∧ ∀ now,
      Typed (args.headD []) .string (f now) := by
  obtain ⟨h2, hget⟩ := Bool.and_eq_true_iff.1 hw
  obtain ⟨k, v, rest, rfl⟩ := more_args h2
  refine ⟨_, rfl, fun now => ?_⟩
  have h0 : (setOptions now rest {} false).map Prod.snd = .ok true := by
    rw [setOptions_get now 0 rest {} {} false]
    revert hget
    simp only [List.drop_succ_cons, List.drop_zero]
    cases setOptions 0 rest {} false with
    | error o => exact fun h => absurd h Bool.false_ne_true
    | ok r => exact fun h => congrArg Except.ok h
  dsimp only [Prog.bind]
  cases hopts : setOptions now rest {} false with
  | error o => rw [hopts] at h0; cases h0
  | ok r =>
    rw [hopts] at h0
    obtain ⟨opts, get⟩ := r
    obtain rfl : get = true := Except.ok.inj h0
    exact setWith_typed k v opts

/-- `HMGET` answers a list, whatever the store does. -/
theorem hmget_noError (cfg : Config) (st : ConnState) (name : Bytes)
    (hw : wellFormed σ .hmget args = true) :
    (storeCmd cfg st name args .hmget : Cmd σ Outcome).All (fun _ => True) fun o => o.reply ≠
      wrongTypeReply := by
  obtain ⟨k, f, fs, rfl⟩ := more_args hw
  exact (Prog.all_trivial _).bind fun items _ h => by cases h

/-! ## The reply -/

theorem typed_run {k : Bytes} {t : TypeName} {p : Cmd σ Outcome} (h : Typed k t p)
    (E : Surroundings) (s : Sys σ) :
    (s.exec E p).1.reply = wrongTypeReply ↔
      OtherType t (s.world.store.raw.at (E.clock s.tick) k) := by
  obtain ⟨op, f, rfl, ht, hf⟩ := h
  have hreply := (Prog.all_run (Sys.call E) (fun _ => True) (fun _ _ _ _ => trivial)
    (hf (s.call E (.key k op)).1) (s := (s.call E (.key k op)).2) trivial).1
  have hsame := (Shard.exec_effect (E s.tick) k op (s.world.store.shard k)).1
  refine hreply.trans ?_
  rw [show op.mistyped (s.call E (.key k op)).1 = _ from mistyped_same hsame]
  exact mistyped_spec ht _ _

/-- **WRONGTYPE discipline.** For every store, connection state and command on one type
of value, with arguments the command accepts: that the reply is the `WRONGTYPE` error
if and only if the key holds a live value of another type, is so unless the command is
`HMGET` and the key does. A value is live at the clock reading at which the command
looks the key up, which is its first, or its second for a `SET`. -/
theorem wrongtype_discipline (cfg : Config) (st : ConnState) (E : Surroundings) (s : Sys σ)
    (name : Bytes) (args : List Bytes) (c : CmdName) (t : TypeName)
    (hc : CmdName.ofName (upperName name) = some c) (ht : c.valueType = some t)
    (hw : wellFormed σ c args = true) :
    let now := E.clock (if c = .set then s.tick + 1 else s.tick)
    let other := OtherType t (s.world.store.raw.at now (args.headD []))
    ((s.exec E (dispatch cfg st name args)).1.1.reply = .error StoreErr.wrongType.text ↔ other) ↔
      ¬ (c = .hmget ∧ other) := by
  intro now other
  have hd : (dispatch cfg st name args : Cmd σ _) = keep st (storeCmd cfg st name args c) := by
    unfold dispatch
    rw [hc]
    cases c <;> first | rfl | cases ht
  have hrun : (s.exec E (dispatch cfg st name args)).1.1 =
      (s.exec E (storeCmd cfg st name args c)).1 := by
    rw [hd, keep, Sys.exec, Prog.run_bind]
    rfl
  rw [hrun]
  by_cases hm : c = .hmget
  · subst hm
    have hno : (s.exec E (storeCmd cfg st name args .hmget)).1.reply ≠
        .error StoreErr.wrongType.text :=
      (Prog.all_run (Sys.call E) (fun _ => True) (fun _ _ _ _ => trivial)
        (hmget_noError cfg st name hw) trivial).1
    rw [iff_false_left hno]
    simp
  · refine iff_of_true ?_ fun h => hm h.1
    by_cases hs : c = .set
    · subst hs
      cases ht
      obtain ⟨f, hf, htyped⟩ := setCmd_typed hw
      rw [show (storeCmd cfg st name args .set : Cmd σ Outcome) = .call .nowMs f from hf]
      exact typed_run (htyped _) E { s with tick := s.tick + 1 }
    · have hnow : now = E.clock s.tick := by simp only [now, if_neg hs]
      simp only [other, hnow]
      exact typed_run (storeCmd_typed cfg st hc ht hw hs hm) E s

end

/-- `LPUSH` to a string. -/
theorem wrongtype_discipline_lpush :
    let s := boundedConn.node.sys
    let r :=
      s.exec (fun _ => Env.plain 2)
        (dispatch ⟨1, 1000, true, none, none, none⟩ ConnState.internal (lit "lpush")
      [lit "k", lit "x"])
    r.1.1.reply = .error StoreErr.wrongType.text := by
  intro s r
  have hother : OtherType .list (s.world.store.raw.at 2 (lit "k")) :=
    ⟨⟨.str (lit "x"), none⟩, by decide +kernel, by decide⟩
  exact ((wrongtype_discipline ⟨1, 1000, true, none, none, none⟩ ConnState.internal
    (fun _ => Env.plain 2) s (lit "lpush")
    [lit "k", lit "x"] .lpush .list (by decide +kernel) rfl
      (by decide)).2 fun h => by cases h.1).2 hother

/-- `HMGET` of a string answers nil, where `HGET` reports the type. -/
theorem hmget_answers_nil :
    let s := boundedConn.node.sys
    let reply (name : Bytes) := (s.exec (fun _ => Env.plain 2)
      (dispatch ⟨1, 1000, true, none, none, none⟩ ConnState.internal name
        [lit "k", lit "f"])).1.1.reply
    OtherType .hash (s.world.store.raw.at 2 (lit "k")) ∧
      encodeReply false (reply (lit "hmget")) = lit "*1\r\n$-1\r\n" ∧
      encodeReply false (reply (lit "hget")) = writeError StoreErr.wrongType.text := by
  intro s reply
  exact ⟨⟨⟨.str (lit "x"), none⟩, by decide +kernel, by decide⟩, by decide +kernel,
    by decide +kernel⟩

end Inmem.L4
