import Inmem.L1Encoding.RespFrame
import Inmem.L4App.Conn

/-!
# What the dispatcher answers

Two things hold of every answer, whatever the store has returned to the command's
calls (`Shaped`):

* an error comes without the persist flag and does not close the connection;
* every simple string and error in it is a line, if the command's name is one and
  apart from the text of a failed file operation.

`dispatch_shaped` goes through all commands; the connection state changes in answers
that are no errors only.
-/
namespace Inmem.L4

open Inmem.Core Inmem.L1 Inmem.L1.Resp Inmem.L3

/-- The reply is an error. -/
def isError : Reply Empty → Bool
  | .error _ => true
  | _ => false

theorem isError_iff {r : Reply Empty} : isError r = true ↔ ∃ msg, r = .error msg := by
  cases r <;> simp [isError]

/-- The answer of a snapshot that could not be written. -/
def saveFailed (e : Bytes) : Reply Empty := err (lit "snapshot failed: " ++ e)

/-- The commands that write a snapshot. -/
def CmdName.saves : CmdName → Bool
  | .save | .bgsave => true
  | _ => false

/-- `saves`: the command writes a snapshot. -/
structure Shaped (saves : Prop) (name : Bytes) (o : Outcome) : Prop where
  sober : isError o.reply = true → o.persist = false ∧ o.quit = false
  neat : Line name → o.reply.Neat ∨ saves ∧ ∃ e, o.reply = saveFailed e

section
variable {saves : Prop} {name : Bytes}

/-! ## Answers -/

theorem shaped_read {reply : Reply Empty} (h : Line name → reply.Neat) :
    Shaped saves name (.r reply) :=
  ⟨fun _ => ⟨rfl, rfl⟩, fun hn => .inl (h hn)⟩

theorem shaped_plain {reply : Reply Empty} (h : reply.Neat) : Shaped saves name (.r reply) :=
  shaped_read fun _ => h

theorem shaped_maybe {reply : Reply Empty} (he : isError reply = false) (h : reply.Neat)
    (dirty : Bool) : Shaped saves name (.maybe reply dirty) :=
  ⟨fun h => absurd h (by simp [Outcome.maybe, he]), fun _ => .inl h⟩

theorem shaped_int (n : Int) (dirty : Bool) : Shaped saves name (.maybe (.int n) dirty) :=
  shaped_maybe rfl (by trivial) dirty

theorem shaped_bulk (b : Option Bytes) (dirty : Bool) :
    Shaped saves name (.maybe (.bulk b) dirty) := by
  cases b <;> exact shaped_maybe rfl (by trivial) dirty

theorem neat_ok : (Reply.ok : Reply Empty).Neat := (by decide : Line (lit "OK"))

theorem shaped_ok (dirty : Bool) : Shaped saves name (.maybe .ok dirty) :=
  shaped_maybe rfl neat_ok dirty

theorem shaped_err {msg : Bytes} (h : Line msg) : Shaped saves name (.r (err msg)) :=
  shaped_plain (line_append (by decide) h)

theorem shaped_wrongArgs {cmd : String} (h : Line (lit cmd)) : Shaped saves name (wrongArgs cmd) :=
  shaped_plain (line_append (line_append (by decide) h) (by decide))

theorem line_lossy {t : Bytes} : Line (fromUtf8Lossy t) ↔ Line t :=
  and_congr (not_congr (mem_fromUtf8Lossy (by decide) t))
    (not_congr (mem_fromUtf8Lossy (by decide) t))

theorem shaped_unknown : Shaped saves name (unknown name) :=
  shaped_read fun hn => line_append (line_append (by decide) (line_lossy.2 hn)) (by decide)

theorem shaped_storeErr (e : StoreErr) : Shaped saves name (.r (storeErr e)) := by
  have htext : Line e.text := by cases e <;> decide
  unfold storeErr
  split
  · exact shaped_plain htext
  · exact shaped_err htext

theorem shaped_orErr {α : Type} {res : Except StoreErr α} {ok : α → Outcome}
    (h : ∀ a, Shaped saves name (ok a)) : Shaped saves name (orErr res ok) := by
  cases res with
  | ok a => exact h a
  | error e => exact shaped_storeErr e

theorem shaped_intOrErr (res : Except StoreErr Nat) : Shaped saves name (intOrErr res) :=
  shaped_orErr fun n => shaped_int n false

theorem shaped_notInteger : Shaped saves name notInteger := shaped_err (by decide)

theorem neat_bulks (items : List Bytes) : (bulks items).Neat :=
  neatItems_iff.2 fun r hr => by obtain ⟨b, -, rfl⟩ := List.mem_map.1 hr; trivial

theorem shaped_popReply (counted : Bool) (items : List Bytes) :
    Shaped saves name (popReply counted items) := by
  unfold popReply
  cases counted with
  | false => exact shaped_bulk _ _
  | true =>
    cases items with
    | nil => exact shaped_maybe rfl (show (Reply.nullArray : Reply Empty).Neat from trivial) _
    | cons x xs => exact shaped_maybe rfl (neat_bulks _) _

theorem shaped_commandMeta (args : List Bytes) : Shaped saves name (commandMeta args) := by
  unfold commandMeta
  split
  · split
    · exact shaped_int 0 false
    · exact shaped_plain (show (Reply.array [] : Reply Empty).Neat from trivial)
  · exact shaped_plain (show (Reply.array [] : Reply Empty).Neat from trivial)

theorem shaped_configCmd (cfg : Config) (args : List Bytes) :
    Shaped saves name (configCmd cfg args) := by
  have hok : Shaped saves name (.r .ok) := shaped_ok false
  unfold configCmd
  split
  · split
    · refine shaped_plain (neatItems_iff.2 fun r hr => ?_)
      obtain ⟨param, -, hr⟩ := List.mem_flatMap.1 hr
      unfold configParam at hr
      dsimp only at hr
      split at hr
      · rcases List.mem_cons.1 hr with rfl | hr
        · trivial
        · rw [List.mem_singleton.1 hr]; trivial
      · cases hr
    · exact hok
  · exact hok

end

/-! ## Commands -/

section
variable {σ : Type} {saves : Prop} {name : Bytes}

/-- Every answer of the program is shaped. -/
abbrev Shapes (saves : Prop) (name : Bytes) (p : Cmd σ Outcome) : Prop :=
  p.All (fun _ => True) (Shaped saves name)

/-- One operation, and its answer. -/
theorem shapes_one {k : Bytes} {op : KeyOp σ} {f : op.Res → Outcome}
    (h : ∀ r, Shaped saves name (f r)) : Shapes saves name (onKey k op >>= fun r => return f r) :=
  ⟨trivial, h⟩

theorem setOptions_shaped (now : Nat) :
    ∀ (args : List Bytes) (opts : SetOptions) (get : Bool) (o : Outcome),
    setOptions now args opts get = .error o → Shaped saves name o
  | [], _, _, _, h => by cases h
  | [a], opts, get, o, h => by
    simp only [setOptions] at h
    repeat' (split at h)
    all_goals first
      | cases h; done
      | cases h; exact shaped_notInteger
      | cases h; exact shaped_err (by decide)
  | a :: b :: rest, opts, get, o, h => by
    simp only [setOptions] at h
    split at h
    · exact setOptions_shaped now (b :: rest) _ _ o h
    split at h
    · exact setOptions_shaped now (b :: rest) _ _ o h
    split at h
    · exact setOptions_shaped now (b :: rest) _ _ o h
    split at h
    · exact setOptions_shaped now (b :: rest) _ _ o h
    split at h
    · split at h
      · cases h; exact shaped_notInteger
      · exact setOptions_shaped now rest _ _ o h
    · cases h; exact shaped_err (by decide)

theorem setWith_shapes (k v : Bytes) (opts : SetOptions) (get : Bool) :
    Shapes saves name (setWith k v opts get : Cmd σ Outcome) := by
  unfold setWith
  cases get with
  | true =>
    refine ⟨trivial, fun old => ?_⟩
    cases old with
    | error e => exact shaped_storeErr e
    | ok old => exact ⟨trivial, fun did => shaped_bulk old did⟩
  | false =>
    refine ⟨trivial, fun did => ?_⟩
    cases did with
    | true => exact shaped_ok true
    | false => exact shaped_bulk none false

theorem setCmd_shapes (args : List Bytes) : Shapes saves name (setCmd args : Cmd σ Outcome) := by
  unfold setCmd
  split
  · rename_i k v rest
    simp only [ask, Prog.call_bind, Prog.pure_bind]
    refine ⟨trivial, fun now => ?_⟩
    beta_reduce
    cases ho : setOptions now rest {} false with
    | error o => exact setOptions_shaped now rest {} false o ho
    | ok r => exact setWith_shapes k v r.1 r.2
  · exact shaped_wrongArgs (by decide)

theorem getsetCmd_shapes (k v : Bytes) : Shapes saves name (getsetCmd k v : Cmd σ Outcome) := by
  refine ⟨trivial, fun old => ?_⟩
  cases old with
  | error e => exact shaped_storeErr e
  | ok old => exact ⟨trivial, fun _ => shaped_bulk old true⟩

theorem setexCmd_shapes (args : List Bytes) (ms : Bool) :
    Shapes saves name (setexCmd args ms : Cmd σ Outcome) := by
  unfold setexCmd
  split
  · split
    · exact shaped_notInteger
    · split
      · exact shaped_err (by decide)
      · exact ⟨trivial, fun _ => ⟨trivial, fun _ => shaped_ok true⟩⟩
  · cases ms <;> exact shaped_wrongArgs (by decide)

theorem msetCmd_shapes (args : List Bytes) : Shapes saves name (msetCmd args : Cmd σ Outcome) := by
  unfold msetCmd
  exact .ite (shaped_wrongArgs (by decide)) ((Prog.all_trivial _).bind fun _ _ => shaped_ok true)

/-- The items of `MGET` and `HMGET` are bulk strings. -/
theorem mgetLoop_neat (ks : List Bytes) :
    (mgetLoop ks : Cmd σ _).All (fun _ => True) Reply.NeatItems := by
  induction ks with
  | nil => trivial
  | cons k ks ih =>
    exact ⟨trivial, fun v => ih.bind fun items hi =>
      ⟨by cases v.toOption.getD none <;> trivial, hi⟩⟩

theorem hmgetLoop_neat (k : Bytes) (fs : List Bytes) :
    (hmgetLoop k fs : Cmd σ _).All (fun _ => True) Reply.NeatItems := by
  induction fs with
  | nil => trivial
  | cons f fs ih =>
    exact ⟨trivial, fun v => ih.bind fun items hi =>
      ⟨by cases v.toOption.getD none <;> trivial, hi⟩⟩

theorem incrKey_shapes (k : Bytes) (delta : Int) :
    Shapes saves name (incrKey k delta : Cmd σ Outcome) :=
  shapes_one fun _ => shaped_orErr fun n => shaped_int n true

theorem incrCmd_shapes (args : List Bytes) (fixed : Int) (by_ : Bool) :
    Shapes saves name (incrCmd name args fixed by_ : Cmd σ Outcome) := by
  unfold incrCmd
  split
  · split
    · split
      · exact shaped_notInteger
      · exact .ite (.ite (incrKey_shapes ..) (shaped_err (by decide))) (incrKey_shapes ..)
    · exact shaped_wrongArgs (by decide)
  · split
    · exact incrKey_shapes ..
    · exact shaped_wrongArgs (by decide)

theorem pushCmd_shapes (args : List Bytes) (left : Bool) :
    Shapes saves name (pushCmd args left : Cmd σ Outcome) := by
  unfold pushCmd
  split
  · exact shapes_one fun _ => shaped_orErr fun n => shaped_int n true
  · cases left <;> exact shaped_wrongArgs (by decide)

theorem popCmd_shapes (args : List Bytes) (left : Bool) :
    Shapes saves name (popCmd args left : Cmd σ Outcome) := by
  unfold popCmd
  split
  · exact shapes_one fun _ => shaped_orErr fun items => shaped_popReply _ _
  · split
    · exact .ite (shapes_one fun _ => shaped_orErr fun items => shaped_popReply _ _)
        (shaped_err (by decide))
    · exact shaped_err (by decide)
  · cases left <;> exact shaped_wrongArgs (by decide)

theorem lrangeCmd_shapes (k start stop : Bytes) :
    Shapes saves name (lrangeCmd k start stop : Cmd σ Outcome) := by
  unfold lrangeCmd
  split
  · exact shapes_one fun _ => shaped_orErr fun items => shaped_plain (neat_bulks items)
  · exact shaped_notInteger

theorem hsetCmd_shapes (args : List Bytes) (hmset : Bool) :
    Shapes saves name (hsetCmd args hmset : Cmd σ Outcome) := by
  unfold hsetCmd
  split
  · refine .ite (by cases hmset <;> exact shaped_wrongArgs (by decide))
      (shapes_one fun _ => shaped_orErr fun n => ?_)
    cases hmset with
    | true => exact shaped_ok true
    | false => exact shaped_int n true
  · cases hmset <;> exact shaped_wrongArgs (by decide)

theorem hgetallCmd_shapes (st : ConnState) (k : Bytes) :
    Shapes saves name (hgetallCmd st k : Cmd σ Outcome) := by
  refine shapes_one fun _ => shaped_orErr fun pairs => ?_
  split
  · refine shaped_plain (neatPairs_iff.2 fun p hp => ?_)
    obtain ⟨q, -, rfl⟩ := List.mem_map.1 hp
    exact ⟨trivial, trivial⟩
  · refine shaped_plain (neatItems_iff.2 fun r hr => ?_)
    obtain ⟨q, -, hr⟩ := List.mem_flatMap.1 hr
    rcases List.mem_cons.1 hr with rfl | hr
    · trivial
    · rw [List.mem_singleton.1 hr]; trivial

theorem hkeysValsCmd_shapes (k : Bytes) (keys : Bool) :
    Shapes saves name (hkeysValsCmd k keys : Cmd σ Outcome) :=
  shapes_one fun _ => shaped_orErr fun _ => shaped_plain (neat_bulks _)

theorem expireCmd_shapes (args : List Bytes) (unit : Nat) (absolute : Bool) :
    Shapes saves name (expireCmd args unit absolute : Cmd σ Outcome) := by
  unfold expireCmd
  split
  · rename_i k n rest
    split
    · exact shaped_notInteger
    · refine ⟨trivial, fun live => ?_⟩
      refine .ite (shaped_int 0 false) ⟨trivial, fun now => ?_⟩
      cases rest with
      | nil => exact ⟨trivial, fun _ => shaped_int 1 true⟩
      | cons flag flags =>
        refine ⟨trivial, fun cur => ?_⟩
        dsimp only [Prog.bind]
        split
        · exact shaped_err (by decide)
        · exact shaped_int 0 false
        · exact ⟨trivial, fun _ => shaped_int 1 true⟩
  · exact shaped_wrongArgs (by decide)

theorem persistCmd_shapes (k : Bytes) : Shapes saves name (persistCmd k : Cmd σ Outcome) := by
  refine ⟨trivial, fun cur => ?_⟩
  cases cur with
  | millis ms => exact ⟨trivial, fun _ => shaped_int 1 true⟩
  | _ => exact shaped_int 0 false

theorem ttlCmd_shapes (args : List Bytes) (seconds : Bool) :
    Shapes saves name (ttlCmd args seconds : Cmd σ Outcome) := by
  unfold ttlCmd
  split
  · exact shapes_one fun _ => shaped_int _ false
  · exact shaped_wrongArgs (by decide)

theorem countKeys_shapes (op : KeyOp σ) (yes : op.Res → Bool) (ks : List Bytes)
    (dirty : Nat → Bool) :
    Shapes saves name (countKeys op yes ks >>= fun n => return .maybe (.int n) (dirty n)) :=
  (Prog.all_trivial _).bind fun n _ => shaped_int n (dirty n)

end

section
variable {σ : Type} [Score σ] {saves : Prop} {name : Bytes}

theorem zaddCmd_shapes (args : List Bytes) : Shapes saves name (zaddCmd args : Cmd σ Outcome) := by
  unfold zaddCmd
  split
  · refine .ite (shaped_wrongArgs (by decide)) ?_
    split
    · exact shaped_err (by decide)
    · exact shapes_one fun _ => shaped_orErr fun n => shaped_int n true
  · exact shaped_wrongArgs (by decide)

theorem zrangeCmd_shapes (k start stop : Bytes) (rest : List Bytes) :
    Shapes saves name (zrangeCmd k start stop rest : Cmd σ Outcome) := by
  unfold zrangeCmd
  split
  · refine shapes_one fun _ => shaped_orErr fun items =>
      shaped_plain (neatItems_iff.2 fun r hr => ?_)
    obtain ⟨q, -, hr⟩ := List.mem_flatMap.1 hr
    split at hr
    · rcases List.mem_cons.1 hr with rfl | hr
      · trivial
      · rw [List.mem_singleton.1 hr]; trivial
    · rw [List.mem_singleton.1 hr]; trivial
  · exact shaped_notInteger

theorem storeCmd_shapes (cfg : Config) (st : ConnState) (args : List Bytes) (c : CmdName) :
    Shapes (c.saves = true) name (storeCmd cfg st name args c : Cmd σ Outcome) := by
  cases c with
  | set => exact setCmd_shapes args
  | setex => exact setexCmd_shapes args false
  | psetex => exact setexCmd_shapes args true
  | mset => exact msetCmd_shapes args
  | incr => exact incrCmd_shapes args 1 false
  | decr => exact incrCmd_shapes args (-1) false
  | incrby => exact incrCmd_shapes args 0 true
  | decrby => exact incrCmd_shapes args 0 true
  | lpush => exact pushCmd_shapes args true
  | rpush => exact pushCmd_shapes args false
  | lpop => exact popCmd_shapes args true
  | rpop => exact popCmd_shapes args false
  | hset => exact hsetCmd_shapes args false
  | hmset => exact hsetCmd_shapes args true
  | zadd => exact zaddCmd_shapes args
  | expire => exact expireCmd_shapes args 1000 false
  | pexpire => exact expireCmd_shapes args 1 false
  | expireat => exact expireCmd_shapes args 1000 true
  | pexpireat => exact expireCmd_shapes args 1 true
  | ttl => exact ttlCmd_shapes args true
  | pttl => exact ttlCmd_shapes args false
  | command => exact shaped_commandMeta args
  | config => exact shaped_configCmd cfg args
  | quit => exact Shaped.mk (fun h => absurd h (by decide)) fun _ => .inl neat_ok
  | select => exact shaped_ok false
  | ping =>
    simp only [storeCmd]
    split
    · exact shaped_plain (by decide : Line (lit "PONG"))
    · exact shaped_bulk _ false
    · exact shaped_wrongArgs (by decide)
  | info => exact ⟨trivial, fun _ => ⟨trivial, fun _ => shaped_bulk _ false⟩⟩
  | dbsize => exact ⟨trivial, fun n => shaped_int n false⟩
  | flushall | flushdb => exact ⟨trivial, fun _ => shaped_ok true⟩
  | save | bgsave =>
    refine ⟨trivial, fun res => ?_⟩
    cases res with
    | ok _ => exact shaped_ok false
    | error e => exact ⟨fun _ => ⟨rfl, rfl⟩, fun _ => .inr ⟨rfl, e, rfl⟩⟩
  | hello | auth | client => exact shaped_unknown
  | echo =>
    simp only [storeCmd]
    split
    · exact shaped_bulk _ false
    · exact shaped_unknown
  | getset =>
    simp only [storeCmd]
    split
    · exact getsetCmd_shapes _ _
    · exact shaped_unknown
  | setnx =>
    simp only [storeCmd]
    split
    · exact shapes_one fun did => shaped_int _ did
    · exact shaped_unknown
  | get | hget | zscore =>
    simp only [storeCmd]
    split
    · exact shapes_one fun _ => shaped_orErr fun v => shaped_bulk _ false
    · exact shaped_unknown
  | strlen | llen | hlen | scard | zcard =>
    simp only [storeCmd]
    split
    · exact shapes_one fun res => shaped_intOrErr res
    · exact shaped_unknown
  | append | hdel | hexists | sadd | srem | sismember | zrem =>
    simp only [storeCmd]
    split
    · exact shapes_one fun _ => shaped_orErr fun n => shaped_int _ _
    · exact shaped_unknown
  | mget =>
    simp only [storeCmd]
    split
    · exact shaped_unknown
    · exact (mgetLoop_neat args).bind fun items hi => shaped_plain (hi : (Reply.array items).Neat)
  | hmget =>
    simp only [storeCmd]
    split
    · exact (hmgetLoop_neat _ _).bind fun items hi => shaped_plain (hi : (Reply.array items).Neat)
    · exact shaped_unknown
  | lrange =>
    simp only [storeCmd]
    split
    · exact lrangeCmd_shapes _ _ _
    · exact shaped_unknown
  | hgetall =>
    simp only [storeCmd]
    split
    · exact hgetallCmd_shapes st _
    · exact shaped_unknown
  | hkeys | hvals =>
    simp only [storeCmd]
    split
    · exact hkeysValsCmd_shapes _ _
    · exact shaped_unknown
  | smembers =>
    simp only [storeCmd]
    split
    · exact shapes_one fun _ => shaped_orErr fun ms => shaped_plain (neat_bulks ms)
    · exact shaped_unknown
  | zrange =>
    simp only [storeCmd]
    split
    · exact zrangeCmd_shapes _ _ _ _
    · exact shaped_unknown
  | del | unlink =>
    simp only [storeCmd]
    split
    · exact shaped_unknown
    · exact countKeys_shapes .del id args fun n => decide (0 < n)
  | «exists» =>
    simp only [storeCmd]
    split
    · exact shaped_unknown
    · exact countKeys_shapes .exists id args fun _ => false
  | type =>
    simp only [storeCmd]
    split
    · exact shapes_one fun t => shaped_plain (by cases t <;> decide : Line t.text)
    · exact shaped_unknown
  | persist =>
    simp only [storeCmd]
    split
    · exact persistCmd_shapes _
    · exact shaped_unknown
  | keys =>
    simp only [storeCmd]
    split
    · exact ⟨trivial, fun ks => shaped_plain (neat_bulks _)⟩
    · exact shaped_unknown
  | scan =>
    simp only [storeCmd]
    split
    · exact ⟨trivial, fun ks => shaped_plain ⟨trivial, neat_bulks _, trivial⟩⟩
    · exact shaped_unknown

/-! ## The dispatcher -/

/-- An error leaves the connection state. -/
def KeepsState (st : ConnState) (r : Outcome × ConnState) : Prop :=
  isError r.1.reply = true → r.2 = st

theorem hello_shaped (st : ConnState) (args : List Bytes) :
    Shaped saves name (hello st args).1 ∧ KeepsState st (hello st args) := by
  have hmap : ∀ st', (helloMap st').Neat := fun st' => neatPairs_iff.2 (by
    intro p hp
    simp only [List.mem_cons, List.not_mem_nil, or_false] at hp
    obtain rfl | rfl | rfl | rfl | rfl | rfl | rfl := hp <;> exact ⟨trivial, trivial⟩)
  unfold hello
  split
  · exact ⟨shaped_plain (hmap st), fun _ => rfl⟩
  · split
    · exact ⟨shaped_plain (hmap _), fun h => absurd h Bool.false_ne_true⟩
    · exact ⟨shaped_plain (hmap _), fun h => absurd h Bool.false_ne_true⟩
    · exact ⟨shaped_plain (by decide : Line (lit "NOPROTO unsupported protocol version")),
        fun _ => rfl⟩

theorem auth_shaped (cfg : Config) (st : ConnState) (args : List Bytes) :
    Shaped saves name (auth cfg st args).1 ∧ KeepsState st (auth cfg st args) := by
  -- the answer to a password
  have hcheck : ∀ pass : Bytes, Shaped saves name (auth cfg st [pass]).1 ∧
      KeepsState st (auth cfg st [pass]) := by
    intro pass
    simp only [auth]
    split
    · exact ⟨shaped_err (by decide), fun _ => rfl⟩
    · split
      · exact ⟨shaped_ok false, fun h => absurd h Bool.false_ne_true⟩
      · exact ⟨shaped_plain (by decide : Line (lit "WRONGPASS invalid username-password pair")),
          fun _ => rfl⟩
  match args with
  | [pass] => exact hcheck pass
  | [_, pass] => exact hcheck pass
  | [] | _ :: _ :: _ :: _ => exact ⟨shaped_wrongArgs (by decide), fun _ => rfl⟩

theorem clientCmd_shaped (st : ConnState) (args : List Bytes) :
    Shaped saves name (clientCmd st args).1 ∧ KeepsState st (clientCmd st args) := by
  unfold clientCmd
  split
  · exact ⟨shaped_wrongArgs (by decide), fun _ => rfl⟩
  · dsimp only
    split
    · exact ⟨shaped_ok false, fun h => absurd h Bool.false_ne_true⟩
    split
    · exact ⟨shaped_bulk _ false, fun _ => rfl⟩
    split
    · exact ⟨shaped_int _ false, fun _ => rfl⟩
    split
    · exact ⟨shaped_bulk _ false, fun _ => rfl⟩
    · exact ⟨shaped_ok false, fun _ => rfl⟩

/-- Every answer of the dispatcher. -/
theorem dispatch_shaped (cfg : Config) (st : ConnState) (name : Bytes) (args : List Bytes) :
    (dispatch cfg st name args : Cmd σ _).All (fun _ => True) fun r =>
      Shaped (∃ c, CmdName.ofName (upperName name) = some c ∧ c.saves = true) name r.1 ∧
        KeepsState st r := by
  unfold dispatch
  split
  · exact ⟨shaped_unknown, fun _ => rfl⟩
  · exact hello_shaped st args
  · exact auth_shaped cfg st args
  · exact clientCmd_shaped st args
  · rename_i c _ _ _ hc
    exact (storeCmd_shapes cfg st args c).bind fun o ho =>
      ⟨⟨ho.sober, fun hn => (ho.neat hn).imp_right fun ⟨hs, he⟩ => ⟨⟨c, hc, hs⟩, he⟩⟩, fun _ => rfl⟩

end

end Inmem.L4
