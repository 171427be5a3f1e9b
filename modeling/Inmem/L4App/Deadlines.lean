import Inmem.L3Store.Ranges
import Inmem.L3Store.Unchanged
import Inmem.L4App.Effects
import Inmem.L4App.SetOptions

/-!
# The deadlines that commands store

Ten commands take an amount of time from the client and store a deadline. `asked` reads
off the arguments what they ask for: a number `n` of units, from now or from the epoch
(`Ask`), and whether `SET` is also told to keep the deadline the key has.
`Ask.want` is the deadline that is meant, a natural number; the code computes it in `u64`
and `PTTL` casts what remains to `i64`.

The store may have a memory limit. The calls that store no value run no eviction pass,
so on every store they do what the specification says (`calm_key`); a `SET` may drop
its own key afterwards (`call_set`).

* `stored_deadline`: what a command that succeeds has stored;
* `deadlines_exact`: it is the deadline that is meant, and `PTTL` reports what remains,
  exactly when nothing was kept in its place, it fits a `u64`, and what remains fits an
  `i64`.
-/
namespace Inmem.L4

open Inmem.Core Inmem.L1 Inmem.L1.Resp Inmem.L3

/-! ## What a command asks for -/

/-- The last expiry option among the words of a `SET`, and whether `KEEPTTL` is one of them. -/
def setExpiry : List Bytes → Option Ask → Bool → Option Ask × Bool
  | [], ask, keep => (ask, keep)
  | [a], ask, keep => (ask, keep || optionWord a == lit "KEEPTTL")
  | a :: b :: rest, ask, keep =>
    match expiryWord (optionWord a) with
    | some u => setExpiry rest ((parseI64 b).map fun n => ⟨n, u.1, u.2⟩) keep
    | none => setExpiry (b :: rest) ask (keep || optionWord a == lit "KEEPTTL")

/-- The key whose deadline a command is to set, what it asks for, and whether it is told
to keep the deadline the key has. -/
def asked (name : Bytes) (args : List Bytes) : Option (Bytes × Ask × Bool) :=
  match CmdName.ofName (upperName name), args with
  | some .set, k :: _ :: words =>
    (setExpiry words none false).1.map fun a => (k, a, (setExpiry words none false).2)
  | some .setex, [k, n, _] => (parseI64 n).map fun n => (k, ⟨n, 1000, false⟩, false)
  | some .psetex, [k, n, _] => (parseI64 n).map fun n => (k, ⟨n, 1, false⟩, false)
  | some .expire, k :: n :: _ => (parseI64 n).map fun n => (k, ⟨n, 1000, false⟩, false)
  | some .pexpire, k :: n :: _ => (parseI64 n).map fun n => (k, ⟨n, 1, false⟩, false)
  | some .expireat, k :: n :: _ => (parseI64 n).map fun n => (k, ⟨n, 1000, true⟩, false)
  | some .pexpireat, k :: n :: _ => (parseI64 n).map fun n => (k, ⟨n, 1, true⟩, false)
  | _, _ => none

/-- The argument that an amount of time was read from. -/
theorem Ask.of_map {β : Type} {k k' n : Bytes} {unit : Nat} {absolute : Bool} {y y' : β} {a : Ask}
    (h : (parseI64 n).map (fun n => (k', Ask.mk n unit absolute, y)) = some (k, a, y')) :
    ∃ m, parseI64 n = some m ∧ k' = k ∧ Ask.mk m unit absolute = a ∧ y = y' := by
  obtain ⟨m, hm, he⟩ := Option.map_eq_some_iff.1 h
  cases he
  exact ⟨m, hm, rfl, rfl, rfl⟩

/-- What the option loop of `SET` makes of its words. -/
theorem setOptions_expiry (now : Nat) (words : List Bytes) {r : SetOptions × Bool}
    (h : setOptions now words {} false = .ok r) :
    r.1.expireAt = (setExpiry words none false).1.map (fun a => a.want now % 2 ^ 64) ∧
      r.1.keepTtl = (setExpiry words none false).2 := by
  have hinv : ∃ ask : Option Ask, r.1.expireAt = ask.map (fun a => a.want now % 2 ^ 64) ∧
      setExpiry [] ask r.1.keepTtl = setExpiry words none false := by
    -- the words that are left ask, on top of what was read, for what all the words ask for
    refine setOptions_inv now (I := fun rest q => ∃ ask : Option Ask,
      q.1.expireAt = ask.map (fun a => a.want now % 2 ^ 64) ∧
        setExpiry rest ask q.1.keepTtl =
          setExpiry words none false) ?_ ?_ words {} false ⟨none, rfl, rfl⟩ h
    · intro a rest q q' hq hword
      obtain ⟨ask, h1, h2⟩ := hq
      obtain ⟨h0, he, -, hk⟩ := plainWord_spec hword
      refine ⟨ask, he.trans h1, ?_⟩
      rw [hk, ← h2]
      cases rest with
      | nil => rfl
      | cons b rest => rw [setExpiry, h0]
    · intro a b rest opts get u n hq hu hn
      obtain ⟨ask, -, h2⟩ := hq
      refine ⟨some ⟨n, u.1, u.2⟩, rfl, ?_⟩
      rw [← h2, setExpiry, hu, hn]
      rfl
  obtain ⟨ask, h1, h2⟩ := hinv
  rw [← h2]
  exact ⟨h1, rfl⟩

/-! ## On any store -/

section
variable {σ : Type} [Score σ]

/-- The keyspace of a system. -/
def Sys.raw (s : Sys σ) : View σ := s.world.store.raw

/-- A command with a write does on the store what the program of the write does. -/
theorem Runs.exec {α : Type} {p : Cmd σ α} {flag : α → Bool} {w : Write σ}
    (hp : Runs p flag (some w)) (E : Surroundings) (s : Sys σ) :
    s.exec E w.prog = (flag (s.exec E p).1, (s.exec E p).2) := by
  have hp : flagged p flag = w.prog := hp
  rw [← hp, flagged, Sys.exec, Prog.run_bind]
  rfl

/-- A command without one is not logged. -/
theorem Runs.exec_none {α : Type} {p : Cmd σ α} {flag : α → Bool} (hp : Runs p flag none)
    (E : Surroundings) (s : Sys σ) : flag (s.exec E p).1 = false :=
  (Prog.all_run (Sys.call E) (fun _ => True) (fun _ _ _ _ => trivial) hp (s := s) trivial).1

theorem exec_now {α : Type} (E : Surroundings) (f : Nat → Cmd σ α) (s : Sys σ) :
    s.exec E (ask .nowMs >>= f) = Sys.exec E (f (E.clock s.tick)) ⟨s.world, s.tick + 1⟩ := rfl

theorem exec_key {α : Type} (E : Surroundings) (k : Bytes) (op : KeyOp σ) (f : op.Res → Cmd σ α)
    (s : Sys σ) :
    s.exec E (onKey k op >>= f) = (s.call E (.key k op)).2.exec E (f (s.call E (.key k op)).1) :=
  rfl

/-- An operation that stores no value, and whose answer the keyspace determines. -/
def Calm : Call σ → Prop
  | .key k op => op.modifies = false ∧ (Call.key k op).Det
  | .nowMs => True
  | _ => False

theorem calm_key (k : Bytes) (op : KeyOp σ) (h : Calm (.key k op)) (E : Surroundings) (s : Sys σ) :
    (s.call E (.key k op)).1 = (op.spec (E.clock s.tick) (liveAt (E.clock s.tick) (s.raw k))).1 ∧
      (s.call E (.key k op)).2.raw =
        s.raw.put k (op.spec (E.clock s.tick) (liveAt (E.clock s.tick) (s.raw k))).2 := by
  refine ⟨?_, Store.raw_set (Shard.exec_upd (E s.tick) h.1)⟩
  have hsame := (Shard.exec_effect (E s.tick) k op (s.world.store.shard k)).1
  have hdet := h.2
  cases op <;> first | exact hsame | exact hdet.elim

/-- The store and the keyspace are in step. -/
structure InStep (s : Sys σ) (v : View σ × Nat) : Prop where
  raw : s.raw = v.1
  tick : s.tick = v.2

theorem call_inStep (E : Surroundings) (c : Call σ) (s : Sys σ) (v : View σ × Nat) (hc : Calm c)
    (h : InStep s v) :
    (s.call E c).1 = (viewCall E.clock c v).1 ∧ InStep (s.call E c).2 (viewCall E.clock c v).2 := by
  obtain ⟨v, i⟩ := v
  obtain ⟨rfl, rfl⟩ := h
  cases c with
  | key k op => exact ⟨(calm_key k op hc E s).1, (calm_key k op hc E s).2, rfl⟩
  | nowMs => exact ⟨rfl, rfl, rfl⟩
  | _ => exact hc.elim

omit [Score σ] in
/-- `EXPIRE` and its relatives store no value. -/
theorem expire_calm (k : Bytes) (n : Int) (unit : Nat) (absolute : Bool) (flag : Option Bytes) :
    (Write.expire k n unit absolute flag : Write σ).prog.All Calm fun _ => True := by
  refine ⟨⟨rfl, trivial⟩, fun live => ?_⟩
  cases live with
  | false => trivial
  | true =>
    refine ⟨trivial, fun now => ?_⟩
    cases flag with
    | none => exact ⟨⟨rfl, trivial⟩, fun _ => trivial⟩
    | some flag =>
      exact ⟨⟨rfl, trivial⟩, fun cur => Prog.All.ite ⟨⟨rfl, trivial⟩, fun _ => trivial⟩ trivial⟩

/-- So they do on every store what they do on its keyspace. -/
theorem expire_exec (E : Surroundings) (k : Bytes) (n : Int) (unit : Nat) (absolute : Bool)
    (flag : Option Bytes) (s : Sys σ) :
    (s.exec E (Write.expire k n unit absolute flag).prog).1 =
        ((Write.expire k n unit absolute flag : Write σ).run E.clock s.raw s.tick).1 ∧
      (s.exec E (Write.expire k n unit absolute flag).prog).2.raw =
        ((Write.expire k n unit absolute flag : Write σ).run E.clock s.raw s.tick).2.1 := by
  obtain ⟨h1, h2⟩ :=
    Prog.run_sim (Sys.call E) (viewCall E.clock) InStep (fun c s v hc h => call_inStep E c s v hc h)
    (expire_calm k n unit absolute flag) (s := s) (t := (s.raw, s.tick)) ⟨rfl, rfl⟩
  exact ⟨h1, h2.raw⟩

/-- `set` answers whether it went ahead; if the key is there afterwards, it holds the new record. -/
theorem call_set (E : Surroundings) (k x : Bytes) (opts : SetOptions) (s : Sys σ)
    (hdid : (s.call E (.key k (.set x opts))).1 = true) {y : Rec σ}
    (hy : (s.call E (.key k (.set x opts))).2.raw k = some y) :
    y.deadline = opts.deadline (liveAt (E.clock s.tick) (s.raw k)) := by
  obtain ⟨hres, heff⟩ := Shard.exec_effect (E s.tick) k (.set x opts) (s.world.store.shard k)
  have hallow : ((KeyOp.set x opts).spec (E.clock s.tick) (liveAt (E.clock s.tick) (s.raw k))).1 =
      true :=
    hres.symm.trans hdid
  have hraw : ((KeyOp.set x opts).exec (E s.tick) k (s.world.store.shard k)).2.raw k = some y :=
    (Store.withShard_raw k _).symm.trans hy
  rcases heff.raw k with h | h
  · rw [View.put_self, hraw] at h
    have h :
        some y = ((KeyOp.set x opts).spec (E.clock s.tick) (liveAt (E.clock s.tick) (s.raw k))).2 :=
          h
    simp only [KeyOp.spec] at h hallow
    split at h
    · cases h; rfl
    · rename_i hno; rw [if_neg hno] at hallow; cases hallow
  · rw [hraw] at h; cases h

/-! ## What is stored -/

/-- The deadline that a command leaves at a key with the live record `r`. -/
def Ask.leaves (a : Ask) (keep : Bool) (now : Nat) (r : Option (Rec σ)) : Option Nat :=
  SetOptions.deadline { keepTtl := keep, expireAt := some (a.want now % 2 ^ 64) } r

variable {E : Surroundings} {now : Nat} {s : Sys σ} {k : Bytes} {a : Ask}

theorem setTail_leaves (hclock : ∀ i, E.clock i = now) {v : Bytes} {opts : SetOptions} {get : Bool}
    (hok : (s.exec E (Write.setTail k v opts get)).1 = true) {x : Rec σ}
    (hx : (s.exec E (Write.setTail k v opts get)).2.raw k = some x) :
    x.deadline = opts.deadline (liveAt now (s.raw k)) := by
  cases get with
  | false =>
    rw [← hclock s.tick]
    exact call_set E k v opts s hok hx
  | true =>
    obtain ⟨-, hraw⟩ := calm_key k .get ⟨rfl, trivial⟩ E s
    rw [hclock] at hraw
    rw [Write.setTail, if_pos rfl, exec_key] at hok hx
    generalize hs' : (s.call E (.key k .get)).2 = s' at hok hx hraw
    generalize (s.call E (.key k .get)).1 = old at hok hx
    cases old with
    | error e => cases hok
    | ok old =>
      have h := call_set E k v opts s' hok hx
      rw [hraw, View.put_self, hclock] at h
      have hlive : liveAt now (liveAt now (s.raw k)) = liveAt now (s.raw k) :=
        liveAt_liveAt le_rfl _
      exact h.trans (congrArg opts.deadline hlive)

theorem set_leaves (hclock : ∀ i, E.clock i = now) {v : Bytes} {words : List Bytes} {keep : Bool}
    (hask : setExpiry words none false = (some a, keep))
    (hok : (s.exec E (Write.set k v words).prog).1 = true) {x : Rec σ}
    (hx : (s.exec E (Write.set k v words).prog).2.raw k = some x) :
    x.deadline = a.leaves keep now (liveAt now (s.raw k)) := by
  rw [Write.prog, exec_now, hclock] at hok hx
  cases ho : setOptions now words {} false with
  | error o => rw [ho] at hok; cases hok
  | ok r =>
    rw [ho] at hok hx
    obtain ⟨h1, h2⟩ := setOptions_expiry now words ho
    have h := setTail_leaves (s := ⟨s.world, s.tick + 1⟩) hclock hok hx
    rw [hask] at h1 h2
    have hraw : Sys.raw ⟨s.world, s.tick + 1⟩ = s.raw := rfl
    rw [h, hraw, Ask.leaves]
    cases liveAt now (s.raw k) with
    | none => exact h1
    | some y => simp only [SetOptions.deadline, h1, h2, Option.map_some]

/-- Without a condition a `SET` goes ahead. -/
theorem set_did (E : Surroundings) (k v : Bytes) (d : Option Nat) (s : Sys σ) :
    (s.call E (.key k (.set v { expireAt := d }))).1 = true :=
  (Shard.exec_effect (E s.tick) k (.set v { expireAt := d }) (s.world.store.shard k)).1

theorem setex_leaves (hclock : ∀ i, E.clock i = now) {v : Bytes} {n : Int} {unit : Nat} {x : Rec σ}
    (hx : (s.exec E (Write.setex k v n unit).prog).2.raw k = some x) :
    x.deadline = some ((now + n.toNat * unit) % 2 ^ 64) := by
  rw [Write.prog, exec_now, hclock, exec_key] at hx
  rw [call_set E k v _ _ (set_did E k v _ _) hx]
  cases liveAt (E.clock (s.tick + 1)) (Sys.raw ⟨s.world, s.tick + 1⟩ k) <;> rfl

theorem expire_leaves (hclock : ∀ i, E.clock i = now) {flag : Option Bytes}
    (hok : (s.exec E (Write.expire k a.n a.unit a.absolute flag).prog).1 = true) {x : Rec σ}
    (hx : (s.exec E (Write.expire k a.n a.unit a.absolute flag).prog).2.raw k = some x) :
    x.deadline = some (a.want now % 2 ^ 64) := by
  obtain ⟨h1, h2⟩ := expire_exec E k a.n a.unit a.absolute flag s
  rw [h1, Write.expire_run] at hok
  rw [h2, Write.expire_run] at hx
  by_cases hl : (liveAt (E.clock s.tick) (s.raw k)).isSome = true
  · rw [if_pos hl] at hok hx
    have hD : deadlineAfter (if a.absolute then 0 else E.clock (s.tick + 1)) a.n a.unit =
        a.want now % 2 ^ 64 := by
      rw [hclock]; rfl
    cases flag with
    | none =>
      rw [Write.expireTail_run_plain, hD] at hx
      dsimp only at hx
      rw [View.put_self] at hx
      obtain ⟨r, -, rfl⟩ := Option.map_eq_some_iff.1 hx
      rfl
    | some f =>
      rw [Write.expireTail_run_flag, hD] at hok hx
      split at hok
      · rename_i hf
        rw [if_pos hf] at hx
        dsimp only at hx
        rw [View.put_self] at hx
        obtain ⟨r, -, rfl⟩ := Option.map_eq_some_iff.1 hx
        rfl
      · cases hok
  · rw [if_neg hl] at hok; cases hok

omit [Score σ] in
theorem setexWrite_cases {n v : Bytes} {m : Int} (ms : Bool) (h : parseI64 n = some m) :
    (setexWrite [k, n, v] ms : Option (Write σ)) = none ∨
      (setexWrite [k, n, v] ms : Option (Write σ)) =
        some (.setex k v m (if ms then 1 else 1000)) := by
  simp only [setexWrite, h, Option.bind_some]
  split
  · exact .inl rfl
  · exact .inr rfl

omit [Score σ] in
theorem expireWrite_eq {n : Bytes} {rest : List Bytes} {unit : Nat} {absolute : Bool} {m : Int}
    (h : parseI64 n = some m) :
    (expireWrite (k :: n :: rest) unit absolute : Option (Write σ)) =
      some (.expire k m unit absolute rest.head?) := by
  rw [expireWrite, h, Option.map_some]

/-- The write behind a command that asks for a deadline. -/
theorem asked_write {name : Bytes} {args : List Bytes} {keep : Bool}
    (h : asked name args = some (k, a, keep)) :
    (writeCmd name args : Option (Write σ)) = none ∨
      (∃ v words, (writeCmd name args : Option (Write σ)) = some (.set k v words) ∧
        setExpiry words none false = (some a, keep)) ∨
      (∃ v, (writeCmd name args : Option (Write σ)) = some (.setex k v a.n a.unit) ∧
        a.absolute = false ∧ keep = false) ∨
      ∃ flag, (writeCmd name args : Option (Write σ)) =
        some (.expire k a.n a.unit a.absolute flag) ∧ keep = false := by
  unfold asked at h
  unfold writeCmd
  split at h
  · rename_i k' v words hname
    obtain ⟨m, hm, he⟩ := Option.map_eq_some_iff.1 h
    cases he
    rw [hname]
    exact .inr (.inl ⟨v, words, rfl, Prod.ext hm rfl⟩)
  · rename_i k' n v hname
    obtain ⟨m, hm, rfl, rfl, rfl⟩ := Ask.of_map h
    rw [hname]
    rcases setexWrite_cases false hm with h | h
    · exact .inl h
    · exact .inr (.inr (.inl ⟨v, h, rfl, rfl⟩))
  · rename_i k' n v hname
    obtain ⟨m, hm, rfl, rfl, rfl⟩ := Ask.of_map h
    rw [hname]
    rcases setexWrite_cases true hm with h | h
    · exact .inl h
    · exact .inr (.inr (.inl ⟨v, h, rfl, rfl⟩))
  -- the four relatives of `EXPIRE`
  · rename_i k' n rest hname
    obtain ⟨m, hm, rfl, rfl, rfl⟩ := Ask.of_map h
    rw [hname]
    exact .inr (.inr (.inr ⟨_, expireWrite_eq hm, rfl⟩))
  · rename_i k' n rest hname
    obtain ⟨m, hm, rfl, rfl, rfl⟩ := Ask.of_map h
    rw [hname]
    exact .inr (.inr (.inr ⟨_, expireWrite_eq hm, rfl⟩))
  · rename_i k' n rest hname
    obtain ⟨m, hm, rfl, rfl, rfl⟩ := Ask.of_map h
    rw [hname]
    exact .inr (.inr (.inr ⟨_, expireWrite_eq hm, rfl⟩))
  · rename_i k' n rest hname
    obtain ⟨m, hm, rfl, rfl, rfl⟩ := Ask.of_map h
    rw [hname]
    exact .inr (.inr (.inr ⟨_, expireWrite_eq hm, rfl⟩))
  · cases h

/-- What a command that succeeds has stored, if its key is there. -/
theorem stored_deadline (cfg : Config) (st : ConnState) {name : Bytes} {args : List Bytes}
    {keep : Bool} (hask : asked name args = some (k, a, keep)) (hclock : ∀ i, E.clock i = now)
    (hok : (s.exec E (dispatch cfg st name args)).1.1.persist = true) {x : Rec σ}
    (hx : (s.exec E (dispatch cfg st name args)).2.raw k = some x) :
    x.deadline = a.leaves keep now (liveAt now (s.raw k)) := by
  have hruns := dispatch_runs (σ := σ) cfg st name args
  -- without `KEEPTTL` the record that was there does not matter
  have hnew : x.deadline = some (a.want now % 2 ^ 64) → keep = false →
      x.deadline = a.leaves keep now (liveAt now (s.raw k)) := by
    intro h hk
    rw [h, hk, Ask.leaves]
    cases liveAt now (s.raw k) <;> rfl
  rcases asked_write (σ := σ) hask with hw | ⟨v, words, hw, hexp⟩ | ⟨v, hw, habs, hk⟩ |
    ⟨flag, hw, hk⟩
  · rw [hw] at hruns
    exact absurd hok (by rw [hruns.exec_none E s]; exact Bool.false_ne_true)
  · rw [hw] at hruns
    have hrun := hruns.exec E s
    exact set_leaves hclock hexp ((congrArg Prod.fst hrun).trans hok) (by rw [hrun]; exact hx)
  · rw [hw] at hruns
    have hrun := hruns.exec E s
    refine hnew ?_ hk
    rw [setex_leaves hclock (by rw [hrun]; exact hx), Ask.want, habs]
    rfl
  · rw [hw] at hruns
    have hrun := hruns.exec E s
    exact hnew
      (expire_leaves hclock ((congrArg Prod.fst hrun).trans hok) (by rw [hrun]; exact hx)) hk

/-! ## What `PTTL` reports -/

/-- On a live key with a deadline `PTTL` replies what remains, as an `i64`. -/
theorem pttl_reply (cfg : Config) (st : ConnState) (E : Surroundings) {x : Rec σ} {d : Nat}
    (hx : liveAt (E.clock s.tick) (s.raw k) = some x) (hd : x.deadline = some d) :
    (s.exec E (dispatch cfg st (lit "PTTL") [k])).1.1.reply =
      .int (wrapI64 ((d - E.clock s.tick : Nat) : Int)) := by
  have hans : (s.call E (.key k .pttl)).1 = .millis (d - E.clock s.tick) := by
    rw [(calm_key k .pttl ⟨rfl, trivial⟩ E s).1, hx]
    simp only [KeyOp.spec, Option.elim_some, hd]
  have hname : CmdName.ofName (upperName (lit "PTTL")) = some .pttl := by decide
  rw [dispatch, hname]
  dsimp only [storeCmd, ttlCmd, keep]
  rw [Prog.bind_assoc, exec_key, hans]
  rfl

/-- The cast to `i64` keeps a natural number exactly when it fits. -/
theorem wrapI64_nat {m : Nat} : wrapI64 (m : Int) = m ↔ m < 2 ^ 63 := by
  constructor
  · intro h
    have hlt : wrapI64 (m : Int) < (((2 : Nat) ^ 64 : Nat) + 1) / 2 := Int.bmod_lt (by decide)
    rw [h] at hlt
    omega
  · intro h
    exact wrapI64_eq ⟨by unfold i64Min; omega, by unfold i64Max; omega⟩

omit [Score σ] in
/-- A deadline that fits is the one left behind, unless another one is kept. -/
theorem leaves_want {keep : Bool} (h : a.want now < 2 ^ 64) (r : Option (Rec σ)) :
    a.leaves keep now r = some (a.want now) ↔
      (keep = true → ∀ y, r = some y → y.deadline = some (a.want now)) := by
  rw [Ask.leaves, Nat.mod_eq_of_lt h]
  cases r with
  | none => exact iff_of_true rfl fun _ y hy => by cases hy
  | some y =>
    cases keep with
    | false => exact iff_of_true rfl fun hk => by cases hk
    | true =>
      exact ⟨fun hy _ z hz => Option.some.inj hz ▸ hy, fun hy => hy rfl y rfl⟩

/-- **Deadlines.** A command that asks for a deadline runs at the clock `now` on any store,
succeeds, and leaves the record `x` at its key. Then `x` has the deadline that is meant,
computed without overflow, and a `PTTL` at the same clock on the key, if it is still live,
replies what remains, a positive number, exactly when

* `KEEPTTL` was not given on a live key, or its deadline was the same one already;
* the deadline that is meant fits a `u64`;
* and lies less than `2 ^ 63` milliseconds ahead. -/
theorem deadlines_exact (cfg : Config) (st : ConnState) {name : Bytes} {args : List Bytes}
    {k : Bytes} {a : Ask} {keep : Bool} (hask : asked name args = some (k, a, keep))
    (E : Surroundings) {now : Nat} (hclock : ∀ i, E.clock i = now) (s : Sys σ)
    (hok : (s.exec E (dispatch cfg st name args)).1.1.persist = true) {x : Rec σ}
    (hx : (s.exec E (dispatch cfg st name args)).2.raw k = some x) :
    (x.deadline = some (a.want now) ∧ a.want now < 2 ^ 64 ∧
      ((liveAt now (some x)).isSome = true →
        ((s.exec E (dispatch cfg st name args)).2.exec E
          (dispatch cfg st (lit "PTTL") [k])).1.1.reply =
            .int ((a.want now : Int) - now) ∧ (0 : Int) < (a.want now : Int) - now)) ↔
    (keep = true → ∀ y, liveAt now (s.raw k) = some y → y.deadline = some (a.want now)) ∧
      a.want now < 2 ^ 64 ∧ a.want now - now < 2 ^ 63 := by
  rw [stored_deadline cfg st hask hclock hok hx]
  by_cases hfit : a.want now < 2 ^ 64
  · rw [leaves_want hfit]
    refine and_congr_right fun hkeep => and_congr_right fun _ => ?_
    have hd : x.deadline = some (a.want now) :=
      (stored_deadline cfg st hask hclock hok hx).trans ((leaves_want hfit _).2 hkeep)
    by_cases hlt : now < a.want now
    · have hlive : liveAt now (some x) = some x :=
        liveAt_eq_some.2 ⟨rfl, by simp [hd, expired, hlt]⟩
      have hcast : ((a.want now - now : Nat) : Int) = (a.want now : Int) - now :=
        Int.ofNat_sub hlt.le
      have hreply :=
        pttl_reply (k := k) (x := x) cfg st E (s := (s.exec E (dispatch cfg st name args)).2)
        (by rw [hx, hclock, hlive]) hd
      rw [hreply, hclock, ← hcast, Reply.int.injEq, wrapI64_nat]
      constructor
      · intro h
        exact (h (by rw [hlive]; rfl)).1
      · intro h _
        exact ⟨h, by omega⟩
    · have hgone : liveAt now (some x) = none := by simp [liveAt, hd, expired, Nat.le_of_not_lt hlt]
      rw [hgone]
      exact iff_of_true (fun h => by cases h) (by omega)
  · exact iff_of_false (fun h => hfit h.2.1) fun h => hfit h.2.1

end

/-! ## Runs -/

/-- A new store without a memory limit. -/
def emptySys : Sys Int := ⟨⟨Store.new 1 0 (fun _ => 0) (fun _ _ _ => 0), none⟩, 0⟩

/-- A server that only serves clients. -/
def plainConfig : Config :=
  { shards := 1, maxmemory := 0, appendonly := false, requirepass := none, replicaof := none,
    masterauth := none }

/-- A command in these surroundings. -/
def ranIn (E : Surroundings) (name : Bytes) (args : List Bytes) (s : Sys Int) :
    (Outcome × ConnState) × Sys Int :=
  s.exec E (dispatch plainConfig ConnState.internal name args)

/-- A command at clock `t`. -/
def ranAt (t : Nat) : Bytes → List Bytes → Sys Int → (Outcome × ConnState) × Sys Int :=
  ranIn fun _ => Env.plain t

/-- Ten seconds from the first second on. -/
theorem deadlines_exact_ex :
    ∃ x, (ranAt 1000 (lit "SET") [lit "k", lit "v", lit "EX", lit "10"] emptySys).2.raw (lit "k") =
      some x ∧
      x.deadline = some 11000 ∧
      (ranAt 1000 (lit "PTTL") [lit "k"]
        (ranAt 1000 (lit "SET") [lit "k", lit "v", lit "EX", lit "10"] emptySys).2).1.1.reply =
          .int 10000 := by
  have hsome :
      ((ranAt 1000 (lit "SET") [lit "k", lit "v", lit "EX", lit "10"] emptySys).2.raw
        (lit "k")).isSome = true := by
    decide +kernel
  obtain ⟨x, hx⟩ := Option.isSome_iff_exists.1 hsome
  obtain ⟨hd, -, hp⟩ := (deadlines_exact (a := ⟨10, 1000, false⟩) plainConfig ConnState.internal
    (by decide : asked (lit "SET") [lit "k", lit "v", lit "EX", lit "10"] = some (lit "k",
      ⟨10, 1000, false⟩, false))
    (fun _ => Env.plain 1000) (fun _ => rfl) emptySys (by decide +kernel) hx).2
    ⟨fun h => (by cases h), by decide, by decide⟩
  refine ⟨x, hx, hd, ?_⟩
  exact (hp (by simp [liveAt, hd, expired, Option.filter, Ask.want])).1

/-- Too many seconds wrap around: a key that is to last for more than 500 million years
has 384 ms left. A deadline that fits a `u64` but not an `i64` is reported as negative. -/
theorem deadlines_wrap :
    ((ranAt 1000 (lit "SET") [lit "k", lit "v", lit "EX",
      lit "18446744073709552"] emptySys).1.1.persist = true ∧
      ((ranAt 1000 (lit "SET") [lit "k", lit "v", lit "EX", lit "18446744073709552"] emptySys).2.raw
        (lit "k")).map
          Rec.deadline = some (some 1384) ∧
      (⟨18446744073709552, 1000, false⟩ : Ask).want 1000 = 18446744073709553000) ∧
    (ranAt 1000 (lit "SET") [lit "k", lit "v", lit "EXAT",
      lit "10000000000000000"] emptySys).1.1.persist = true ∧
      encodeReply false (ranAt 1000 (lit "PTTL") [lit "k"]
        (ranAt 1000 (lit "SET") [lit "k", lit "v", lit "EXAT",
          lit "10000000000000000"] emptySys).2).1.1.reply =
          lit ":-8446744073709552616\r\n" := by
  refine ⟨?_, ?_, ?_⟩
  · decide +kernel
  · decide +kernel
  · decide +kernel

end Inmem.L4
