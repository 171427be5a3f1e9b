import Inmem.L3Store.Store
import Mathlib.Data.Finset.Sort

/-!
# The abstract keyspace

What the store is for: one map from keys to records, a record being a typed
value and an optional deadline. A sorted set is just its score map here.

`View σ` is a keyspace as a function; `View.at t` forgets the records whose
deadline is not after `t`, so two keyspaces are the same at `t` when their `at t`
agree. `KeyOp.spec` is what an operation does to the live record of its key and
`Call.spec` what a call does to a keyspace. `Kv` is the same semantics on a
finite map, with results for the listings as well.

Nothing in this module mentions shards, hash tables or lazy deletion;
`Refine` proves that the store behaves like this.
-/
namespace Inmem.L3

open Inmem.L1 Inmem.Core.Decimal

/-- A typed value. -/
inductive Val (σ : Type)
  | str (b : Bytes)
  | list (l : List Bytes)
  | hash (h : Finmap fun _ : Bytes => Bytes)
  | set (s : Finset Bytes)
  | zset (scores : Finmap fun _ : Bytes => σ)
  deriving DecidableEq

/-- A value and its deadline. -/
structure Rec (σ : Type) where
  val : Val σ
  deadline : Option Nat
  deriving DecidableEq

/-- A keyspace. -/
abbrev View (σ : Type) := Bytes → Option (Rec σ)

section
variable {σ : Type}

/-- The record if it has not expired by `t`. -/
def liveAt (t : Nat) (r : Option (Rec σ)) : Option (Rec σ) :=
  r.filter fun r => !expired t r.deadline

/-- The keyspace as seen at `t`. -/
def View.at (t : Nat) (v : View σ) : View σ := fun k => liveAt t (v k)

/-- Change the record of one key. -/
def View.put (v : View σ) (k : Bytes) (r : Option (Rec σ)) : View σ :=
  fun k' => if k' = k then r else v k'

/-- Only a string may be empty. -/
def Val.NonEmpty : Val σ → Prop
  | str _ => True
  | list l => l ≠ []
  | hash h => h ≠ ∅
  | set s => s ≠ ∅
  | zset z => z ≠ ∅

def Val.typeName : Val σ → TypeName
  | str _ => .string
  | list _ => .list
  | hash _ => .hash
  | set _ => .set
  | zset _ => .zset

/-! ## Operations on one record -/

namespace VColl

def list : Coll (Val σ) (List Bytes) where
  wrap := .list
  unwrap | .list l => some l | _ => none
  make := []
  isEmpty := List.isEmpty

def hash : Coll (Val σ) (Finmap fun _ : Bytes => Bytes) where
  wrap := .hash
  unwrap | .hash h => some h | _ => none
  make := ∅
  isEmpty h := h.keys.card == 0

def set : Coll (Val σ) (Finset Bytes) where
  wrap := .set
  unwrap | .set s => some s | _ => none
  make := ∅
  isEmpty s := s.card == 0

def zset : Coll (Val σ) (Finmap fun _ : Bytes => σ) where
  wrap := .zset
  unwrap | .zset z => some z | _ => none
  make := ∅
  isEmpty z := z.keys.card == 0

end VColl

/-- Update a collection: an absent key starts empty and without a deadline, an
update keeps the deadline, and a collection that becomes empty disappears. -/
def specColl {C R : Type} (col : Coll (Val σ) C) (body : C → R × C) :
    Option (Rec σ) → Except StoreErr R × Option (Rec σ)
  | none =>
    (.ok (body col.make).1, if col.isEmpty (body col.make).2 then none
      else some ⟨col.wrap (body col.make).2, none⟩)
  | some r =>
    match col.unwrap r.val with
    | none => (.error .wrongType, some r)
    | some c =>
      (.ok (body c).1, if col.isEmpty (body c).2 then none
        else some ⟨col.wrap (body c).2, r.deadline⟩)

/-- Read a collection. -/
def specRead {C R : Type} (col : Coll (Val σ) C) (absent : R) (f : C → R) (r : Option (Rec σ)) :
    Except StoreErr R × Option (Rec σ) := (readAs col absent f (r.map Rec.val), r)

/-- The string a record holds. -/
def recStr : Option (Rec σ) → Except StoreErr (Option Bytes)
  | none => .ok none
  | some ⟨.str v, _⟩ => .ok (some v)
  | some _ => .error .wrongType

/-- Store a string under the record's deadline. -/
def recPutStr (r : Option (Rec σ)) (v : Bytes) : Option (Rec σ) :=
  some ⟨.str v, r.bind Rec.deadline⟩

/-- Add to the number a record holds. -/
def specIncr (delta : Int) (r : Option (Rec σ)) : Except StoreErr Int × Option (Rec σ) :=
  match recStr r with
  | .error e => (.error e, r)
  | .ok v =>
    match v.elim (.ok 0) Shard.strInt with
    | .error e => (.error e, r)
    | .ok cur =>
      if InI64 (cur + delta) then (.ok (cur + delta), recPutStr r (intText (cur + delta)))
      else (.error .overflow, r)

/-- Append to the string a record holds. -/
def specAppend (suffix : Bytes) (r : Option (Rec σ)) : Except StoreErr Nat × Option (Rec σ) :=
  match recStr r with
  | .error e => (.error e, r)
  | .ok v => (.ok (v.getD [] ++ suffix).length, recPutStr r (v.getD [] ++ suffix))

/-- Whether a conditional `SET` goes ahead. -/
def SetOptions.allows (opts : SetOptions) (existed : Bool) : Bool :=
  !(opts.nx && existed) && !(opts.xx && !existed)

/-- The deadline after a `SET`: cleared or set anew, unless kept. -/
def SetOptions.deadline (opts : SetOptions) : Option (Rec σ) → Option Nat
  | some r => if opts.keepTtl then r.deadline else opts.expireAt
  | none => opts.expireAt

/-- The fields of a hash in a canonical order. -/
def hashList (h : Finmap fun _ : Bytes => Bytes) : List (Bytes × Bytes) :=
  ((h.entries.map fun p => toLex (p.1, p.2)).sort (· ≤ ·)).map ofLex

/-- The members of a set in a canonical order. -/
def setList (s : Finset Bytes) : List Bytes := s.sort (· ≤ ·)

theorem mem_hashList {h : Finmap fun _ : Bytes => Bytes} {f v : Bytes} :
    (f, v) ∈ hashList h ↔ h.lookup f = some v := by
  rw [Finmap.lookup_eq_some_iff]
  simp only [hashList, List.mem_map, Multiset.mem_sort, Multiset.mem_map]
  constructor
  · rintro ⟨_, ⟨⟨a, b⟩, hm, rfl⟩, h2⟩
    cases h2; exact hm
  · intro hm; exact ⟨toLex (f, v), ⟨⟨f, v⟩, hm, rfl⟩, rfl⟩

theorem hashList_nodup (h : Finmap fun _ : Bytes => Bytes) : ((hashList h).map Prod.fst).Nodup := by
  rw [← Multiset.coe_nodup, hashList, List.map_map, ← Multiset.map_coe, Multiset.sort_eq,
    Multiset.map_map]
  exact Multiset.nodup_keys.2 h.nodupKeys

/-- A quiet surrounding: canonical orders, constant hashers, no I/O error. -/
def Env.plain (now : Nat) : Env where
  now
  hasher _ _ := 0
  hashOrder _ := hashList
  hash_listed _ h := ⟨hashList_nodup h, fun _ _ => mem_hashList⟩
  setOrder _ := setList
  set_listed _ _ := ⟨Finset.sort_nodup .., fun _ => Finset.mem_sort ..⟩
  ioError := none

/-- What an operation answers and leaves, given the live record of its key. -/
def KeyOp.spec [Score σ] (now : Nat) : (op : KeyOp σ) → Option (Rec σ) → op.Res × Option (Rec σ)
  | .get, r => (recStr r, r)
  | .readStr, r =>
    (match recStr r with | .ok none => .none | .ok (some v) => .str v | .error _ => .wrongType, r)
  | .set value opts, r =>
    if opts.allows r.isSome then (true, some ⟨.str value, opts.deadline r⟩) else (false, r)
  | .del, r => (r.isSome, none)
  | .exists, r => (r.isSome, r)
  | .typeOf, r => (r.elim .none fun r => r.val.typeName, r)
  | .expireAt deadline, r => (r.isSome, r.map fun r => { r with deadline })
  | .pttl, r => (r.elim .noKey fun r => r.deadline.elim .noExpiry fun t => .millis (t - now), r)
  | .incrBy delta, r => specIncr delta r
  | .append suffix, r => specAppend suffix r
  | .strlen, r => ((recStr r).map fun v => v.elim 0 List.length, r)
  | .push vals left, r => specColl VColl.list (pushAll vals left) r
  | .pop count left, r => specColl VColl.list (popLoop left count) r
  | .llen, r => specRead VColl.list 0 List.length r
  | .lrange start stop, r => specRead VColl.list [] (listRange · start stop) r
  | .hset pairs, r => specColl VColl.hash (countFold hashInsert pairs) r
  | .hget field, r => specRead VColl.hash none (Finmap.lookup field) r
  | .hdel fields, r => specColl VColl.hash (countFold hashRemove fields) r
  | .hlen, r => specRead VColl.hash 0 (fun h => h.keys.card) r
  | .hgetall, r => specRead VColl.hash [] hashList r
  | .sadd members, r => specColl VColl.set (countFold setInsert members) r
  | .srem members, r => specColl VColl.set (countFold setRemove members) r
  | .sismember member, r => specRead VColl.set false (fun s => member ∈ s) r
  | .scard, r => specRead VColl.set 0 Finset.card r
  | .smembers, r => specRead VColl.set [] setList r
  | .zadd pairs, r =>
    specColl VColl.zset (countFold (fun z p => ((z.lookup p.2).isNone, z.insert p.2 p.1)) pairs) r
  | .zrem members, r =>
    specColl VColl.zset (countFold (fun z m => ((z.lookup m).isSome, z.erase m)) members) r
  | .zscore member, r => specRead VColl.zset none (Finmap.lookup member) r
  | .zcard, r => specRead VColl.zset 0 (fun z => z.keys.card) r
  | .zrange start stop, r => specRead VColl.zset [] (fun z => rankRange (rankList z) start stop) r

/-- Two listings with the same elements. -/
def SameList {α : Type} : Except StoreErr (List α) → Except StoreErr (List α) → Prop
  | .ok a, .ok b => a.Perm b
  | .error e, .error e' => e = e'
  | _, _ => False

/-- Equal results; for the two unordered listings, up to order. -/
def KeyOp.Same : (op : KeyOp σ) → op.Res → op.Res → Prop
  | .hgetall, a, b => SameList a b
  | .smembers, a, b => SameList a b
  | _, a, b => a = b

/-! ## Calls on a keyspace -/

/-- What a call answers and leaves. The calls whose answer is not a function of
the keyspace (see `Call.Det`) answer with a default. -/
def Call.spec [Score σ] (now : Nat) : (c : Call σ) → View σ → c.Res × View σ
  | .key k op, v =>
    let r := op.spec now (liveAt now (v k))
    (r.1, v.put k r.2)
  | .flushAll, _ => ((), fun _ => none)
  | .nowMs, v => (now, v)
  | .keys, v => ([], v)
  | .dbsize, v => (0, v)
  | .shardCount, v => (0, v)
  | .purgeExpired, v => (0, v)
  | .save, v => (.ok (), v)

/-- The calls whose answer is a function of the keyspace and the clock. -/
def Call.Det : Call σ → Prop
  | .key _ .hgetall => False
  | .key _ .smembers => False
  | .key _ _ => True
  | .flushAll => True
  | .nowMs => True
  | _ => False

/-! ## The finite map -/

/-- A finite keyspace. -/
abbrev Kv (σ : Type) := Finmap fun _ : Bytes => Rec σ

namespace Kv

/-- The live record of a key: one that has expired does not exist. -/
def find (t : Nat) (a : Kv σ) (k : Bytes) : Option (Rec σ) := liveAt t (a.lookup k)

def put (a : Kv σ) (k : Bytes) : Option (Rec σ) → Kv σ
  | some r => a.insert k r
  | none => a.erase k

/-- The live keys. -/
def keys (t : Nat) (a : Kv σ) : List Bytes :=
  (Finmap.keys a).sort (· ≤ ·) |>.filter fun k => (a.find t k).isSome

/-- One call on the finite map. -/
def exec [Score σ] (now : Nat) : (c : Call σ) → Kv σ → c.Res × Kv σ
  | .key k op, a =>
    let r := op.spec now (a.find now k)
    (r.1, a.put k r.2)
  | .keys, a => (a.keys now, a)
  | .dbsize, a => ((a.keys now).length, a)
  | .shardCount, a => (0, a)
  | .flushAll, _ => ((), ∅)
  | .purgeExpired, a => (0, a)
  | .nowMs, a => (now, a)
  | .save, a => (.ok (), a)

end Kv

/-- Equal results of a call, listings up to order. The count of `purge_expired`,
`dbsize` (which counts entries that have expired but are still stored), the
number of shards and the outcome of writing a file are not compared. -/
def Call.Same : (c : Call σ) → c.Res → c.Res → Prop
  | .key _ op, a, b => op.Same a b
  | .keys, a, b => a.Perm b
  | .nowMs, a, b => a = b
  | _, _, _ => True

/-! ## Time -/

variable {v w : View σ} {t u : Nat}

theorem expired_mono {d : Option Nat} (h : t ≤ u) (he : expired t d = true) :
    expired u d = true := by
  cases d with
  | none => cases he
  | some x => simp only [expired, decide_eq_true_eq] at *; omega

theorem liveAt_eq_some {r : Option (Rec σ)} {x : Rec σ} :
    liveAt t r = some x ↔ r = some x ∧ expired t x.deadline = false := by
  simp [liveAt, Option.filter_eq_some_iff]

/-- Seen at a later time, what has expired before stays away. -/
theorem liveAt_liveAt (h : t ≤ u) (r : Option (Rec σ)) : liveAt u (liveAt t r) = liveAt u r := by
  apply Option.ext
  intro x
  rw [liveAt_eq_some, liveAt_eq_some, liveAt_eq_some]
  refine ⟨fun ⟨⟨h1, _⟩, h2⟩ => ⟨h1, h2⟩, fun ⟨h1, h2⟩ => ⟨⟨h1, ?_⟩, h2⟩⟩
  cases hx : expired t x.deadline with
  | false => rfl
  | true => rw [expired_mono h hx] at h2; cases h2

theorem View.at_at (h : t ≤ u) (v : View σ) : (v.at t).at u = v.at u :=
  funext fun k => liveAt_liveAt h (v k)

/-- Keyspaces that agree at `t` agree from then on. -/
theorem View.at_mono (h : t ≤ u) (he : v.at t = w.at t) : v.at u = w.at u := by
  rw [← View.at_at h v, he, View.at_at h w]

@[simp] theorem View.put_self (v : View σ) (k : Bytes) (r : Option (Rec σ)) : v.put k r k = r := by
  simp [View.put]

theorem View.put_other (v : View σ) {k k' : Bytes} (r : Option (Rec σ)) (h : k' ≠ k) :
    v.put k r k' = v k' := by
  simp [View.put, h]

theorem View.put_at (v : View σ) (k : Bytes) (r : Option (Rec σ)) :
    (v.put k r).at t = (v.at t).put k (liveAt t r) := by
  funext k'
  by_cases h : k' = k
  · subst h; simp [View.at]
  · simp [View.at, View.put, h]

@[simp] theorem View.put_put (v : View σ) (k : Bytes) (r s : Option (Rec σ)) :
    (v.put k r).put k s = v.put k s := by
  funext k'
  by_cases h : k' = k <;> simp [View.put, h]

/-- Dropping a record that has expired makes no difference. -/
theorem View.put_live_at (h : t ≤ u) (v : View σ) (k : Bytes) :
    (v.put k (liveAt t (v k))).at u = v.at u := by
  rw [View.put_at, liveAt_liveAt h]
  funext k'
  by_cases hk : k' = k
  · subst hk; simp [View.at]
  · simp [View.put, hk]

/-- A call does not see records that have expired. -/
theorem Call.spec_congr [Score σ] (c : Call σ) (h : v.at t = w.at t) :
    (c.spec t v).1 = (c.spec t w).1 ∧ (c.spec t v).2.at t = (c.spec t w).2.at t := by
  cases c with
  | key k op =>
    have hk : liveAt t (v k) = liveAt t (w k) := congrFun h k
    simp only [Call.spec, hk, View.put_at, h, and_self]
  | _ => exact ⟨rfl, by first | exact h | rfl⟩

end

end Inmem.L3
