import Inmem.L1Encoding.Resp
import Inmem.L3Store.Shard

/-!
# The sharded store

`crates/core/src/store.rs`: a power of two of shards, the key's hash masked to
an index. The router is an arbitrary function of the key. `mask_lt` makes the
index valid for every hash, so that a store without the key's shard cannot be
built.

`Call` is the interface the server uses: the single-key operations, the
operations over all shards, and the two effects beside them (reading the clock
and writing the snapshot file). `Call.exec` is one call, run as an atomic step.
-/
namespace Inmem.L3

open Inmem.L1 Inmem.L1.Resp Inmem.Core.Decimal

/-- mirrors crates/core/src/store.rs:261-265 -/
structure Store (σ : Type) [Score σ] where
  shards : List (Shard σ)
  mask : Nat
  router : Bytes → UInt64
  mask_lt : ∀ h : UInt64, h.toNat &&& mask < shards.length

/-! ## Snapshots -/

section
variable {σ : Type} [Score σ]

/-- The arguments of the command that recreates a value,
mirrors crates/core/src/store.rs:861-909 -/
def recreateArgs (env : Env) (key : Bytes) : Value σ → List Bytes
  | .str v => [lit "SET", key, v]
  | .list l => lit "RPUSH" :: key :: l
  | .hash h => lit "HSET" :: key :: (env.hashOrder key h).flatMap fun p => [p.1, p.2]
  | .set s => lit "SADD" :: key :: env.setOrder key s
  | .zset z => lit "ZADD" :: key :: z.sorted.flatMap fun p => [fmtScore (ofLex p).1, (ofLex p).2]

/-- The commands that recreate one entry (none if it has expired),
mirrors crates/core/src/store.rs:818-824 -/
def entryArgs (env : Env) (key : Bytes) (e : Entry σ) : List (List Bytes) :=
  if expired env.now e.expireAt then []
  else
    recreateArgs env key e.value ::
      match e.expireAt with
      | some t => [[lit "PEXPIREAT", key, natText t]]
      | none => []

namespace Shard

/-- mirrors crates/core/src/store.rs:816-825 -/
def dumpArgs (env : Env) (s : Shard σ) : List (List Bytes) :=
  s.map.iter.flatMap fun p => entryArgs env p.1 p.2

/-- mirrors crates/core/src/store.rs:797-806 -/
def keys (now : Nat) (s : Shard σ) : List Bytes :=
  (s.map.iter.filter fun p => !expired now p.2.expireAt).map Prod.fst

/-- The keys that `purge_expired` collects, mirrors crates/core/src/store.rs:779-784 -/
def expiredKeys (now : Nat) (s : Shard σ) : List Bytes :=
  (s.map.iter.filter fun p => expired now p.2.expireAt).map Prod.fst

/-- mirrors crates/core/src/store.rs:777-790 -/
def purgeExpired (now : Nat) (s : Shard σ) : Nat × Shard σ :=
  countFold dropKey (s.expiredKeys now) s

end Shard

end

namespace Store

variable {σ : Type} [Score σ]

/-- mirrors crates/core/src/store.rs:310-322; `hasher i` are the hashers of shard `i`. -/
def new (shards maxmemory : Nat) (router : Bytes → UInt64) (hasher : Nat → Nat → Bytes → UInt64) :
    Store σ :=
  let n := Nat.nextPowerOfTwo (max shards 1)
  let perShard := if maxmemory = 0 then 0 else max (maxmemory / n) 1
  { shards := (List.range n).map fun i => Shard.new perShard (hasher i)
    mask := n - 1
    router
    mask_lt := fun h => by
      obtain ⟨k, hk⟩ := Nat.isPowerOfTwo_nextPowerOfTwo (max shards 1)
      simp only [n, hk, List.length_map, List.length_range]
      exact Inmem.Core.Ring.and_mask_lt _ k }

/-- mirrors crates/core/src/store.rs:325-328 -/
def index (s : Store σ) (key : Bytes) : Nat := (s.router key).toNat &&& s.mask

theorem index_lt (s : Store σ) (key : Bytes) : s.index key < s.shards.length := s.mask_lt _

def shard (s : Store σ) (key : Bytes) : Shard σ := s.shards.get ⟨s.index key, s.index_lt key⟩

def setShards (s : Store σ) (l : List (Shard σ)) (h : l.length = s.shards.length) : Store σ :=
  { s with shards := l, mask_lt := fun x => h ▸ s.mask_lt x }

/-- Run an operation on the key's shard. -/
def withShard {R : Type} (s : Store σ) (key : Bytes) (f : Shard σ → R × Shard σ) : R × Store σ :=
  let r := f (s.shard key)
  (r.1, s.setShards (s.shards.set (s.index key) r.2) List.length_set)

/-- mirrors crates/core/src/store.rs:330-332 -/
def shardCount (s : Store σ) : Nat := s.shards.length

/-- mirrors crates/core/src/store.rs:763-765 -/
def dbsize (s : Store σ) : Nat := (s.shards.map fun sh => sh.map.len).sum

/-- mirrors crates/core/src/store.rs:767-772 -/
def flushAll (env : Env) (s : Store σ) : Store σ :=
  s.setShards (s.shards.mapIdx fun i sh => Shard.new sh.budget fun j => env.hasher (3 * i + j))
    (by simp)

/-- mirrors crates/core/src/store.rs:774-792 -/
def purgeExpired (env : Env) (s : Store σ) : Nat × Store σ :=
  ((s.shards.map fun sh => (sh.purgeExpired env.now).1).sum,
    s.setShards (s.shards.map fun sh => (sh.purgeExpired env.now).2) (by simp))

/-- mirrors crates/core/src/store.rs:795-808 -/
def keys (env : Env) (s : Store σ) : List Bytes := s.shards.flatMap (Shard.keys env.now)

/-- The commands of a snapshot. -/
def dumpArgs (env : Env) (s : Store σ) : List (List Bytes) := s.shards.flatMap (Shard.dumpArgs env)

/-- mirrors crates/core/src/store.rs:812-828; `write_cmd` is `encodeArgs`. -/
def dumpCommands (env : Env) (s : Store σ) : Bytes := (s.dumpArgs env).flatMap encodeArgs

end Store

/-! ## Calls -/

/-- The store and the snapshot file that `SAVE` writes. -/
structure World (σ : Type) [Score σ] where
  store : Store σ
  snapshot : Option Bytes

/-- What the server asks of the store and its surroundings. -/
inductive Call (σ : Type)
  | key (k : Bytes) (op : KeyOp σ)
  | keys
  | dbsize
  | shardCount
  | flushAll
  | purgeExpired
  | nowMs
  | save

namespace Call

variable {σ : Type}

@[reducible] def Res : Call σ → Type
  | key _ op => op.Res
  | keys => List Bytes
  | dbsize => Nat
  | shardCount => Nat
  | flushAll => Unit
  | purgeExpired => Nat
  | nowMs => Nat
  | save => Except Bytes Unit

/-- One call. `save` mirrors crates/server/src/persistence.rs:98-106: the file is
replaced as a whole or, on an I/O error, left as it was. -/
def exec [Score σ] (env : Env) : (c : Call σ) → World σ → c.Res × World σ
  | key k op, w =>
    let r := w.store.withShard k (op.exec env k)
    (r.1, { w with store := r.2 })
  | keys, w => (w.store.keys env, w)
  | dbsize, w => (w.store.dbsize, w)
  | shardCount, w => (w.store.shardCount, w)
  | flushAll, w => ((), { w with store := w.store.flushAll env })
  | purgeExpired, w =>
    let r := w.store.purgeExpired env
    (r.1, { w with store := r.2 })
  | nowMs, w => (env.now, w)
  | save, w =>
    match env.ioError with
    | some e => (.error e, w)
    | none => (.ok (), { w with snapshot := some (w.store.dumpCommands env) })

end Call

section
variable {σ : Type} [Score σ]

/-- Run calls on the store. -/
def runCalls (run : List (Env × Call σ)) (w : World σ) : World σ :=
  run.foldl (fun w p => (p.2.exec p.1 w).2) w

/-- What every call keeps, every run keeps. -/
theorem runCalls_keeps {I : World σ → Prop} (step : ∀ env c w, I w → I (Call.exec env c w).2)
    (run : List (Env × Call σ)) : ∀ {w : World σ}, I w → I (runCalls run w) := by
  induction run with
  | nil => exact fun h => h
  | cons p run ih => exact fun h => ih (step p.1 p.2 _ h)

end

end Inmem.L3
