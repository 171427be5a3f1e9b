import Inmem.L2Machine.S3Fifo
import Inmem.L3Store.Value

/-!
# One shard and the single-key operations

`crates/core/src/store.rs`: a shard is a hash table of entries (a value and an
optional absolute deadline), the eviction policy and the byte count. Every
single-key operation of the store locks the key's shard, reads the clock and
works on that shard only; here it is a function from the shard to the result
and the new shard.

`Env` is what one call takes from outside: its clock reading, fresh hashers,
and the order in which a `HashMap` or `HashSet` is iterated (any order that
lists every element once, and it may differ from call to call).

The operations that write are written once for any monad, with two parameters: how they
subtract from the byte count (`sub`), and what they do last (`pass`). The store's own
operations run in `Id` with the subtraction of `Nat` (`plainSub`) and end with
`enforce_budget`. `Checked` runs them with the subtraction of a build with overflow checks,
and `Demotion` without the last step.

`KeyOp` names the operations, so that the layers above can talk about "any
operation"; `KeyOp.execM` is the table of them and `KeyOp.exec` their meaning.
-/
namespace Inmem.L3

open Inmem.L1 Inmem.Core.Decimal
open Inmem.L2 (FlatMap S3Fifo)

/-- What one call of the store takes from outside. -/
structure Env where
  now : Nat
  /-- the hashers that `RandomState::new()` draws -/
  hasher : Nat → Bytes → UInt64
  hashOrder : Bytes → (Finmap fun _ : Bytes => Bytes) → List (Bytes × Bytes)
  hash_listed : ∀ k h, ((hashOrder k h).map Prod.fst).Nodup ∧
    ∀ f v, (f, v) ∈ hashOrder k h ↔ h.lookup f = some v
  setOrder : Bytes → Finset Bytes → List Bytes
  set_listed : ∀ k s, (setOrder k s).Nodup ∧ ∀ m, m ∈ setOrder k s ↔ m ∈ s
  /-- the text of the error, if the file operation of this step fails -/
  ioError : Option Bytes

/-- mirrors crates/core/src/store.rs:16 -/
def ENTRY_OVERHEAD : Nat := 64

/-- The `&'static str` errors; `unreachable` is the macro's `unreachable!()`. -/
inductive StoreErr
  | wrongType
  | notInteger
  | overflow
  | unreachable
  deriving DecidableEq, Repr

/-- mirrors crates/core/src/store.rs:19, 285, 463, 472 -/
def StoreErr.text : StoreErr → Bytes
  | .wrongType => lit "WRONGTYPE Operation against a key holding the wrong kind of value"
  | .notInteger => lit "value is not an integer or out of range"
  | .overflow => lit "increment or decrement would overflow"
  | .unreachable => lit "entry was just ensured"

/-- mirrors crates/core/src/store.rs:149-153 -/
inductive StrRead
  | str (b : Bytes)
  | none
  | wrongType
  deriving DecidableEq, Repr

/-- mirrors crates/core/src/store.rs:155-159 -/
structure Entry (σ : Type) [Score σ] where
  value : Value σ
  expireAt : Option Nat

/-- mirrors crates/core/src/store.rs:162-164 -/
def keyOverhead (keyLen : Nat) : Nat := keyLen + ENTRY_OVERHEAD

/-- mirrors crates/core/src/store.rs:168-173 -/
structure SetOptions where
  nx : Bool := false
  xx : Bool := false
  keepTtl : Bool := false
  expireAt : Option Nat := none
  deriving DecidableEq, Repr

/-- mirrors crates/core/src/store.rs:177-181 -/
inductive Ttl
  | noKey
  | noExpiry
  | millis (ms : Nat)
  deriving DecidableEq, Repr

/-- mirrors crates/core/src/store.rs:183-188 -/
structure Shard (σ : Type) [Score σ] where
  map : FlatMap (Entry σ)
  pol : S3Fifo
  bytes : Nat
  budget : Nat

/-- The test `Some(t) if t <= now`. -/
def expired (now : Nat) : Option Nat → Bool
  | some t => t ≤ now
  | none => false

/-- `a - b` on `usize`, where it does not underflow (`accounting_exact`). -/
def plainSub (a b : Nat) : Id Nat := a - b

theorem bind_id {A B : Type} (x : Id A) (f : A → Id B) : (x >>= f) = f x := rfl

theorem pure_id {A : Type} (a : A) : (pure a : Id A) = a := rfl

namespace Shard

variable {σ : Type} [Score σ] {m : Type → Type} [Monad m]

/-- mirrors crates/core/src/store.rs:191-198 -/
def new (budget : Nat) (hasher : Nat → Bytes → UInt64) : Shard σ :=
  { map := FlatMap.new (hasher 0), pol := S3Fifo.new (hasher 1) (hasher 2), bytes := 0, budget }

/-- mirrors crates/core/src/store.rs:200-210 -/
def dropKeyM (sub : Nat → Nat → m Nat) (s : Shard σ) (key : Bytes) : m (Bool × Shard σ) :=
  let r := s.map.remove key
  match r.1 with
  | some e => do
    let bytes ← sub s.bytes (keyOverhead key.length + e.value.bytes)
    return (true, { s with map := r.2, bytes,
                           pol := if s.budget ≠ 0 then s.pol.remove key else s.pol })
  | none => return (false, s)

/-- mirrors crates/core/src/store.rs:216-220 -/
def touch (s : Shard σ) (key : Bytes) : Shard σ :=
  if s.budget ≠ 0 then { s with pol := s.pol.touch key } else s

/-- mirrors crates/core/src/store.rs:223-234 -/
def liveM (sub : Nat → Nat → m Nat) (s : Shard σ) (key : Bytes) (now : Nat) :
    m (Bool × Shard σ) :=
  match s.map.get key with
  | none => return (false, s)
  | some e =>
    if expired now e.expireAt then do
      let r ← s.dropKeyM sub key
      return (false, r.2)
    else return (true, s)

/-- The loop of `enforce_budget`: each round takes a key out of the policy. -/
def enforceLoopM (sub : Nat → Nat → m Nat) : Nat → Shard σ → m (Shard σ)
  | 0, s => return s
  | f + 1, s =>
    if s.bytes > s.budget then
      let r := s.pol.evictOne
      let s := { s with pol := r.2 }
      match r.1 with
      | some victim => do
        let q ← s.dropKeyM sub victim
        enforceLoopM sub f q.2
      | none => return s
    else return s

/-- mirrors crates/core/src/store.rs:236-248 -/
def enforceBudgetM (sub : Nat → Nat → m Nat) (s : Shard σ) : m (Shard σ) :=
  if s.budget = 0 then return s else enforceLoopM sub (s.pol.metas.len + 1) s

def dropKey (s : Shard σ) (key : Bytes) : Bool × Shard σ := s.dropKeyM plainSub key

def live (s : Shard σ) (key : Bytes) (now : Nat) : Bool × Shard σ := s.liveM plainSub key now

def enforceLoop (f : Nat) (s : Shard σ) : Shard σ := enforceLoopM plainSub f s

def enforceBudget (s : Shard σ) : Shard σ := s.enforceBudgetM plainSub

section
variable {s : Shard σ} {key : Bytes}

theorem dropKeyM_plain : s.dropKeyM plainSub key = s.dropKey key := rfl

theorem liveM_plain {now : Nat} : s.liveM plainSub key now = s.live key now := rfl

theorem dropKey_none (h : s.map.get key = none) : s.dropKey key = (false, s) := by
  unfold dropKey dropKeyM
  simp only [FlatMap.remove_fst, h, pure_id]

theorem dropKey_some {e : Entry σ} (h : s.map.get key = some e) : s.dropKey key =
    (true, { s with map := (s.map.remove key).2,
                    bytes := s.bytes - (keyOverhead key.length + e.value.bytes),
                    pol := if s.budget ≠ 0 then s.pol.remove key else s.pol }) := by
  unfold dropKey dropKeyM
  simp only [FlatMap.remove_fst, h, bind_id, pure_id, plainSub]

theorem live_absent (h : s.map.get key = none) (now : Nat) : s.live key now = (false, s) := by
  unfold live liveM
  rw [h]
  rfl

theorem live_expired {e : Entry σ} (h : s.map.get key = some e) {now : Nat}
    (he : expired now e.expireAt = true) : s.live key now = (false, (s.dropKey key).2) := by
  unfold live liveM
  simp only [h, he, if_true, bind_id, pure_id, dropKeyM_plain]

theorem live_present {e : Entry σ} (h : s.map.get key = some e) {now : Nat}
    (he : expired now e.expireAt = false) : s.live key now = (true, s) := by
  unfold live liveM
  simp only [h, he, Bool.false_eq_true, if_false, pure_id]

/-- The shard after an eviction of `v`. -/
def evicted (s : Shard σ) (v : Bytes) : Shard σ :=
  ({ s with pol := s.pol.evictOne.2 }.dropKey v).2

/-- What a round of the loop does: nothing within the budget or without a victim, else an
eviction. -/
theorem enforceLoop_cases (f : Nat) (s : Shard σ) :
    (s.bytes ≤ s.budget ∧ enforceLoop (f + 1) s = s) ∨
    (s.budget < s.bytes ∧ s.pol.evictOne.1 = none ∧
      enforceLoop (f + 1) s = { s with pol := s.pol.evictOne.2 }) ∨
    ∃ v, s.budget < s.bytes ∧ s.pol.evictOne.1 = some v ∧
      enforceLoop (f + 1) s = enforceLoop f (s.evicted v) := by
  unfold enforceLoop
  rw [enforceLoopM]
  by_cases hover : s.bytes > s.budget
  · rw [if_pos hover]
    dsimp only
    cases hv : s.pol.evictOne.1 with
    | none => exact .inr (.inl ⟨hover, rfl, rfl⟩)
    | some v => exact .inr (.inr ⟨v, hover, rfl, rfl⟩)
  · rw [if_neg hover]
    exact .inl ⟨Nat.not_lt.1 hover, rfl⟩

theorem enforceBudget_unbounded (hb : s.budget = 0) : s.enforceBudget = s := by
  unfold enforceBudget enforceBudgetM
  rw [if_pos hb]
  rfl

theorem enforceBudget_bounded (hb : s.budget ≠ 0) :
    s.enforceBudget = enforceLoop (s.pol.metas.len + 1) s := by
  unfold enforceBudget enforceBudgetM
  rw [if_neg hb]
  rfl

end

/-- mirrors crates/core/src/store.rs:251-257 -/
def putNew (s : Shard σ) (key : Bytes) (value : Value σ) (expireAt : Option Nat) : Shard σ :=
  { s with bytes := s.bytes + (keyOverhead key.length + value.bytes),
           map := s.map.insert key ⟨value, expireAt⟩, pol :=
             if s.budget ≠ 0 then s.pol.insert key else s.pol }

/-- `s.map.get(key).map(|e| &e.value)` -/
def value (s : Shard σ) (key : Bytes) : Option (Value σ) := (s.map.get key).map Entry.value

/-- `s.map.get(key).map(|e| e.value.bytes()).unwrap_or(0)` -/
def valueBytes (s : Shard σ) (key : Bytes) : Nat := ((s.value key).map Value.bytes).getD 0

/-- `s.map.get(key).and_then(|e| e.expire_at)` -/
def deadline (s : Shard σ) (key : Bytes) : Option Nat := (s.map.get key).bind Entry.expireAt

end Shard

/-! ## Collections -/

/-- The parameters of the `with_collection!` macro: a variant `C` of the
values `W`, its empty collection and its emptiness test. -/
structure Coll (W C : Type) where
  wrap : C → W
  unwrap : W → Option C
  make : C
  isEmpty : C → Bool

/-- The reads of one collection type: a default for an absent key. -/
def readAs {W C R : Type} (col : Coll W C) (absent : R) (f : C → R) : Option W → Except StoreErr R
  | none => .ok absent
  | some v =>
    match col.unwrap v with
    | some c => .ok (f c)
    | none => .error .wrongType

namespace Coll

variable {σ : Type} [Score σ]

def list : Coll (Value σ) (List Bytes) where
  wrap := .list
  unwrap | .list l => some l | _ => none
  make := []
  isEmpty := List.isEmpty

def hash : Coll (Value σ) (Finmap fun _ : Bytes => Bytes) where
  wrap := .hash
  unwrap | .hash h => some h | _ => none
  make := ∅
  isEmpty h := h.keys.card == 0

def set : Coll (Value σ) (Finset Bytes) where
  wrap := .set
  unwrap | .set s => some s | _ => none
  make := ∅
  isEmpty s := s.card == 0

def zset : Coll (Value σ) (ZSet σ) where
  wrap := .zset
  unwrap | .zset z => some z | _ => none
  make := ZSet.empty
  isEmpty z := z.len == 0

end Coll

/-- Apply `f` to each element in turn and count how often it says `true`:
the shape of `iter().filter(|x| c.insert(x)).count()` and of the counting loops. -/
def countFold {A C : Type} (f : C → A → Bool × C) : List A → C → Nat × C
  | [], c => (0, c)
  | a :: as, c =>
    let r := f c a
    let q := countFold f as r.2
    ((if r.1 then 1 else 0) + q.1, q.2)

/-- The body of `push`, mirrors crates/core/src/store.rs:537-544 -/
def pushAll (vals : List Bytes) (left : Bool) (l : List Bytes) : Nat × List Bytes :=
  let l := vals.foldl (fun l v => if left then v :: l else l ++ [v]) l
  (l.length, l)

/-- `pop_front` / `pop_back` -/
def popEnd (left : Bool) (l : List Bytes) : Option (Bytes × List Bytes) :=
  if left then
    match l with
    | [] => none
    | x :: t => some (x, t)
  else
    match l.getLast? with
    | none => none
    | some x => some (x, l.dropLast)

/-- The body of `pop`, mirrors crates/core/src/store.rs:557-565 -/
def popLoop (left : Bool) : Nat → List Bytes → List Bytes × List Bytes
  | 0, l => ([], l)
  | n + 1, l =>
    match popEnd left l with
    | none => ([], l)
    | some (x, l) =>
      let r := popLoop left n l
      (x :: r.1, r.2)

/-- The window of `lrange`, mirrors crates/core/src/store.rs:584-604 -/
def listRange (l : List Bytes) (start stop : Int) : List Bytes :=
  let n : Int := l.length
  if n = 0 then []
  else
    let norm (i : Int) : Int := if i < 0 then max (wrapI64 (n + i)) 0 else min i n
    let s := norm start
    let e := if stop < 0 then max (wrapI64 (wrapI64 (n + stop) + 1)) 0
      else min (wrapI64 (stop + 1)) n
    if s ≥ e then [] else (l.drop s.toNat).take (e - s).toNat

/-- `h.insert(f, v).is_none()` -/
def hashInsert (h : Finmap fun _ : Bytes => Bytes) (p : Bytes × Bytes) :
    Bool × Finmap fun _ : Bytes => Bytes :=
  ((h.lookup p.1).isNone, h.insert p.1 p.2)

/-- `h.remove(f).is_some()` -/
def hashRemove (h : Finmap fun _ : Bytes => Bytes) (f : Bytes) :
    Bool × Finmap fun _ : Bytes => Bytes :=
  ((h.lookup f).isSome, h.erase f)

/-- `set.insert(m)` -/
def setInsert (s : Finset Bytes) (m : Bytes) : Bool × Finset Bytes := (m ∉ s, insert m s)

/-- `set.remove(m)` -/
def setRemove (s : Finset Bytes) (m : Bytes) : Bool × Finset Bytes := (m ∈ s, s.erase m)

namespace Shard

variable {σ : Type} [Score σ] {m : Type → Type} [Monad m]

/-! ## Strings -/

/-- mirrors crates/core/src/store.rs:337-349 -/
def get (s : Shard σ) (key : Bytes) (now : Nat) : Except StoreErr (Option Bytes) × Shard σ :=
  let r := s.live key now
  if !r.1 then (.ok none, r.2)
  else
    let s := r.2.touch key
    (match s.value key with
      | some (.str v) => .ok (some v)
      | some _ => .error .wrongType
      | none => .ok none, s)

/-- mirrors crates/core/src/store.rs:353-365 -/
def readStr (s : Shard σ) (key : Bytes) (now : Nat) : StrRead × Shard σ :=
  let r := s.live key now
  if !r.1 then (.none, r.2)
  else
    let s := r.2.touch key
    (match s.value key with
      | some (.str v) => .str v
      | some _ => .wrongType
      | none => .none, s)

/-- mirrors crates/core/src/store.rs:368-398 -/
def setM (sub : Nat → Nat → m Nat) (pass : Shard σ → m (Shard σ)) (s : Shard σ)
    (key value : Bytes) (opts : SetOptions) (now : Nat) : m (Bool × Shard σ) := do
  let r ← s.liveM sub key now
  let existed := r.1
  let s := r.2
  if opts.nx && existed then return (false, s)
  else if opts.xx && !existed then return (false, s)
  else
    let newExpire := if opts.keepTtl && existed then s.deadline key else opts.expireAt
    let s ←
      if existed then do
        let bytes ← sub (s.bytes + value.length) (s.valueBytes key)
        let s := { s with bytes, map := s.map.getMut key fun _ => ⟨.str value, newExpire⟩ }
        pure (s.touch key)
      else pure (s.putNew key (.str value) newExpire)
    let s ← pass s
    return (true, s)

def set (s : Shard σ) (key value : Bytes) (opts : SetOptions) (now : Nat) : Bool × Shard σ :=
  s.setM plainSub enforceBudget key value opts now

/-- mirrors crates/core/src/store.rs:400-407 -/
def delM (sub : Nat → Nat → m Nat) (s : Shard σ) (key : Bytes) (now : Nat) :
    m (Bool × Shard σ) := do
  let r ← s.liveM sub key now
  if !r.1 then return (false, r.2) else r.2.dropKeyM sub key

def del (s : Shard σ) (key : Bytes) (now : Nat) : Bool × Shard σ := s.delM plainSub key now

/-- mirrors crates/core/src/store.rs:409-413 -/
def exists? (s : Shard σ) (key : Bytes) (now : Nat) : Bool × Shard σ := s.live key now

/-- mirrors crates/core/src/store.rs:416-426 -/
def typeOf (s : Shard σ) (key : Bytes) (now : Nat) : TypeName × Shard σ :=
  let r := s.live key now
  if !r.1 then (.none, r.2) else (((r.2.value key).map Value.typeName).getD .none, r.2)

/-- mirrors crates/core/src/store.rs:428-440 -/
def expireAt (s : Shard σ) (key : Bytes) (deadline : Option Nat) (now : Nat) : Bool × Shard σ :=
  let r := s.live key now
  if !r.1 then (false, r.2)
  else
    match r.2.map.get key with
    | some _ =>
      (true, { r.2 with map := r.2.map.getMut key fun e => { e with expireAt := deadline } })
    | none => (false, r.2)

/-- mirrors crates/core/src/store.rs:442-452 -/
def pttl (s : Shard σ) (key : Bytes) (now : Nat) : Ttl × Shard σ :=
  let r := s.live key now
  if !r.1 then (.noKey, r.2)
  else
    (match r.2.deadline key with
      | none => .noExpiry
      | some t => .millis (t - now), r.2)

/-- The number a string value holds, mirrors crates/core/src/store.rs:460-463 -/
def strInt (v : Bytes) : Except StoreErr Int :=
  match parseI64 (trim v) with
  | some n => .ok n
  | none => .error .notInteger

/-- The value that `incr_by` starts from, mirrors crates/core/src/store.rs:458-469 -/
def counter (s : Shard σ) (key : Bytes) (existed : Bool) : Except StoreErr Int :=
  if existed then
    match s.value key with
    | some (.str v) => strInt v
    | some _ => .error .wrongType
    | none => .ok 0
  else .ok 0

/-- Replace the key's entry by a string, mirrors crates/core/src/store.rs:473-483 and 510-514 -/
def replaceStrM (sub : Nat → Nat → m Nat) (pass : Shard σ → m (Shard σ)) (s : Shard σ)
    (key bytes : Bytes) (existed : Bool) : m (Shard σ) := do
  let expire := if existed then s.deadline key else none
  let r ← if existed then s.dropKeyM sub key else pure (false, s)
  pass (r.2.putNew key (.str bytes) expire)

/-- mirrors crates/core/src/store.rs:454-486 -/
def incrByM (sub : Nat → Nat → m Nat) (pass : Shard σ → m (Shard σ)) (s : Shard σ)
    (key : Bytes) (delta : Int) (now : Nat) : m (Except StoreErr Int × Shard σ) := do
  let r ← s.liveM sub key now
  match r.2.counter key r.1 with
  | .error e => return (.error e, r.2)
  | .ok cur =>
    if InI64 (cur + delta) then do
      let s ← r.2.replaceStrM sub pass key (intText (cur + delta)) r.1
      return (.ok (cur + delta), s)
    else return (.error .overflow, r.2)

def incrBy (s : Shard σ) (key : Bytes) (delta : Int) (now : Nat) :
    Except StoreErr Int × Shard σ := s.incrByM plainSub enforceBudget key delta now

/-- The string that `append` starts from, mirrors crates/core/src/store.rs:491-509 -/
def prior (s : Shard σ) (key : Bytes) (existed : Bool) : Except StoreErr Bytes :=
  if existed then
    match s.value key with
    | some (.str v) => .ok v
    | some _ => .error .wrongType
    | none => .error .unreachable
  else .ok []

/-- mirrors crates/core/src/store.rs:487-516 -/
def appendM (sub : Nat → Nat → m Nat) (pass : Shard σ → m (Shard σ)) (s : Shard σ)
    (key suffix : Bytes) (now : Nat) : m (Except StoreErr Nat × Shard σ) := do
  let r ← s.liveM sub key now
  match r.2.prior key r.1 with
  | .error e => return (.error e, r.2)
  | .ok v => do
    let s ← r.2.replaceStrM sub pass key (v ++ suffix) r.1
    return (.ok (v ++ suffix).length, s)

def append (s : Shard σ) (key suffix : Bytes) (now : Nat) : Except StoreErr Nat × Shard σ :=
  s.appendM plainSub enforceBudget key suffix now

/-- mirrors crates/core/src/store.rs:518-529 -/
def strlen (s : Shard σ) (key : Bytes) (now : Nat) : Except StoreErr Nat × Shard σ :=
  let r := s.live key now
  if !r.1 then (.ok 0, r.2)
  else
    (match r.2.value key with
      | some (.str v) => .ok v.length
      | some _ => .error .wrongType
      | none => .ok 0, r.2)

/-! ## Collections -/

/-- The part of the macro after the closure has run: adjust the byte count, then
delete the key if the collection is empty. mirrors crates/core/src/store.rs:290-303 -/
def writeBackM {C : Type} (sub : Nat → Nat → m Nat) (pass : Shard σ → m (Shard σ))
    (col : Coll (Value σ) C) (s : Shard σ) (key : Bytes) (c : C) : m (Shard σ) := do
  let before := s.valueBytes key
  let s := { s with map := s.map.getMut key fun e => { e with value := col.wrap c } }
  let bytes ← sub (s.bytes + s.valueBytes key) before
  let s := { s with bytes }
  let s := s.touch key
  let empty := (((s.value key).bind col.unwrap).map col.isEmpty).getD false
  if empty then do
    let r ← s.dropKeyM sub key
    return r.2
  else pass s

/-- The `with_collection!` macro, mirrors crates/core/src/store.rs:269-307 -/
def withCollectionM {C R : Type} (sub : Nat → Nat → m Nat) (pass : Shard σ → m (Shard σ))
    (col : Coll (Value σ) C) (s : Shard σ) (key : Bytes) (now : Nat) (body : C → R × C) :
    m (Except StoreErr R × Shard σ) := do
  let r ← s.liveM sub key now
  let s := if r.1 then r.2 else r.2.putNew key (col.wrap col.make) none
  match s.value key with
  | none => return (.error .unreachable, s)
  | some v =>
    match col.unwrap v with
    | none => return (.error .wrongType, s)
    | some c => do
      let s ← s.writeBackM sub pass col key (body c).2
      return (.ok (body c).1, s)

def withCollection {C R : Type} (col : Coll (Value σ) C) (s : Shard σ) (key : Bytes) (now : Nat)
    (body : C → R × C) : Except StoreErr R × Shard σ :=
  s.withCollectionM plainSub enforceBudget col key now body

/-- mirrors crates/core/src/store.rs:753-761 -/
def readCollection {R : Type} (s : Shard σ) (key : Bytes) (now : Nat) (f : Option (Value σ) → R) :
    R × Shard σ :=
  let r := s.live key now
  if !r.1 then (f none, r.2)
  else
    let s := r.2.touch key
    (f (s.value key), s)

end Shard

/-- The single-key operations of the store. -/
inductive KeyOp (σ : Type)
  | get
  | readStr
  | set (value : Bytes) (opts : SetOptions)
  | del
  | exists
  | typeOf
  | expireAt (deadline : Option Nat)
  | pttl
  | incrBy (delta : Int)
  | append (suffix : Bytes)
  | strlen
  | push (vals : List Bytes) (left : Bool)
  | pop (count : Nat) (left : Bool)
  | llen
  | lrange (start stop : Int)
  | hset (pairs : List (Bytes × Bytes))
  | hget (field : Bytes)
  | hdel (fields : List Bytes)
  | hlen
  | hgetall
  | sadd (members : List Bytes)
  | srem (members : List Bytes)
  | sismember (member : Bytes)
  | scard
  | smembers
  | zadd (pairs : List (σ × Bytes))
  | zrem (members : List Bytes)
  | zscore (member : Bytes)
  | zcard
  | zrange (start stop : Int)

namespace KeyOp

variable {σ : Type}

/-- The result type of an operation. -/
@[reducible] def Res : KeyOp σ → Type
  | get => Except StoreErr (Option Bytes)
  | readStr => StrRead
  | set .. => Bool
  | del => Bool
  | KeyOp.exists => Bool
  | typeOf => TypeName
  | expireAt _ => Bool
  | pttl => Ttl
  | incrBy _ => Except StoreErr Int
  | append _ => Except StoreErr Nat
  | strlen => Except StoreErr Nat
  | push .. => Except StoreErr Nat
  | pop .. => Except StoreErr (List Bytes)
  | llen => Except StoreErr Nat
  | lrange .. => Except StoreErr (List Bytes)
  | hset _ => Except StoreErr Nat
  | hget _ => Except StoreErr (Option Bytes)
  | hdel _ => Except StoreErr Nat
  | hlen => Except StoreErr Nat
  | hgetall => Except StoreErr (List (Bytes × Bytes))
  | sadd _ => Except StoreErr Nat
  | srem _ => Except StoreErr Nat
  | sismember _ => Except StoreErr Bool
  | scard => Except StoreErr Nat
  | smembers => Except StoreErr (List Bytes)
  | zadd _ => Except StoreErr Nat
  | zrem _ => Except StoreErr Nat
  | zscore _ => Except StoreErr (Option σ)
  | zcard => Except StoreErr Nat
  | zrange .. => Except StoreErr (List (Bytes × σ))

/-- One line an operation, mirrors crates/core/src/store.rs:337-748. `read` runs those that
subtract nothing but in the lazy expiry. -/
def execM [Score σ] {m : Type → Type} [Monad m] (sub : Nat → Nat → m Nat)
    (pass : Shard σ → m (Shard σ))
    (read : {R : Type} → (Shard σ → R × Shard σ) → Shard σ → m (R × Shard σ)) (env : Env)
    (key : Bytes) : (op : KeyOp σ) → Shard σ → m (op.Res × Shard σ)
  | get, s => read (·.get key env.now) s
  | readStr, s => read (·.readStr key env.now) s
  | set value opts, s => s.setM sub pass key value opts env.now
  | del, s => s.delM sub key env.now
  | KeyOp.exists, s => read (·.exists? key env.now) s
  | typeOf, s => read (·.typeOf key env.now) s
  | expireAt deadline, s => read (·.expireAt key deadline env.now) s
  | pttl, s => read (·.pttl key env.now) s
  | incrBy delta, s => s.incrByM sub pass key delta env.now
  | append suffix, s => s.appendM sub pass key suffix env.now
  | strlen, s => read (·.strlen key env.now) s
  | push vals left, s => s.withCollectionM sub pass Coll.list key env.now (pushAll vals left)
  | pop count left, s => s.withCollectionM sub pass Coll.list key env.now (popLoop left count)
  | llen, s => read (·.readCollection key env.now (readAs Coll.list 0 List.length)) s
  | lrange start stop, s =>
    read (·.readCollection key env.now (readAs Coll.list [] (listRange · start stop))) s
  | hset pairs, s => s.withCollectionM sub pass Coll.hash key env.now (countFold hashInsert pairs)
  | hget field, s =>
    read (·.readCollection key env.now (readAs Coll.hash none (Finmap.lookup field))) s
  | hdel fields, s => s.withCollectionM sub pass Coll.hash key env.now (countFold hashRemove fields)
  | hlen, s => read (·.readCollection key env.now (readAs Coll.hash 0 fun h => h.keys.card)) s
  | hgetall, s => read (·.readCollection key env.now (readAs Coll.hash [] (env.hashOrder key))) s
  | sadd members, s => s.withCollectionM sub pass Coll.set key env.now (countFold setInsert members)
  | srem members, s => s.withCollectionM sub pass Coll.set key env.now (countFold setRemove members)
  | sismember member, s =>
    read (·.readCollection key env.now (readAs Coll.set false fun m => member ∈ m)) s
  | scard, s => read (·.readCollection key env.now (readAs Coll.set 0 Finset.card)) s
  | smembers, s => read (·.readCollection key env.now (readAs Coll.set [] (env.setOrder key))) s
  | zadd pairs, s =>
    s.withCollectionM sub pass Coll.zset key env.now (countFold (fun z p => z.insert p.2 p.1) pairs)
  | zrem members, s =>
    s.withCollectionM sub pass Coll.zset key env.now (countFold ZSet.remove members)
  | zscore member, s =>
    read (·.readCollection key env.now (readAs Coll.zset none (ZSet.score · member))) s
  | zcard, s => read (·.readCollection key env.now (readAs Coll.zset 0 ZSet.len)) s
  | zrange start stop, s =>
    read (·.readCollection key env.now (readAs Coll.zset [] (ZSet.range · start stop))) s

/-- What an operation of the store does to the key's shard. -/
def exec [Score σ] (env : Env) (key : Bytes) : (op : KeyOp σ) → Shard σ → op.Res × Shard σ :=
  execM plainSub Shard.enforceBudget (fun f s => f s) env key

theorem exec_set [Score σ] {env : Env} {key value : Bytes} {opts : SetOptions} {s : Shard σ} :
    (KeyOp.set value opts).exec env key s = s.set key value opts env.now := rfl

theorem exec_incrBy [Score σ] {env : Env} {key : Bytes} {delta : Int} {s : Shard σ} :
    (KeyOp.incrBy delta).exec env key s = s.incrBy key delta env.now := rfl

end KeyOp

end Inmem.L3
