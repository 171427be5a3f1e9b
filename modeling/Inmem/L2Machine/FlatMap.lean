import Inmem.Core.Probe
import Inmem.L1Encoding.Bytes
import Mathlib.Data.Finmap

/-!
# The flat hash table

`crates/core/src/map.rs`: open addressing with linear probing, power-of-two
capacity, growth at load 7/8 and tombstone-free deletion by backward shift.

`Raw V` is the record as the code stores it and the functions below are the
code's loops, with the number of slots as fuel: `none` stands for a loop that
is still running after visiting every slot. `Raw.WF` is the representation
invariant and `FlatMap V` the tables that satisfy it; on those every loop
ends, so the operations are total. `Raw.abs` is the finite map that a table
stands for.

The hasher (`ahash::RandomState`) is an arbitrary function of the key, and
`usize` is unbounded except in `withCapacity`, whose product can wrap.
-/
namespace Inmem.L2

open Inmem.L1 Inmem.Core.Ring Inmem.Core.Probe

/-- mirrors crates/core/src/map.rs:23-27 -/
structure Entry (V : Type) where
  hash : UInt64
  key : Bytes
  value : V
  deriving DecidableEq, Repr

/-- mirrors crates/core/src/map.rs:33-40 -/
structure Raw (V : Type) where
  slots : Slots (Entry V)
  len : Nat
  mask : Nat
  hasher : Bytes → UInt64

namespace Raw

variable {V : Type}

/-- mirrors crates/core/src/map.rs:17-21 -/
def LOAD_NUM : Nat := 7
def LOAD_DEN : Nat := 8
def MIN_CAP : Nat := 16

/-- mirrors crates/core/src/map.rs:50-57 -/
def new (hasher : Bytes → UInt64) : Raw V := { slots := [], len := 0, mask := 0, hasher }

/-- mirrors crates/core/src/map.rs:92-96 -/
def alloc (m : Raw V) (rawCap : Nat) : Raw V :=
  { m with slots := List.replicate rawCap none, mask := rawCap - 1 }

/-- mirrors crates/core/src/map.rs:60-69 -/
def withCapacity (hasher : Bytes → UInt64) (cap : Nat) : Raw V :=
  if 0 < cap then
    (new hasher).alloc (max (Nat.nextPowerOfTwo (cap * LOAD_DEN % 2 ^ 64 / LOAD_NUM + 1)) MIN_CAP)
  else new hasher

/-- mirrors crates/core/src/map.rs:100-102 -/
def growThreshold (m : Raw V) : Nat := m.slots.length / LOAD_DEN * LOAD_NUM

/-- The slot where the search for a hash starts. -/
def ideal (m : Raw V) (hash : UInt64) : Nat := hash.toNat &&& m.mask

/-- The probe loop shared by the lookups, `insert_pre`, `remove_pre` and `grow`:
the slot where it stops, and whether it stopped at a hit. -/
def probe (m : Raw V) (hash : UInt64) (hit : Entry V → Bool) : Option (Nat × Bool) :=
  scan (fun i => (i + 1) &&& m.mask) m.slots hit m.slots.length (m.ideal hash)

/-- The match guard of the probe loops. -/
def hits (hash : UInt64) (key : Bytes) (e : Entry V) : Bool := e.hash == hash && e.key == key

/-- mirrors crates/core/src/map.rs:118-130 -/
def getPre (m : Raw V) (hash : UInt64) (key : Bytes) : Option (Option V) :=
  if m.slots.isEmpty then some none
  else
    match m.probe hash (hits hash key) with
    | none => none
    | some (_, false) => some none
    | some (i, true) => some (m.slots[i]?.join.map Entry.value)

/-- mirrors crates/core/src/map.rs:139-153: the value found, and the table after
the caller has written `f` of it through the reference. -/
def getMutPre (m : Raw V) (hash : UInt64) (key : Bytes) (f : V → V) : Option (Option V × Raw V) :=
  if m.slots.isEmpty then some (none, m)
  else
    match m.probe hash (hits hash key) with
    | none => none
    | some (_, false) => some (none, m)
    | some (i, true) =>
      match m.slots[i]?.join with
      | none => some (none, m)
      | some e =>
        some (some e.value, { m with slots := m.slots.set i (some { e with value := f e.value }) })

/-- One turn of the rehash loop, mirrors crates/core/src/map.rs:243-249 -/
def growInsert (m : Raw V) (e : Entry V) : Option (Raw V) :=
  match m.probe e.hash fun _ => false with
  | none => none
  | some (i, _) => some { m with slots := m.slots.set i (some e) }

/-- mirrors crates/core/src/map.rs:239-250 -/
def grow (m : Raw V) : Option (Raw V) :=
  (live m.slots).foldlM growInsert (m.alloc (max (m.slots.length * 2) MIN_CAP))

/-- mirrors crates/core/src/map.rs:168-172 -/
def reserve (m : Raw V) : Option (Raw V) :=
  if m.slots.isEmpty then some (m.alloc MIN_CAP)
  else if m.len ≥ m.growThreshold then m.grow
  else some m

/-- mirrors crates/core/src/map.rs:174-191 -/
def store (m : Raw V) (hash : UInt64) (key : Bytes) (value : V) : Option (Option V × Raw V) :=
  match m.probe hash (hits hash key) with
  | none => none
  | some (i, false) =>
    some (none, { m with slots := m.slots.set i (some { hash, key, value }), len := m.len + 1 })
  | some (i, true) =>
    match m.slots[i]?.join with
    | none => none
    | some e => some (some e.value, { m with slots := m.slots.set i (some { e with value }) })

/-- mirrors crates/core/src/map.rs:167-192 -/
def insertPre (m : Raw V) (hash : UInt64) (key : Bytes) (value : V) : Option (Option V × Raw V) :=
  m.reserve.bind fun m => m.store hash key value

/-- mirrors crates/core/src/map.rs:262-268 -/
def cyclicIn (a b x : Nat) : Bool :=
  if a < b then a < x && x ≤ b else x > a || x ≤ b

/-- mirrors crates/core/src/map.rs:222-237 -/
def backwardShift (m : Raw V) : Nat → Nat → Nat → Option (Raw V)
  | 0, _, _ => none
  | f + 1, hole, i =>
    let i := (i + 1) &&& m.mask
    match m.slots[i]? with
    | none => none
    | some none => some m
    | some (some e) =>
      if !cyclicIn hole i (m.ideal e.hash) then
        backwardShift { m with slots := (m.slots.set hole (some e)).set i none } f i i
      else backwardShift m f hole i

/-- mirrors crates/core/src/map.rs:201-218 -/
def removePre (m : Raw V) (hash : UInt64) (key : Bytes) : Option (Option V × Raw V) :=
  if m.slots.isEmpty then some (none, m)
  else
    match m.probe hash (hits hash key) with
    | none => none
    | some (_, false) => some (none, m)
    | some (i, true) =>
      match m.slots[i]?.join with
      | none => none
      | some e =>
        (backwardShift { m with slots := m.slots.set i none,
                                len := m.len - 1 } m.slots.length i i).map
          fun m => (some e.value, m)

/-- mirrors crates/core/src/map.rs:113-115 -/
def get (m : Raw V) (key : Bytes) : Option (Option V) := m.getPre (m.hasher key) key

/-- mirrors crates/core/src/map.rs:134-136 -/
def getMut (m : Raw V) (key : Bytes) (f : V → V) : Option (Option V × Raw V) :=
  m.getMutPre (m.hasher key) key f

/-- mirrors crates/core/src/map.rs:156-158 -/
def containsKey (m : Raw V) (key : Bytes) : Option Bool := (m.get key).map Option.isSome

/-- mirrors crates/core/src/map.rs:162-164 -/
def insert (m : Raw V) (key : Bytes) (value : V) : Option (Option V × Raw V) :=
  m.insertPre (m.hasher key) key value

/-- mirrors crates/core/src/map.rs:196-198 -/
def remove (m : Raw V) (key : Bytes) : Option (Option V × Raw V) := m.removePre (m.hasher key) key

/-- mirrors crates/core/src/map.rs:253-257 -/
def iter (m : Raw V) : List (Bytes × V) := (live m.slots).map fun e => (e.key, e.value)

/-- The home slot of a stored entry. -/
def home (m : Raw V) (e : Entry V) : Nat := m.ideal e.hash

/-- The representation invariant. -/
structure WF (m : Raw V) : Prop where
  cap : (m.slots = [] ∧ m.mask = 0) ∨ ∃ k, 4 ≤ k ∧ m.slots.length = 2 ^ k ∧ m.mask = 2 ^ k - 1
  count : m.len = (live m.slots).length
  load : m.len ≤ m.growThreshold
  hashed : ∀ e ∈ live m.slots, e.hash = m.hasher e.key
  keys : ((live m.slots).map Entry.key).Nodup
  path : PathFull m.home m.slots

/-- The finite map a table stands for. -/
def abs (m : Raw V) : Finmap fun _ : Bytes => V := (m.iter.map Prod.toSigma).toFinmap

end Raw

end Inmem.L2
