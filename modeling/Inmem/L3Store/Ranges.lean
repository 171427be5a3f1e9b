import Inmem.Core.Window
import Inmem.L3Store.Refine

/-!
# Ranges of lists and sorted sets

`LRANGE` and `ZRANGE` take two indices, negative ones counting from the end, and
should answer with the elements between them: `span` of the list, and of the
members in rank order.

* `rankRange_span_iff`: `ZSet::range` clamps both indices into the set, so an
  index off one end becomes the element at that end. `Strays` says when that
  element is then selected.
* `listRange_span_iff`: `lrange` clamps each index to its own side and is right,
  but adds one to `stop` first, which overflows for the largest `i64`.
* `zrange_ranks`, `lrange_window`: the same of a store.
-/
namespace Inmem.L3

open Inmem.L1 Inmem.Core.Decimal Inmem.Core.Window

/-! ## Additions -/

theorem wrapI64_eq {z : Int} (h : InI64 z) : wrapI64 z = z := by
  obtain ⟨h1, h2⟩ := h
  unfold i64Min at h1
  unfold i64Max at h2
  exact Int.bmod_eq_of_le (by omega) (by omega)

/-- A negative index and a length cannot overflow. -/
theorem length_add_inI64 {n : Nat} {i : Int} (hn : (n : Int) ≤ i64Max) (hi : InI64 i) (h : i < 0) :
    InI64 (n + i) := by
  obtain ⟨h1, -⟩ := hi
  exact ⟨by omega, by omega⟩

/-! ## Sorted sets -/

/-- One of the clamped indices of `ZSet::range`. -/
def clampRank (n p : Int) : Int := max 0 (min (n - 1) p)

/-- The indices name no rank, but clamped into a set of `n` members they do: `start`
is past the end and `stop` is not before the last rank, or `stop` is before the
beginning and `start` is not after the first rank; in a set with one member, both
lie off their ends. -/
def Strays (n : Nat) (start stop : Int) : Prop :=
  let a := position n start
  let b := position n stop
  0 < n ∧ (n ≤ a ∧ n - 1 ≤ b ∨ b < 0 ∧ a ≤ 0 ∨ n = 1 ∧ n ≤ a ∧ b < 0)

instance decidableStrays (n : Nat) (start stop : Int) : Decidable (Strays n start stop) :=
  inferInstanceAs (Decidable (_ ∧ _))

section
variable {σ : Type} {l : List (Ranked σ)} {start stop : Int}

/-- A rank entry as `ZSet::range` answers it. -/
def Ranked.entry (p : Ranked σ) : Bytes × σ := ((ofLex p).2, (ofLex p).1)

theorem entry_injective : Function.Injective (Ranked.entry (σ := σ)) := by
  intro p q h
  obtain ⟨h1, h2⟩ := Prod.mk.inj h
  exact Prod.ext h2 h1

/-- What `ZSet::range` cuts out. -/
theorem rankRange_eq (hn : (l.length : Int) ≤ i64Max) (hstart : InI64 start) (hstop : InI64 stop)
    (hl : l ≠ []) :
    rankRange l start stop = (window l (clampRank l.length (position l.length start))
      (clampRank l.length (position l.length stop))).map Ranked.entry := by
  have hpos : 0 < l.length := List.length_pos_iff.2 hl
  -- either way of clamping comes to the same
  have hnorm : ∀ i : Int, InI64 i →
      (if i < 0 then max (wrapI64 (l.length + i)) 0 else min i (l.length - 1)) =
        clampRank l.length (position l.length i) := by
    intro i hi
    unfold clampRank position
    split
    · rename_i h
      rw [wrapI64_eq (length_add_inI64 hn hi h), if_neg (by omega)]
      omega
    · rw [if_pos (by omega)]
      omega
  have hlo : 0 ≤ clampRank l.length (position l.length start) := le_max_left ..
  unfold rankRange
  simp only [hnorm start hstart, hnorm stop hstop]
  rw [if_neg (by omega)]
  split
  · rename_i h
    rw [(window_eq_nil l hlo).2 (.inl h)]
    rfl
  · rw [window_eq l _ hlo]
    rfl

/-- `ZSet::range` selects the ranks between the indices, unless it strays. -/
theorem rankRange_span_iff (hn : (l.length : Int) ≤ i64Max) (hstart : InI64 start)
    (hstop : InI64 stop) :
    rankRange l start stop = (span l start stop).map Ranked.entry ↔
      ¬ Strays l.length start stop := by
  by_cases hl : l = []
  · subst hl
    exact iff_of_true rfl fun h => by cases h.1
  have hpos : 0 < l.length := List.length_pos_iff.2 hl
  rw [rankRange_eq hn hstart hstop hl, (List.map_injective_iff.2 entry_injective).eq_iff]
  unfold span Strays
  generalize position l.length start = a
  generalize position l.length stop = b
  have hclamp : 0 ≤ clampRank l.length a := le_max_left ..
  have hmax : 0 ≤ max 0 a := le_max_left ..
  by_cases hoff : l.length ≤ a ∨ b < 0
  · -- nothing is to be selected
    rw [(window_eq_nil l hmax).2 (by omega), window_eq_nil l hclamp]
    unfold clampRank
    omega
  · -- both indices are where they should be
    have ha : clampRank l.length a = max 0 a := by unfold clampRank; omega
    have hb : clampRank l.length b = min ((l.length : Int) - 1) b := by unfold clampRank; omega
    rw [ha, hb]
    exact iff_of_true rfl (by omega)

end

/-! ## Lists -/

/-- `i64` addition, `none` when it overflows. -/
def addI64 (a b : Int) : Option Int := if InI64 (a + b) then some (a + b) else none

/-- mirrors crates/core/src/store.rs:589 -/
def startChecked (n start : Int) : Option Int :=
  if start < 0 then (addI64 n start).map fun i => max i 0 else some (min start n)

/-- mirrors crates/core/src/store.rs:591-595 -/
def stopChecked (n stop : Int) : Option Int :=
  if stop < 0 then (addI64 n stop).bind fun a => (addI64 a 1).map fun i => max i 0
  else (addI64 stop 1).map fun i => min i n

/-- The window of `lrange` with its additions checked; `none` when one overflows.
mirrors crates/core/src/store.rs:584-604 -/
def listRangeChecked (l : List Bytes) (start stop : Int) : Option (List Bytes) :=
  if l.length = 0 then some []
  else
    (startChecked l.length start).bind fun s =>
      (stopChecked l.length stop).map fun e => if s ≥ e then []
        else (l.drop s.toNat).take (e - s).toNat

section
variable {l : List Bytes} {n start stop : Int}

theorem addI64_eq {a b : Int} (h : InI64 (a + b)) : addI64 a b = some (a + b) := if_pos h

theorem wrap_of_addI64 {a b c : Int} (h : addI64 a b = some c) : wrapI64 (a + b) = c := by
  unfold addI64 at h
  split at h
  · rename_i hi; cases h; exact wrapI64_eq hi
  · cases h

theorem startChecked_wraps {s : Int} (h : startChecked n start = some s) :
    (if start < 0 then max (wrapI64 (n + start)) 0 else min start n) = s := by
  unfold startChecked at h
  split at h
  · rename_i hneg
    obtain ⟨a, ha, rfl⟩ := Option.map_eq_some_iff.1 h
    rw [if_pos hneg, wrap_of_addI64 ha]
  · rename_i hneg
    rw [if_neg hneg]
    exact Option.some.inj h

theorem stopChecked_wraps {e : Int} (h : stopChecked n stop = some e) :
    (if stop < 0 then max (wrapI64 (wrapI64 (n + stop) + 1)) 0 else min (wrapI64 (stop + 1)) n) =
      e := by
  unfold stopChecked at h
  split at h
  · rename_i hneg
    obtain ⟨a, ha, h⟩ := Option.bind_eq_some_iff.1 h
    obtain ⟨b, hb, rfl⟩ := Option.map_eq_some_iff.1 h
    rw [if_pos hneg, wrap_of_addI64 ha, wrap_of_addI64 hb]
  · rename_i hneg
    obtain ⟨b, hb, rfl⟩ := Option.map_eq_some_iff.1 h
    rw [if_neg hneg, wrap_of_addI64 hb]

/-- Where no addition overflows, the code computes what the checked window is. -/
theorem listRange_of_checked {r : List Bytes} (h : listRangeChecked l start stop = some r) :
    listRange l start stop = r := by
  unfold listRangeChecked at h
  unfold listRange
  split at h
  · rename_i h0
    rw [if_pos (by omega)]
    exact Option.some.inj h
  · rename_i h0
    obtain ⟨s, hs, h⟩ := Option.bind_eq_some_iff.1 h
    obtain ⟨e, he, rfl⟩ := Option.map_eq_some_iff.1 h
    simp only [startChecked_wraps hs, stopChecked_wraps he]
    rw [if_neg (by omega)]

/-- The first index of the window, over the integers. -/
theorem startChecked_eq {k : Nat} (hk : (k : Int) ≤ i64Max) (hstart : InI64 start) :
    startChecked k start = some (max 0 (min (k : Int) (position k start))) := by
  unfold startChecked position
  split
  · rename_i h
    rw [addI64_eq (length_add_inI64 hk hstart h), if_neg (by omega), Option.map_some]
    congr 1
    omega
  · rw [if_pos (by omega)]
    congr 1
    omega

/-- The index after the window, over the integers. -/
theorem stopChecked_eq {k : Nat} (hk : (k : Int) ≤ i64Max) (hstop : InI64 stop)
    (hmax : stop ≠ i64Max) :
    stopChecked k stop = some (max 0 (min (k : Int) (position k stop + 1))) := by
  unfold stopChecked position
  split
  · rename_i h
    have hadd := length_add_inI64 hk hstop h
    have hone : InI64 (k + stop + 1) := ⟨by have := hadd.1; omega, by omega⟩
    rw [addI64_eq hadd, Option.bind_some, addI64_eq hone, if_neg (by omega), Option.map_some]
    congr 1
    omega
  · have hone : InI64 (stop + 1) := ⟨by have := hstop.1; omega, by have := hstop.2; omega⟩
    rw [addI64_eq hone, if_pos (by omega), Option.map_some]
    congr 1
    omega

/-- With a `stop` that one can be added to, `lrange` cuts out what lies between the indices. -/
theorem listRangeChecked_eq (hn : (l.length : Int) ≤ i64Max) (hstart : InI64 start)
    (hstop : InI64 stop) (hmax : stop ≠ i64Max) :
    listRangeChecked l start stop = some (span l start stop) := by
  unfold listRangeChecked span
  rw [startChecked_eq hn hstart, stopChecked_eq hn hstop hmax, Option.bind_some, Option.map_some]
  generalize position l.length start = a
  generalize position l.length stop = b
  split
  · rename_i h0
    rw [List.length_eq_zero_iff.1 h0]
    rfl
  · congr 1
    split
    · exact ((window_eq_nil l (le_max_left ..)).2 (by omega)).symm
    · rw [window_eq l _ (le_max_left ..)]
      congr 1
      · omega
      · congr 1; omega

/-- The largest `stop` overflows. -/
theorem listRangeChecked_max (hl : l ≠ []) : listRangeChecked l start i64Max = none := by
  have hpos : 0 < l.length := List.length_pos_iff.2 hl
  have hstop : stopChecked l.length i64Max = none := by
    unfold stopChecked
    rw [if_neg (by decide), show addI64 i64Max 1 = none from by decide]
    rfl
  unfold listRangeChecked
  rw [if_neg (by omega), hstop]
  cases startChecked l.length start <;> rfl

/-- No addition of `lrange` overflows and it selects the elements between the
indices, unless `stop` is the largest `i64` and the list is not empty. -/
theorem listRange_span_iff (hn : (l.length : Int) ≤ i64Max) (hstart : InI64 start)
    (hstop : InI64 stop) :
    (listRangeChecked l start stop ≠ none ∧ listRange l start stop = span l start stop) ↔
      ¬ (l ≠ [] ∧ stop = i64Max) := by
  by_cases hl : l = []
  · subst hl
    exact iff_of_true ⟨Option.some_ne_none _, rfl⟩ fun h => h.1 rfl
  by_cases hmax : stop = i64Max
  · subst hmax
    exact iff_of_false (fun h => h.1 (listRangeChecked_max hl)) fun h => h ⟨hl, rfl⟩
  · have hsome := listRangeChecked_eq hn hstart hstop hmax
    refine iff_of_true ⟨?_, listRange_of_checked hsome⟩ fun h => hmax h.2
    rw [hsome]
    exact Option.some_ne_none _

end

/-! ## The store -/

section
variable {σ : Type} [Score σ]

theorem rankList_length (z : Finmap fun _ : Bytes => σ) : (rankList z).length = z.keys.card := by
  rw [rankList, Multiset.length_sort, Multiset.card_map]
  exact (Multiset.card_map Sigma.fst z.entries).symm

/-- **ZRANGE.** A key that holds a sorted set, on every store, and any two indices: the
answer is the members of the ranks between the indices, in the order of score and
member, if and only if the indices do not stray. (A collection has at most `i64::MAX`
elements.) -/
theorem zrange_ranks (env : Env) (w : World σ) (k : Bytes) (z : Finmap fun _ : Bytes => σ)
    (d : Option Nat) (hk : w.store.raw.at env.now k = some ⟨.zset z, d⟩)
    (hn : (z.keys.card : Int) ≤ i64Max) (start stop : Int) (hstart : InI64 start)
    (hstop : InI64 stop) :
    ((Call.key k (.zrange start stop)).exec env w).1 =
      .ok ((span (rankList z) start stop).map Ranked.entry) ↔
      ¬ Strays z.keys.card start stop := by
  have hread : ((Call.key k (.zrange start stop)).exec env w).1 =
      .ok (rankRange (rankList z) start stop) := by
    have heff := (Shard.exec_effect env k (.zrange start stop) (w.store.shard k)).1
    rw [show liveAt env.now ((w.store.shard k).raw k) = some ⟨.zset z, d⟩ from hk] at heff
    exact heff
  rw [hread, Except.ok.injEq, ← rankList_length z]
  exact rankRange_span_iff (by rwa [rankList_length]) hstart hstop

/-- **LRANGE.** A key that holds a list, on every store, and any two indices: no
addition overflows and the answer is the elements between the indices, if and only if
`stop` is not the largest `i64` (or the list is empty). -/
theorem lrange_window (env : Env) (w : World σ) (k : Bytes) (l : List Bytes) (d : Option Nat)
    (hk : w.store.raw.at env.now k = some ⟨.list l, d⟩) (hn : l.length < 2 ^ 63)
    (start stop : Int) (hstart : InI64 start) (hstop : InI64 stop) :
    (listRangeChecked l start stop ≠ none ∧
      ((Call.key k (.lrange start stop)).exec env w).1 = .ok (span l start stop)) ↔
      ¬ (l ≠ [] ∧ stop = i64Max) := by
  have hread : ((Call.key k (.lrange start stop)).exec env w).1 = .ok (listRange l start stop) := by
    have heff := (Shard.exec_effect env k (.lrange start stop) (w.store.shard k)).1
    rw [show liveAt env.now ((w.store.shard k).raw k) = some ⟨.list l, d⟩ from hk] at heff
    exact heff
  rw [hread, Except.ok.injEq]
  exact listRange_span_iff (by unfold i64Max; omega) hstart hstop

end

/-- A sorted set of three and a list of two. -/
def rangeWorld : World Int :=
  runCalls [(Env.plain 0, .key (lit "z") (.zadd [(3, lit "c"), (1, lit "a"), (2, lit "b")])),
    (Env.plain 0, .key (lit "l") (.push [lit "x", lit "y"] false))]
    ⟨Store.new 1 0 (fun _ => 0) (fun _ _ _ => 0), none⟩

/-- The scores of the sorted set. -/
def rangeScores : Finmap fun _ : Bytes => Int :=
  ((((∅ : Finmap fun _ : Bytes => Int).insert (lit "c") 3).insert (lit "a") 1).insert (lit "b") 2)

/-- The last two ranks. -/
theorem zrange_ranks_last :
    ((Call.key (lit "z") (.zrange (-2) 5)).exec (Env.plain 0) rangeWorld).1 =
    .ok ((span (rankList rangeScores) (-2) 5).map Ranked.entry) :=
  (zrange_ranks (Env.plain 0) rangeWorld (lit "z") rangeScores none (by decide +kernel)
    (by decide +kernel) (-2) 5
    (by decide) (by decide)).2 (by decide +kernel)

/-- From past the end on: the last member, where nothing is asked for. -/
theorem zrange_past_end :
    rangeWorld.store.raw.at 0 (lit "z") = some ⟨.zset rangeScores, none⟩ ∧
      ((Call.key (lit "z") (.zrange 7 9)).exec (Env.plain 0) rangeWorld).1 = .ok [(lit "c", 3)] ∧
      (span (rankList rangeScores) 7 9).map Ranked.entry = [] := by
  refine ⟨by decide +kernel, by decide +kernel, ?_⟩
  have hcard : rangeScores.keys.card = 3 := by decide +kernel
  rw [span_past _ _ (by rw [rankList_length, hcard]; decide)]
  rfl

/-- All of the list. -/
theorem lrange_window_all :
    listRangeChecked [lit "x", lit "y"] 0 (-1) ≠ none ∧
    ((Call.key (lit "l") (.lrange 0 (-1))).exec (Env.plain 0) rangeWorld).1 =
      .ok (span [lit "x", lit "y"] 0 (-1)) :=
  (lrange_window (Env.plain 0) rangeWorld (lit "l") [lit "x", lit "y"] none (by decide +kernel)
    (by decide) 0 (-1)
    (by decide) (by decide)).2 (by decide)

/-- Up to the largest index: nothing, where all of the list is asked for. -/
theorem lrange_max_overflows :
    rangeWorld.store.raw.at 0 (lit "l") = some ⟨.list [lit "x", lit "y"], none⟩ ∧
      listRangeChecked [lit "x", lit "y"] 0 i64Max = none ∧
      ((Call.key (lit "l") (.lrange 0 i64Max)).exec (Env.plain 0) rangeWorld).1 = .ok [] ∧
      span [lit "x", lit "y"] 0 i64Max = [lit "x", lit "y"] := by
  decide +kernel

end Inmem.L3
