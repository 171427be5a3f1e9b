import Inmem.L3Store.Ranges

/-!
# The two indexes of a sorted set

`ZSet` keeps its members twice: with their scores in a hash map, and as `(score, member)`
pairs in an ordered set. `zadd` and `zrem` update both, pair by pair.

* `exec_inv`, `run_inv`: the indexes agree after every update, and so after every run.
* `zadd_len`, `zrem_len`: the number answered is the change of the cardinality.
* `answers_of_record`: what the store answers on a key that holds the sorted set.
* `zset_indexes_agree`: all of it, for every run of updates.

The order of the scores is an arbitrary linear one.
-/
namespace Inmem.L3

open Inmem.L1 Inmem.Core.Decimal

/-- The updates of a sorted set. -/
inductive ZOp (σ : Type)
  | zadd (pairs : List (σ × Bytes))
  | zrem (members : List Bytes)

namespace RawZSet

variable {σ : Type} [Score σ]

/-- `ZSet::default()` -/
def empty : RawZSet σ := ⟨∅, []⟩

/-- mirrors crates/core/src/store.rs:53-55 -/
def len (z : RawZSet σ) : Nat := z.scores.keys.card

/-- The body of `zadd`, mirrors crates/core/src/store.rs:706-711 -/
def zadd (z : RawZSet σ) (pairs : List (σ × Bytes)) : Nat × RawZSet σ :=
  countFold (fun z p => z.insert p.2 p.1) pairs z

/-- The body of `zrem`, mirrors crates/core/src/store.rs:715-723 -/
def zrem (z : RawZSet σ) (members : List Bytes) : Nat × RawZSet σ := countFold remove members z

def exec (z : RawZSet σ) : ZOp σ → Nat × RawZSet σ
  | .zadd pairs => z.zadd pairs
  | .zrem members => z.zrem members

def run (ops : List (ZOp σ)) (z : RawZSet σ) : RawZSet σ := ops.foldl (fun z op => (z.exec op).2) z

variable {z : RawZSet σ}

/-! ## The invariant -/

theorem empty_inv : (empty : RawZSet σ).Inv := ZSet.empty.2

theorem countFold_inv {A : Type} {f : RawZSet σ → A → Bool × RawZSet σ}
    (hf : ∀ z a, z.Inv → (f z a).2.Inv) (as : List A) :
    ∀ z : RawZSet σ, z.Inv → (countFold f as z).2.Inv := by
  induction as with
  | nil => exact fun _ h => h
  | cons a as ih => exact fun z h => ih _ (hf z a h)

theorem exec_inv (h : z.Inv) (op : ZOp σ) : (z.exec op).2.Inv := by
  cases op with
  | zadd pairs => exact countFold_inv (fun z p h => insert_inv h p.2 p.1) pairs z h
  | zrem members => exact countFold_inv (fun z m h => remove_inv h m) members z h

theorem run_inv (ops : List (ZOp σ)) : ∀ {z : RawZSet σ}, z.Inv → (run ops z).Inv := by
  induction ops with
  | nil => exact fun h => h
  | cons op ops ih => exact fun h => ih (exec_inv h op)

/-- A pair is in the ordered index once if it is the member's score, and otherwise not. -/
theorem Inv.count_sorted (h : z.Inv) (s : σ) (m : Bytes) :
    z.sorted.count (toLex (s, m)) = if z.scores.lookup m = some s then 1 else 0 := by
  have hnd : z.sorted.Nodup := h.sorted.imp ne_of_lt
  split
  · rename_i hl
    exact List.count_eq_one_of_mem hnd ((h.agree s m).2 hl)
  · rename_i hl
    exact List.count_eq_zero_of_not_mem (mt (h.agree s m).1 hl)

theorem Inv.sorted_eq (h : z.Inv) : z.sorted = rankList z.scores := ZSet.sorted_eq ⟨z, h⟩

theorem Inv.len_eq (h : z.Inv) : z.len = z.sorted.length := by
  rw [h.sorted_eq, rankList_length]
  rfl

/-! ## Cardinalities -/

omit [Score σ] in
theorem mem_keys_iff {a : Finmap fun _ : Bytes => σ} {m : Bytes} :
    m ∈ a.keys ↔ (a.lookup m).isSome = true := by
  rw [Finmap.mem_keys, Finmap.lookup_isSome]

theorem insert_len (z : RawZSet σ) (m : Bytes) (s : σ) :
    (z.insert m s).2.len = z.len + if (z.insert m s).1 then 1 else 0 := by
  rw [len, len, insert_scores, insert_fst, L2.Raw.keys_insert, Finset.card_insert_eq_ite]
  cases hl : z.scores.lookup m with
  | none => simp [mem_keys_iff, hl]
  | some x => simp [mem_keys_iff, hl]

theorem remove_len (z : RawZSet σ) (m : Bytes) :
    (z.remove m).2.len + (if (z.remove m).1 then 1 else 0) = z.len := by
  rw [len, len, remove_scores, remove_fst, Finmap.keys_erase]
  cases hl : z.scores.lookup m with
  | none => simp [mem_keys_iff, hl]
  | some x =>
    have hm : m ∈ z.scores.keys := mem_keys_iff.2 (by rw [hl]; rfl)
    exact Finset.card_erase_add_one hm

/-- `zadd` answers how many members were added. -/
theorem zadd_len (pairs : List (σ × Bytes)) :
    ∀ z : RawZSet σ, (z.zadd pairs).2.len = z.len + (z.zadd pairs).1 := by
  induction pairs with
  | nil => exact fun _ => rfl
  | cons p pairs ih =>
    intro z
    have hrest := ih (z.insert p.2 p.1).2
    rw [insert_len] at hrest
    simp only [zadd, countFold] at hrest ⊢
    omega

/-- `zrem` answers how many members were removed. -/
theorem zrem_len (members : List Bytes) :
    ∀ z : RawZSet σ, (z.zrem members).2.len + (z.zrem members).1 = z.len := by
  induction members with
  | nil => exact fun _ => rfl
  | cons m members ih =>
    intro z
    have hrest := ih (z.remove m).2
    have hone := remove_len z m
    simp only [zrem, countFold] at hrest ⊢
    omega

end RawZSet

/-! ## The store -/

section
variable {σ : Type} [Score σ]

omit [Score σ] in
/-- `ZRANGE key 0 -1` lists the whole index. -/
theorem rankRange_full (l : List (Ranked σ)) (hn : (l.length : Int) ≤ i64Max) :
    rankRange l 0 (-1) = l.map Ranked.entry := by
  unfold rankRange
  by_cases h0 : (l.length : Int) = 0
  · have hl : l = [] := List.length_eq_zero_iff.1 (by omega)
    rw [if_pos h0, hl]
    rfl
  · have hwrap := wrapI64_eq (length_add_inI64 (i := -1) hn (by decide) (by decide))
    have hlo : min (0 : Int) (l.length - 1) = 0 := by omega
    have hhi : max ((l.length : Int) + -1) 0 = l.length - 1 := by omega
    simp only [if_neg h0, if_neg (lt_irrefl (0 : Int)), if_pos (show (-1 : Int) < 0 by decide),
      hwrap, hlo, hhi]
    rw [if_neg (by omega), Int.toNat_zero, List.drop_zero, List.take_of_length_le (by omega)]
    rfl

theorem rankRange_empty {start stop : Int} :
    rankRange (rankList (∅ : Finmap fun _ : Bytes => σ)) start stop = [] := by
  have hl : rankList (∅ : Finmap fun _ : Bytes => σ) = [] :=
    List.length_eq_zero_iff.1 (by rw [rankList_length]; rfl)
  rw [hl]
  rfl

namespace RawZSet

/-- The record of a key that holds a sorted set; an empty one is not kept. -/
def record (z : RawZSet σ) (deadline : Option Nat) : Option (Rec σ) :=
  if z.len = 0 then none else some ⟨.zset z.scores, deadline⟩

variable {z : RawZSet σ}

omit [Score σ] in
/-- An update of the record is one of the scores. -/
theorem specColl_record {R : Type} (z : RawZSet σ) (d : Option Nat)
    (body : (Finmap fun _ : Bytes => σ) → R × Finmap fun _ : Bytes => σ) :
    specColl VColl.zset body (z.record d) = (.ok (body z.scores).1,
      if (body z.scores).2.keys.card = 0 then none
      else some ⟨.zset (body z.scores).2, if z.len = 0 then none else d⟩) := by
  unfold record
  split
  · rename_i h
    rw [keys_card_eq (beq_iff_eq.2 h)]
    simp [specColl, VColl.zset]
  · simp [specColl, VColl.zset]

omit [Score σ] in
theorem specRead_record {R : Type} (z : RawZSet σ) (d : Option Nat) (absent : R)
    (f : (Finmap fun _ : Bytes => σ) → R) (hempty : f ∅ = absent) :
    (specRead VColl.zset absent f (z.record d)).1 = .ok (f z.scores) := by
  unfold record
  split
  · rename_i h
    rw [keys_card_eq (beq_iff_eq.2 h), hempty]
    rfl
  · rfl

theorem zadd_scores (z : RawZSet σ) (pairs : List (σ × Bytes)) :
    countFold
      (fun (a : Finmap fun _ : Bytes => σ)
        (p : σ × Bytes) => ((a.lookup p.2).isNone, a.insert p.2 p.1)) pairs z.scores =
      ((z.zadd pairs).1, (z.zadd pairs).2.scores) :=
  Shard.countFold_map scores _ _ (fun z p => by rw [insert_fst, insert_scores]) pairs z

theorem zrem_scores (z : RawZSet σ) (members : List Bytes) :
    countFold
      (fun (a : Finmap fun _ : Bytes => σ) m => ((a.lookup m).isSome, a.erase m)) members z.scores =
      ((z.zrem members).1, (z.zrem members).2.scores) :=
  Shard.countFold_map scores _ _ (fun z m => by rw [remove_fst, remove_scores]) members z

end RawZSet

def ZOp.keyOp : ZOp σ → KeyOp σ
  | .zadd pairs => .zadd pairs
  | .zrem members => .zrem members

/-- An update of a key without a deadline leaves the updated sorted set. -/
theorem keyOp_record (now : Nat) (z : RawZSet σ) (op : ZOp σ) :
    (op.keyOp.spec now (z.record none)).2 = (z.exec op).2.record none := by
  cases op with
  | zadd pairs =>
    rw [ZOp.keyOp, KeyOp.spec, RawZSet.specColl_record, RawZSet.zadd_scores, ite_self]
    rfl
  | zrem members =>
    rw [ZOp.keyOp, KeyOp.spec, RawZSet.specColl_record, RawZSet.zrem_scores, ite_self]
    rfl

/-- The store answers for a key from the sorted set `z`. -/
structure Answers (z : RawZSet σ) (env : Env) (w : World σ) (k : Bytes) : Prop where
  zcard : ((Call.key k .zcard).exec env w).1 = .ok z.sorted.length
  zscore : ∀ m, ((Call.key k (.zscore m)).exec env w).1 = .ok (z.scores.lookup m)
  zrange : (z.sorted.length : Int) ≤ i64Max →
    ((Call.key k (.zrange 0 (-1))).exec env w).1 = .ok (z.sorted.map Ranked.entry)
  zadd : ∀ pairs, ((Call.key k (.zadd pairs)).exec env w).1 = .ok (z.zadd pairs).1
  zrem : ∀ members, ((Call.key k (.zrem members)).exec env w).1 = .ok (z.zrem members).1

/-- On every store, bounded or not, the answers for a key are those of the sorted set it holds. -/
theorem answers_of_record {z : RawZSet σ} (hz : z.Inv) {env : Env} {w : World σ} {k : Bytes}
    {d : Option Nat} (hk : w.store.raw.at env.now k = z.record d) : Answers z env w k := by
  have heff : ∀ op : KeyOp σ, op.Same ((Call.key k op).exec env w).1
      (op.spec env.now (z.record d)).1 := by
    intro op
    have h := (Shard.exec_effect env k op (w.store.shard k)).1
    rwa [show liveAt env.now ((w.store.shard k).raw k) = z.record d from hk] at h
  refine ⟨?_, fun m => ?_, fun hn => ?_, fun pairs => ?_, fun members => ?_⟩
  · refine (heff .zcard).trans ?_
    rw [← hz.len_eq]
    exact RawZSet.specRead_record z d 0 _ rfl
  · exact (heff (.zscore m)).trans (RawZSet.specRead_record z d none _ rfl)
  · refine (heff (.zrange 0 (-1))).trans ?_
    rw [← rankRange_full _ hn, hz.sorted_eq]
    exact RawZSet.specRead_record z d [] (fun a => rankRange (rankList a) 0 (-1)) rankRange_empty
  · refine (heff (.zadd pairs)).trans ?_
    rw [KeyOp.spec, RawZSet.specColl_record, RawZSet.zadd_scores]
  · refine (heff (.zrem members)).trans ?_
    rw [KeyOp.spec, RawZSet.specColl_record, RawZSet.zrem_scores]

/-- The calls of a run of updates of one key. -/
def ZOp.calls (k : Bytes) (run : List (Env × ZOp σ)) : List (Env × Call σ) :=
  run.map fun p => (p.1, .key k p.2.keyOp)

theorem calls_record (k : Bytes) (run : List (Env × ZOp σ)) :
    ∀ {w : World σ} {z : RawZSet σ}, w.store.Unbounded →
    w.store.raw k = z.record none →
    (runCalls (ZOp.calls k run) w).store.raw k =
      (RawZSet.run (run.map Prod.snd) z).record none := by
  induction run with
  | nil => exact fun _ h => h
  | cons p run ih =>
    intro w z hw hk
    refine ih (Store.key_unbounded hw p.1 k p.2.keyOp) ?_
    have hlive : liveAt p.1.now (z.record none) = z.record none := by
      unfold RawZSet.record
      split <;> rfl
    have hraw := congrFun (Store.key_raw hw p.1 k p.2.keyOp) k
    rw [hk, hlive, keyOp_record] at hraw
    refine hraw.trans ?_
    simp [View.put]

/-- **Sorted sets.** Any updates `zadd` and `zrem`, each of any number of pairs or members,
lead to indexes that agree: the ordered one has each member once, with its score, and
nothing else, in the order of score and member, and the next update answers the change of
the cardinality. On every store the answers for a key that holds the sorted set are
taken from it, and on an unbounded one the calls make a fresh key hold it. -/
theorem zset_indexes_agree (run : List (Env × ZOp σ)) :
    let z := RawZSet.run (run.map Prod.snd) RawZSet.empty
    (∀ s m, z.sorted.count (toLex (s, m)) = if z.scores.lookup m = some s then 1 else 0) ∧
    z.sorted.Pairwise (· < ·) ∧ z.len = z.sorted.length ∧
    (∀ pairs, (z.zadd pairs).2.len = z.len + (z.zadd pairs).1) ∧
    (∀ members, (z.zrem members).2.len + (z.zrem members).1 = z.len) ∧
    (∀ (env : Env) (w : World σ) (k : Bytes) (d : Option Nat),
      w.store.raw.at env.now k = z.record d → Answers z env w k) ∧
    ∀ (w : World σ) (k : Bytes), w.store.Unbounded → w.store.raw k = none →
      (runCalls (ZOp.calls k run) w).store.raw k = z.record none := by
  have hinv : (RawZSet.run (run.map Prod.snd) (RawZSet.empty : RawZSet σ)).Inv :=
    RawZSet.run_inv _ RawZSet.empty_inv
  exact ⟨hinv.count_sorted, hinv.sorted, hinv.len_eq, fun pairs => RawZSet.zadd_len pairs _,
    fun members => RawZSet.zrem_len members _, fun env w k d hk => answers_of_record hinv hk,
    fun w k hw hk => calls_record k run hw hk⟩

end

end Inmem.L3
