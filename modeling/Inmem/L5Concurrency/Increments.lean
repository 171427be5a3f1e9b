import Inmem.Core.Merge
import Inmem.Core.Serial
import Inmem.L3Store.Refine

/-!
# Concurrent increments

Clients issue `incr_by` calls on one key of a store without a memory limit. A call holds
the lock of the shard, so it is one step; a schedule interleaves the steps of the clients.
Each step goes through text: the number is read, trimmed and parsed, and the sum is
written as a numeral over the dropped entry.

* `incr_fits`, `incr_overflows`: one call on a key that holds a number.
* `interleave_incrs`: any interleaving, as long as the sums fit an `i64`.
* `increments_exact`: the clients get the running sums, and what is left is the numeral of
  the sum of everything; a call that would leave the range changes nothing.
-/
namespace Inmem.L5

open Inmem.Core Inmem.L1 Inmem.L3 Inmem.Core.Decimal Inmem.Core.Merge

section
variable {σ : Type}

/-- The key is absent, or holds text that is read as `n`; it has no deadline. -/
def HoldsNumber (r : Option (Rec σ)) (n : Int) : Prop :=
  r = none ∧ n = 0 ∨ ∃ t, r = some ⟨.str t, none⟩ ∧ Shard.strInt t = .ok n

/-- The record of a numeral. -/
def numeral (n : Int) : Option (Rec σ) := some ⟨.str (intText n), none⟩

theorem numeral_holds {n : Int} (h : InI64 n) : HoldsNumber (numeral n : Option (Rec σ)) n := by
  refine .inr ⟨intText n, rfl, ?_⟩
  rw [Shard.strInt, trim_intText, parseI64_intText h]

/-- It is live at any time. -/
theorem HoldsNumber.live {r : Option (Rec σ)} {n : Int} (h : HoldsNumber r n) (t : Nat) :
    liveAt t r = r := by
  rcases h with ⟨rfl, -⟩ | ⟨b, rfl, -⟩
  · rfl
  · rfl

/-- Adding to the number that a key holds. -/
theorem HoldsNumber.incr {r : Option (Rec σ)} {n : Int} (h : HoldsNumber r n) (d : Int) :
    specIncr d r = if InI64 (n + d) then (.ok (n + d), numeral (n + d))
      else (.error .overflow, r) := by
  rcases h with ⟨rfl, rfl⟩ | ⟨b, rfl, hb⟩
  · rfl
  · simp only [specIncr, recStr, Option.elim_some, hb]
    rfl

variable [Score σ] {w : World σ} {k : Bytes} {n d : Int}

/-- A call on a store without a memory limit does to the record of its key what
`specIncr` does. -/
theorem incr_call (hw : w.store.Unbounded) (hn : HoldsNumber (w.store.raw k) n) (env : Env) :
    ((Call.key k (.incrBy d)).exec env w).1 = (specIncr d (w.store.raw k)).1 ∧
      ((Call.key k (.incrBy d)).exec env w).2.store.raw k = (specIncr d (w.store.raw k)).2 := by
  have hlive := hn.live env.now
  have hans := (Shard.exec_effect env k (.incrBy d) (w.store.shard k)).1
  have hraw := congrFun (Store.key_raw hw env k (.incrBy d)) k
  rw [show liveAt env.now ((w.store.shard k).raw k) = w.store.raw k from hlive] at hans
  rw [hlive, View.put, if_pos rfl] at hraw
  exact ⟨hans, hraw⟩

/-- It answers with the sum and stores its numeral. -/
theorem incr_fits (hw : w.store.Unbounded) (hn : HoldsNumber (w.store.raw k) n) (env : Env)
    (hd : InI64 (n + d)) :
    ((Call.key k (.incrBy d)).exec env w).1 = .ok (n + d) ∧
      ((Call.key k (.incrBy d)).exec env w).2.store.raw k = numeral (n + d) := by
  have hcall := incr_call (d := d) hw hn env
  rwa [hn.incr, if_pos hd] at hcall

/-- A sum that leaves the range: it fails and the record stays. -/
theorem incr_overflows (hw : w.store.Unbounded) (hn : HoldsNumber (w.store.raw k) n) (env : Env)
    (hd : ¬ InI64 (n + d)) :
    ((Call.key k (.incrBy d)).exec env w).1 = .error .overflow ∧
      ((Call.key k (.incrBy d)).exec env w).2.store.raw k = w.store.raw k := by
  have hcall := incr_call (d := d) hw hn env
  rwa [hn.incr, if_neg hd] at hcall

/-! ## Clients -/

/-- The answers that a client gets. -/
abbrev Answered := List (Except StoreErr Int)

/-- A client that has these amounts to add and these answers. -/
def incrs (k : Bytes) : List Int → Answered → Prog (Call σ) Call.Res Answered
  | [], got => .pure got
  | d :: ds, got => .call (.key k (.incrBy d)) fun r => incrs k ds (got ++ [r])

variable {I : Type}

def adders (k : Bytes) (ds : I → List Int) (got : I → Answered) :
    I → Prog (Call σ) Call.Res Answered :=
  fun i => incrs k (ds i) (got i)

variable [DecidableEq I] {ds : I → List Int} {got : I → Answered} {x : I × Env}

/-- The turn of a client that has nothing more to add. -/
theorem step_done (h : ds x.1 = []) :
    Serial.step Call.exec (adders k ds got, w) x = (adders k ds got, w) := by
  have hprog : adders (σ := σ) k ds got x.1 = .pure (got x.1) := by rw [adders, h, incrs]
  simp only [Serial.step, hprog, Serial.advance]
  rw [← hprog, Function.update_eq_self]

/-- The turn of a client that has. -/
theorem step_next {rest : List Int} (h : ds x.1 = d :: rest) :
    Serial.step Call.exec (adders k ds got, w) x =
      (adders k (Function.update ds x.1 rest)
        (Function.update got x.1 (got x.1 ++ [((Call.key k (.incrBy d)).exec x.2 w).1])),
        ((Call.key k (.incrBy d)).exec x.2 w).2) := by
  have hprog : adders (σ := σ) k ds got x.1 =
      .call (.key k (.incrBy d)) fun r => incrs k rest (got x.1 ++ [r]) := by rw [adders, h, incrs]
  simp only [Serial.step, hprog, Serial.advance]
  refine Prod.ext (funext fun i => ?_) rfl
  by_cases hi : i = x.1
  · subst hi
    simp only [adders, Function.update_self]
  · simp only [adders, Function.update_of_ne hi]

/-! ## Interleavings -/

/-- The sums on the way fit an `i64`. -/
def SumsFit (n : Int) (calls : List (I × Int)) : Prop :=
  ∀ pre, pre <+: calls → InI64 (n + (pre.map Prod.snd).sum)

omit [DecidableEq I] in
theorem SumsFit.cons {p : I × Int} {calls : List (I × Int)} (h : SumsFit n (p :: calls)) :
    InI64 (n + p.2) ∧ SumsFit (n + p.2) calls := by
  refine ⟨?_, fun pre hpre => ?_⟩
  · have hone := h [p] (List.cons_prefix_cons.2 ⟨rfl, List.nil_prefix⟩)
    simpa using hone
  · have hmore := h (p :: pre) (List.cons_prefix_cons.2 ⟨rfl, hpre⟩)
    rwa [List.map_cons, List.sum_cons, ← add_assoc] at hmore

/-- What the calls made so far leave: a numeral, once there has been one. -/
def settled (r : Option (Rec σ)) (n : Int) (calls : List (I × Int)) : Option (Rec σ) :=
  if calls = [] then r else numeral (n + (calls.map Prod.snd).sum)

omit [Score σ] [DecidableEq I] in
theorem settled_cons (r : Option (Rec σ)) (p : I × Int) (calls : List (I × Int)) :
    settled (numeral (n + p.2)) (n + p.2) calls = settled r n (p :: calls) := by
  unfold settled
  rw [if_neg (List.cons_ne_nil p calls), List.map_cons, List.sum_cons]
  split
  · rename_i h
    rw [h]
    simp
  · rw [add_assoc]

/-- Any interleaving whose sums fit: the clients get the running sums of their own calls. -/
theorem interleave_incrs (sched : List (I × Env)) :
    ∀ (ds : I → List Int) (got : I → Answered) (w : World σ) (n : Int),
    w.store.Unbounded → HoldsNumber (w.store.raw k) n → SumsFit n (merge ds (sched.map Prod.fst)) →
    ∃ w' : World σ, Serial.interleave Call.exec sched (adders k ds got, w) =
        (adders k (fun i => (ds i).drop ((sched.map Prod.fst).count i))
          (fun i => got i ++ (ofClient i (running n (merge ds (sched.map Prod.fst)))).map .ok),
          w') ∧
      w'.store.raw k = settled (w.store.raw k) n (merge ds (sched.map Prod.fst)) := by
  induction sched with
  | nil =>
    intro ds got w n _ _ _
    refine ⟨w, Prod.ext (funext fun i => ?_) rfl, rfl⟩
    simp [Serial.interleave, adders, merge, running, ofClient]
  | cons x sched ih =>
    intro ds got w n hw hn hfit
    rw [Serial.interleave, List.foldl_cons]
    rw [List.map_cons] at hfit ⊢
    cases hx : ds x.1 with
    | nil =>
      -- a turn without a call
      rw [merge_done hx] at hfit ⊢
      obtain ⟨w', hrun, hraw⟩ := ih ds got w n hw hn hfit
      rw [step_done hx]
      refine ⟨w', hrun.trans (Prod.ext (funext fun i => ?_) rfl), hraw⟩
      by_cases hi : x.1 = i
      · subst hi
        simp only [adders, hx, List.drop_nil]
      · simp only [adders, List.count_cons_of_ne hi]
    | cons d rest =>
      rw [merge_next hx] at hfit ⊢
      obtain ⟨hd, hfit'⟩ := hfit.cons
      obtain ⟨hans, hraw₁⟩ := incr_fits hw hn x.2 hd
      obtain ⟨w', hrun, hraw⟩ :=
        ih (Function.update ds x.1 rest) (Function.update got x.1 (got x.1 ++ [.ok (n + d)])) _
          (n + d)
        (Store.key_unbounded hw x.2 k (.incrBy d)) (by rw [hraw₁]; exact numeral_holds hd) hfit'
      rw [step_next hx, hans]
      refine ⟨w', hrun.trans (Prod.ext (funext fun i => ?_) rfl), ?_⟩
      · by_cases hi : x.1 = i
        · subst hi
          simp only [adders, Function.update_self, hx, running, ofClient_self, List.count_cons_self,
            List.drop_succ_cons, List.map_cons, List.append_assoc, List.singleton_append]
        · simp only [adders, Function.update_of_ne (Ne.symm hi), running, ofClient_other hi,
            List.count_cons_of_ne hi]
      · rw [hraw, hraw₁]
        exact settled_cons _ (x.1, d) _

/-- Whatever the sums, the key goes on holding a number. -/
theorem interleave_holds (sched : List (I × Env)) :
    ∀ (ds : I → List Int) (got : I → Answered) (w : World σ) (n : Int),
    w.store.Unbounded → HoldsNumber (w.store.raw k) n →
    (Serial.interleave Call.exec sched (adders k ds got, w)).2.store.Unbounded ∧
      ∃ c, HoldsNumber
        ((Serial.interleave Call.exec sched (adders k ds got, w)).2.store.raw k) c := by
  induction sched with
  | nil => exact fun ds got w n hw hn => ⟨hw, n, hn⟩
  | cons x sched ih =>
    intro ds got w n hw hn
    rw [Serial.interleave, List.foldl_cons]
    cases hx : ds x.1 with
    | nil =>
      rw [step_done hx]
      exact ih ds got w n hw hn
    | cons d rest =>
      rw [step_next hx]
      have hw' := Store.key_unbounded hw x.2 k (.incrBy d)
      by_cases hd : InI64 (n + d)
      · exact ih _ _ _ (n + d) hw' (by rw [(incr_fits hw hn x.2 hd).2]; exact numeral_holds hd)
      · exact ih _ _ _ n hw' (by rw [(incr_overflows hw hn x.2 hd).2]; exact hn)

/-- **Concurrent increments.** Any clients, each with any list of amounts to add to one
key of a store without a memory limit, which is absent or holds a number, and any
interleaving of their calls. If the sums fit an `i64`, every call succeeds and a client
is answered the running sums at its own calls; when all have been made, the key holds the
numeral of the first number plus all amounts. In any case, the next call whose sum would
leave the range fails and leaves the record as it is. -/
theorem increments_exact [Fintype I] (ds : I → List Int) (sched : List (I × Env)) (k : Bytes)
    (w : World σ) (n : Int) (hw : w.store.Unbounded) (hn : HoldsNumber (w.store.raw k) n) :
    let calls := merge ds (sched.map Prod.fst)
    let m := Serial.interleave Call.exec sched (adders k ds fun _ => [], w)
    (SumsFit n calls → (∀ i, (ds i).length ≤ (sched.map Prod.fst).count i) →
      (∀ i, m.1 i = .pure ((ofClient i (running n calls)).map .ok)) ∧
        m.2.store.raw k = if calls = [] then w.store.raw k else numeral (n + ∑ i, (ds i).sum)) ∧
    ∃ c, HoldsNumber (m.2.store.raw k) c ∧ ∀ (env : Env) (d : Int), ¬ InI64 (c + d) →
      ((Call.key k (.incrBy d)).exec env m.2).1 = .error .overflow ∧
        ((Call.key k (.incrBy d)).exec env m.2).2.store.raw k = m.2.store.raw k := by
  intro calls m
  refine ⟨fun hfit hall => ?_, ?_⟩
  · obtain ⟨w', hrun, hraw⟩ := interleave_incrs sched ds (fun _ => []) w n hw hn hfit
    have hm : m = _ := hrun
    rw [hm]
    refine ⟨fun i => ?_, ?_⟩
    · simp only [adders, List.drop_of_length_le (hall i), incrs, List.nil_append, calls]
    · rw [settled, merge_sum hall] at hraw
      exact hraw
  · obtain ⟨hw', c, hc⟩ := interleave_holds sched ds (fun _ => []) w n hw hn
    exact ⟨c, hc, fun env d hd => incr_overflows hw' hc env hd⟩

end

/-- Two clients on an absent key: one adds 5 and takes 3 away, the other adds ten. -/
theorem increments_exact_two :
    let m :=
      Serial.interleave Call.exec [(false, Env.plain 0), (true, Env.plain 1), (false, Env.plain 2)]
      (adders (lit "c") (fun b : Bool => if b then [10] else [5, -3]) fun _ => [],
        (⟨Store.new 1 0 (fun _ => 0) fun _ _ _ => 0, none⟩ : World Int))
    m.1 true = .pure [.ok 15] ∧ m.1 false = .pure [.ok 5, .ok 12] ∧
      m.2.store.raw (lit "c") = some ⟨.str (lit "12"), none⟩ := by
  have hgood := new_good (σ := Int) 1 (fun _ => 0) fun _ _ _ => 0
  have habsent := congrFun (new_raw (σ := Int) 1 0 (fun _ => 0) fun _ _ _ => 0) (lit "c")
  have hfit : ∀ pre ∈ List.inits [(false, (5 : Int)), (true, 10), (false, -3)],
      InI64 (0 + (pre.map Prod.snd).sum) := by
    decide
  obtain ⟨hans, hraw⟩ := (increments_exact (fun b : Bool => if b then [10] else [5, -3])
    [(false, Env.plain 0), (true, Env.plain 1), (false, Env.plain 2)] (lit "c")
    (⟨Store.new 1 0 (fun _ => 0) fun _ _ _ => 0, none⟩ : World Int) 0 hgood.unbounded
      (.inl ⟨habsent, rfl⟩)).1
    (fun pre hpre => hfit pre ((List.mem_inits _ _).2 hpre)) (by decide)
  exact ⟨hans true, hans false, hraw⟩

end Inmem.L5
