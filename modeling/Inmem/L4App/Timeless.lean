import Inmem.L4App.TimeShift

/-!
# Commands without deadlines

On a keyspace without deadlines, a command that sets none does the same whenever it
runs: `Write.eff` is its effect, a function of the keyspace alone.

* `run_timeless`: every run of the write has that effect, and sets no deadline;
* `eff_unlogged`: a write that is not logged leaves the keyspace as it was;
* `apply_timeless`, `serve_timeless`: dispatching and serving a command.
-/
namespace Inmem.L3

/-- No record has a deadline. -/
def View.Timeless {σ : Type} (v : View σ) : Prop := ∀ k r, v k = some r → r.deadline = none

section
variable {σ : Type} {v : View σ}

theorem View.Timeless.live (hv : v.Timeless) (t : Nat) (k : Inmem.L1.Bytes) :
    liveAt t (v k) = v k := by
  cases h : v k with
  | none => rfl
  | some r => exact liveAt_eq_some.2 ⟨rfl, by rw [hv k r h]; rfl⟩

theorem View.Timeless.at (hv : v.Timeless) (t : Nat) : v.at t = v := funext fun k => hv.live t k

theorem View.Timeless.put (hv : v.Timeless) (k : Inmem.L1.Bytes) {r : Option (Rec σ)}
    (hr : ∀ x, r = some x → x.deadline = none) : (v.put k r).Timeless := by
  intro k' x hx
  by_cases hk : k' = k
  · subst hk; rw [View.put_self] at hx; exact hr x hx
  · rw [View.put_other _ _ hk] at hx; exact hv k' x hx

theorem View.put_same (v : View σ) (k : Inmem.L1.Bytes) : v.put k (v k) = v := by
  funext k'
  by_cases hk : k' = k
  · subst hk; simp
  · simp [View.put, hk]

theorem View.timeless_none : View.Timeless (fun _ => none : View σ) := fun _ _ h => by cases h

end

end Inmem.L3

namespace Inmem.L4

open Inmem.Core Inmem.L1 Inmem.L1.Resp Inmem.L3

/-! ## Commands that set no deadline -/

/-- An option that sets a deadline. -/
def ttlWord (a : Bytes) : Bool :=
  optionWord a == lit "EX" || optionWord a == lit "PX" || optionWord a == lit "EXAT" ||
    optionWord a == lit "PXAT"

theorem not_relative {words : List Bytes} (h : words.any ttlWord = false) :
    words.any relativeWord = false := by
  rw [List.any_eq_false] at h ⊢
  intro a ha hr
  refine h a ha ?_
  simp only [relativeWord, Bool.or_eq_true] at hr
  simp only [ttlWord, Bool.or_eq_true]
  exact .inl (.inl hr)

theorem expiryWord_none {a : Bytes} (h : ttlWord a = false) : expiryWord (optionWord a) = none := by
  simp only [ttlWord, Bool.or_eq_false_iff, beq_eq_false_iff_ne] at h
  obtain ⟨⟨⟨h1, h2⟩, h3⟩, h4⟩ := h
  rw [expiryWord, if_neg h1, if_neg h2, if_neg h3, if_neg h4]

theorem setOptions_timeless (now : Nat) (words : List Bytes) (opts : SetOptions) (get : Bool)
    {r : SetOptions × Bool} (h : words.any ttlWord = false)
    (hr : setOptions now words opts get = .ok r) : r.1.expireAt = opts.expireAt := by
  refine (setOptions_inv now (I := fun rest q => rest.any ttlWord = false ∧
    q.1.expireAt = opts.expireAt)
    ?_ ?_ words opts get ⟨h, rfl⟩ hr).2
  · intro a rest q q' hq hword
    obtain ⟨hrest, he⟩ := hq
    simp only [List.any_cons, Bool.or_eq_false_iff] at hrest
    exact ⟨hrest.2, (plainWord_spec hword).2.1.trans he⟩
  · intro a b rest opts' get' u n hq hu _
    obtain ⟨hrest, -⟩ := hq
    simp only [List.any_cons, Bool.or_eq_false_iff] at hrest
    rw [expiryWord_none hrest.1] at hu
    cases hu

section
variable {σ : Type}

/-- A write that sets no deadline. -/
def Write.ttlFree : Write σ → Bool
  | .set _ _ words => !words.any ttlWord
  | .one _ (.set _ opts) _ => opts.expireAt.isNone
  | .setex .. | .expire .. => false
  | _ => true

/-- The effect of a write on a keyspace without deadlines: whether it is logged, and
the keyspace. -/
def Write.eff [Score σ] (w : Write σ) (v : View σ) : Bool × View σ :=
  let r := w.run (fun _ => 0) v 0
  (r.1, r.2.1)

end

/-- The calls that neither read the clock nor set a deadline. -/
def Clockless {σ : Type} : Call σ → Prop
  | .key _ (.set _ opts) => opts.expireAt = none
  | .key _ (.expireAt d) => d = none
  | .key _ _ => True
  | .flushAll => True
  | _ => False

section
variable {σ : Type} [Score σ] {v : View σ}

omit [Score σ] in
theorem specColl_timeless {C R : Type} {col : Coll (Val σ) C} {body : C → R × C}
    {r : Option (Rec σ)} (hr : ∀ x, r = some x → x.deadline = none) {y : Rec σ}
    (h : (specColl col body r).2 = some y) : y.deadline = none := by
  cases r with
  | none =>
    simp only [specColl] at h
    split at h
    · cases h
    · cases h; rfl
  | some x => rw [specColl_deadline h]; exact hr x rfl

omit [Score σ] in
theorem recPutStr_timeless {r : Option (Rec σ)} (hr : ∀ x, r = some x → x.deadline = none)
    (b : Bytes) {y : Rec σ} (h : recPutStr r b = some y) : y.deadline = none := by
  cases h
  cases r with
  | none => rfl
  | some x => exact hr x rfl

/-- On a record without a deadline such an operation does the same at any time, and
sets none. -/
theorem spec_timeless {k : Bytes} {op : KeyOp σ} (hop : Clockless (.key k op)) {r : Option (Rec σ)}
    (hr : ∀ x, r = some x → x.deadline = none) (t t' : Nat) :
    op.spec t r = op.spec t' r ∧ ∀ x, (op.spec t r).2 = some x → x.deadline = none := by
  cases op with
  | set x opts =>
    refine ⟨rfl, fun y hy => ?_⟩
    have hop : opts.expireAt = none := hop
    simp only [KeyOp.spec] at hy
    split at hy
    · cases hy
      cases r with
      | none => exact hop
      | some z =>
        simp only [SetOptions.deadline]
        split
        · exact hr z rfl
        · exact hop
    · exact hr y hy
  | del => exact ⟨rfl, fun y hy => by cases hy⟩
  | expireAt d =>
    have hop : d = none := hop
    refine ⟨rfl, fun y hy => ?_⟩
    obtain ⟨z, -, rfl⟩ := Option.map_eq_some_iff.1 hy
    exact hop
  | pttl =>
    refine ⟨?_, hr⟩
    cases r with
    | none => rfl
    | some x => simp only [KeyOp.spec, Option.elim_some, hr x rfl, Option.elim_none]
  | incrBy delta =>
    refine ⟨rfl, fun y hy => ?_⟩
    simp only [KeyOp.spec, specIncr] at hy
    split at hy
    · exact hr y hy
    · split at hy
      · exact hr y hy
      · split at hy
        · exact recPutStr_timeless hr _ hy
        · exact hr y hy
  | append suffix =>
    refine ⟨rfl, fun y hy => ?_⟩
    simp only [KeyOp.spec, specAppend] at hy
    split at hy
    · exact hr y hy
    · exact recPutStr_timeless hr _ hy
  | push => exact ⟨rfl, fun _ => specColl_timeless hr⟩
  | pop => exact ⟨rfl, fun _ => specColl_timeless hr⟩
  | hset => exact ⟨rfl, fun _ => specColl_timeless hr⟩
  | hdel => exact ⟨rfl, fun _ => specColl_timeless hr⟩
  | sadd => exact ⟨rfl, fun _ => specColl_timeless hr⟩
  | srem => exact ⟨rfl, fun _ => specColl_timeless hr⟩
  | zadd => exact ⟨rfl, fun _ => specColl_timeless hr⟩
  | zrem => exact ⟨rfl, fun _ => specColl_timeless hr⟩
  | _ => exact ⟨rfl, hr⟩

/-- Two runs at different times go hand in hand. -/
def SameView (s t : View σ × Nat) : Prop := s.1 = t.1 ∧ s.1.Timeless

theorem clockless_sim (clock clock' : Nat → Nat) (c : Call σ) (s t : View σ × Nat)
    (hc : Clockless c) (h : SameView s t) :
    (viewCall clock c s).1 = (viewCall clock' c t).1 ∧
      SameView (viewCall clock c s).2 (viewCall clock' c t).2 := by
  obtain ⟨v, i⟩ := s
  obtain ⟨v', j⟩ := t
  obtain ⟨rfl, hv⟩ := h
  cases c with
  | key k op =>
    obtain ⟨h1, h2⟩ := spec_timeless hc (hv k) (clock i) (clock' j)
    simp only [viewCall, Call.spec, hv.live, h1]
    refine ⟨trivial, rfl, ?_⟩
    exact hv.put k (h1 ▸ h2)
  | flushAll => exact ⟨rfl, rfl, View.timeless_none⟩
  | _ => exact hc.elim

omit [Score σ] in
theorem setPairs_clockless (pairs : List (Bytes × Bytes)) :
    (setPairs pairs : Cmd σ Unit).All Clockless fun _ => True := by
  induction pairs with
  | nil => trivial
  | cons p pairs ih => exact ⟨rfl, fun _ => ih⟩

omit [Score σ] in
theorem countDel_clockless (ks : List Bytes) :
    (countKeys .del id ks : Cmd σ Nat).All Clockless fun _ => True := by
  induction ks with
  | nil => trivial
  | cons k ks ih => exact ⟨trivial, fun _ => ih.bind fun _ _ => trivial⟩

omit [Score σ] in
theorem setTail_clockless (k x : Bytes) {opts : SetOptions} (h : opts.expireAt = none)
    (get : Bool) : (Write.setTail k x opts get : Cmd σ Bool).All Clockless fun _ => True := by
  cases get with
  | false => exact ⟨h, fun _ => trivial⟩
  | true =>
    exact ⟨trivial, fun old => by cases old <;> first | trivial | exact ⟨h, fun _ => trivial⟩⟩

/-- **Without deadlines, time does not matter.** -/
theorem run_timeless (w : Write σ) (hw : w.ttlFree = true) (hv : v.Timeless) (clock : Nat → Nat)
    (i : Nat) :
    (w.run clock v i).1 = (w.eff v).1 ∧ (w.run clock v i).2.1 = (w.eff v).2 ∧
      (w.eff v).2.Timeless := by
  have sim : ∀ (p : Cmd σ Bool), p.All Clockless (fun _ => True) → ∀ i j,
      (p.run (viewCall clock) (v, i)).1 = (p.run (viewCall fun _ => 0) (v, j)).1 ∧
        (p.run (viewCall clock) (v, i)).2.1 = (p.run (viewCall fun _ => 0) (v, j)).2.1 ∧
        (p.run (viewCall fun _ => 0) (v, j)).2.1.Timeless := by
    intro p hp i j
    obtain ⟨h1, h2, h3⟩ :=
      Prog.run_sim _ _ SameView (clockless_sim clock fun _ => 0) hp (s := (v, i)) (t := (v, j))
        ⟨rfl, hv⟩
    exact ⟨h1, h2, h2 ▸ h3⟩
  cases w with
  | flush => exact sim (Write.prog .flush) ⟨trivial, fun _ => trivial⟩ i 0
  | set k x words =>
    have hw : words.any ttlWord = false := by simpa [Write.ttlFree] using hw
    simp only [Write.eff]
    rw [Write.set_run, Write.set_run, setOptions_now (clock i) 0 words {} false (not_relative hw)]
    cases ho : setOptions 0 words {} false with
    | error o => exact ⟨rfl, rfl, hv⟩
    | ok r =>
      exact sim _ (setTail_clockless k x (setOptions_timeless 0 words {} false hw ho) r.2) (i + 1)
        (0 + 1)
  | setex => cases hw
  | getset k x =>
    refine sim (Write.prog (.getset k x)) ⟨trivial, fun old => ?_⟩ i 0
    cases old <;> first | trivial | exact ⟨rfl, fun _ => trivial⟩
  | mset pairs =>
    exact sim (Write.prog (.mset pairs)) ((setPairs_clockless pairs).bind fun _ _ => trivial) i 0
  | del ks => exact sim (Write.prog (.del ks)) ((countDel_clockless ks).bind fun _ _ => trivial) i 0
  | one k op hm =>
    refine sim (Write.prog (.one k op hm)) ⟨?_, fun _ => trivial⟩ i 0
    cases op with
    | set x opts => exact Option.isNone_iff_eq_none.1 hw
    | expireAt => cases hm
    | _ => trivial
  | expire => cases hw
  | persist k =>
    refine sim (Write.prog (.persist k)) ⟨trivial, fun cur => ?_⟩ i 0
    cases cur <;> first | trivial | exact ⟨rfl, fun _ => trivial⟩

/-- A write that is not logged leaves the keyspace as it was. -/
theorem eff_unlogged (w : Write σ) (hw : w.ttlFree = true) (hv : v.Timeless)
    (hfull : ∀ k, RecFull (v k)) (h : (w.eff v).1 = false) : (w.eff v).2 = v := by
  have h : (w.run (fun _ => 0) v 0).1 = false := h
  have := w.run_unlogged (u := 0) hfull h fun _ _ => le_rfl
  rw [hv.at] at this
  exact ((run_timeless w hw hv (fun _ => 0) 0).2.2.at 0).symm.trans this

/-! ## Commands -/

/-- The effect of a command that runs this write, or none. -/
def effect (w : Option (Write σ)) (v : View σ) : Bool × View σ := w.elim (false, v) (Write.eff · v)

theorem read_timeless {c : Call σ} (h : c.isRead = true) (hv : v.Timeless) (t : Nat) :
    (c.spec t v).2 = v := by
  cases c with
  | key k op =>
    have hs : (op.spec t (v k)).2 = v k := read_spec h t _
    simp only [Call.spec, hv.live, hs, View.put_same]
  | flushAll => cases h
  | purgeExpired => cases h
  | _ => rfl

/-- A command does to the store what its write does to the keyspace. -/
theorem exec_timeless {α : Type} {p : Cmd σ α} {flag : α → Bool} {w : Option (Write σ)}
    (hp : Runs p flag w) (hw : ∀ x ∈ w, x.ttlFree = true) (E : Surroundings) {s : Sys σ}
    (hg : s.world.store.Good) (ht : s.world.store.raw.Timeless) :
    flag (s.exec E p).1 = (effect w s.world.store.raw).1 ∧ (s.exec E p).2.world.store.Good ∧
      (s.exec E p).2.world.store.raw = (effect w s.world.store.raw).2 ∧
      (effect w s.world.store.raw).2.Timeless := by
  cases w with
  | none =>
    suffices h : flag (s.exec E p).1 = false ∧
        (s.exec E p).2.world.store.Good ∧ (s.exec E p).2.world.store.raw = s.world.store.raw from
      ⟨h.1, h.2.1, h.2.2, ht⟩
    refine Prog.all_run (Sys.call E)
      (fun s' => s'.world.store.Good ∧ s'.world.store.raw = s.world.store.raw) ?_ hp ⟨hg, rfl⟩
    rintro c s' hc ⟨hg', hs⟩
    refine ⟨exec_good _ c hg', ?_⟩
    have hraw := exec_raw (E s'.tick) c hg' (by rintro rfl; cases hc)
    rw [hs, read_timeless hc ht] at hraw
    exact hraw
  | some w =>
    obtain ⟨h1, h2, -⟩ := exec_write hp E hg
    obtain ⟨e1, e2, e3⟩ := run_timeless w (hw w rfl) ht E.clock s.tick
    exact ⟨h1.trans e1, h2.good, h2.raw.trans e2, e3⟩

/-- The fast path and the dispatcher agree. -/
theorem effect_served (name : Bytes) (args : List Bytes) (v : View σ) :
    effect (servedWrite name args) v = effect (writeCmd name args) v := by
  rcases served_dispatched (σ := σ) name args with h | ⟨k, x, h, h'⟩
  · rw [h]
  · rw [h, h']
    simp only [effect, Option.elim_some, Write.eff, Write.set_run_nil, Write.mset_run]
    rfl

theorem effect_unlogged {w : Option (Write σ)} (hw : ∀ x ∈ w, x.ttlFree = true) (hv : v.Timeless)
    (hfull : ∀ k, RecFull (v k)) (h : (effect w v).1 = false) : (effect w v).2 = v := by
  cases w with
  | none => rfl
  | some w => exact eff_unlogged w (hw w rfl) hv hfull h

/-! ## What a list of commands adds up to -/

variable (σ) in
/-- The command sets no deadline. -/
def Argv.ttlFree (a : Argv) : Prop := ∀ w ∈ (writeCmd a.1 a.2 : Option (Write σ)), w.ttlFree = true

instance (a : Argv) : Decidable (a.ttlFree σ) :=
  inferInstanceAs (Decidable (∀ w ∈ (writeCmd a.1 a.2 : Option (Write σ)), w.ttlFree = true))

/-- The keyspace after one more command. -/
def afterCmd (v : View σ) (a : Argv) : View σ := (effect (writeCmd a.1 a.2) v).2

/-- The keyspace that a list of commands adds up to. -/
def viewOf (cmds : List Argv) : View σ := cmds.foldl afterCmd fun _ => none

theorem viewOf_snoc (cmds : List Argv) (a : Argv) :
    (viewOf (cmds ++ [a]) : View σ) = afterCmd (viewOf cmds) a := by
  simp only [viewOf, List.foldl_append, List.foldl_cons, List.foldl_nil]

theorem apply_timeless {a : Argv} (ha : a.ttlFree σ) (cfg : Config) (E : Surroundings)
    {p : ConnState × Sys σ} (hg : p.2.world.store.Good) (ht : p.2.world.store.raw.Timeless) :
    (Sys.apply cfg E p a).2.world.store.Good ∧
      (Sys.apply cfg E p a).2.world.store.raw = afterCmd p.2.world.store.raw a ∧
      (afterCmd p.2.world.store.raw a).Timeless :=
  (exec_timeless (dispatch_runs cfg p.1 a.1 a.2) ha E hg ht).2

/-- Serving a command does what dispatching it does; unless it is a write, nothing. -/
theorem serve_timeless {a : Argv} (ha : a.ttlFree σ) (cfg : Config) (st : ConnState)
    (E : Surroundings) {s : Sys σ} (hg : s.world.store.Good) (ht : s.world.store.raw.Timeless) :
    (s.exec E (serveCmd cfg st a.1 a.2)).2.world.store.Good ∧
      (s.exec E (serveCmd cfg st a.1 a.2)).2.world.store.raw.Timeless ∧
      (s.exec E (serveCmd cfg st a.1 a.2)).2.world.store.raw =
        (if (s.exec E (serveCmd cfg st a.1 a.2)).1.write then afterCmd s.world.store.raw a
          else s.world.store.raw) := by
  have hserved : ∀ w ∈ (servedWrite a.1 a.2 : Option (Write σ)), w.ttlFree = true := by
    rcases served_dispatched (σ := σ) a.1 a.2 with hd | ⟨k, x, hm, -⟩
    · rw [hd]; exact ha
    · rw [hm]; rintro w ⟨⟩; rfl
  obtain ⟨h1, h2, h3, h4⟩ := exec_timeless (serveCmd_runs cfg st a.1 a.2) hserved E hg ht
  rw [effect_served] at h1 h3 h4
  refine ⟨h2, h3 ▸ h4, ?_⟩
  cases hl : (s.exec E (serveCmd cfg st a.1 a.2)).1.write with
  | true => exact h3
  | false => exact h3.trans (effect_unlogged ha ht hg.full (h1.symm.trans hl))

theorem applyAll_timeless (cfg : Config) (E : Surroundings) (cmds : List Argv) :
    ∀ {p : ConnState × Sys σ},
    (∀ a ∈ cmds, a.ttlFree σ) → p.2.world.store.Good → p.2.world.store.raw.Timeless →
      (Sys.applyAll cfg E cmds p).2.world.store.Good ∧
        (Sys.applyAll cfg E cmds p).2.world.store.raw = cmds.foldl afterCmd p.2.world.store.raw ∧
        (cmds.foldl afterCmd p.2.world.store.raw).Timeless := by
  induction cmds with
  | nil => intro p _ hg ht; exact ⟨hg, rfl, ht⟩
  | cons a cmds ih =>
    intro p ha hg ht
    obtain ⟨hg', hr, ht'⟩ := apply_timeless (ha a List.mem_cons_self) cfg E hg ht
    have := ih (p := Sys.apply cfg E p a) (fun b hb => ha b (List.mem_cons_of_mem _ hb)) hg'
      (hr ▸ ht')
    rwa [hr] at this

/-- Dispatching commands on an empty store gives what they add up to. -/
theorem applyAll_empty {cfg : Config} (hmem : cfg.maxmemory = 0) (router : Bytes → UInt64)
    (hasher : Nat → Nat → Bytes → UInt64) (snapshot : Option Bytes) (E : Surroundings)
    {cmds : List Argv} (h : ∀ a ∈ cmds, a.ttlFree σ) :
    (Sys.applyAll cfg E cmds (ConnState.internal,
      (Sys.empty cfg router hasher snapshot : Sys σ))).2.world.store.Good ∧
      (Sys.applyAll cfg E cmds (ConnState.internal,
        (Sys.empty cfg router hasher snapshot : Sys σ))).2.world.store.raw =
        viewOf cmds ∧
      (viewOf cmds : View σ).Timeless := by
  have := applyAll_timeless cfg E cmds
    (p := (ConnState.internal, Sys.empty cfg router hasher snapshot)) h
    (Sys.empty_good hmem ..) (by rw [Sys.empty_raw]; exact View.timeless_none)
  rwa [Sys.empty_raw] at this

end

end Inmem.L4
