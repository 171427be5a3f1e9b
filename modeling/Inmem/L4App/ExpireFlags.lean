import Inmem.L4App.Deadlines

/-!
# The flags of `EXPIRE` and the clock

One `EXPIRE` reads the clock up to four times: to see whether the key is there, to
compute the new deadline, for the remaining time that the flag is tested against, and to
store. The old deadline is rebuilt as the second reading plus the time that remains at
the third.

`ExpireFlag.Respects` is what a flag promises. `Slips` says when the readings break the
promise or the reply: the key expires between the test and the store, or the clock moves
on between the second and the third reading, by so much that `GT` takes an earlier
deadline for a later one.

* `expire_plain`, `expire_flag`: what the command does, for all readings;
* `expire_flags`: the reply is 1 exactly when a deadline was stored, and the flag is
  respected, exactly when the readings do not slip.
-/
namespace Inmem.L4

open Inmem.Core Inmem.L1 Inmem.L1.Resp Inmem.L3

/-! ## Flags -/

inductive ExpireFlag
  | nx
  | xx
  | gt
  | lt
  deriving DecidableEq, Repr

/-- The flag that a word stands for. -/
def expireFlag (f : Bytes) : Option ExpireFlag :=
  if optionWord f = lit "NX" then some .nx
  else if optionWord f = lit "XX" then some .xx
  else if optionWord f = lit "GT" then some .gt
  else if optionWord f = lit "LT" then some .lt
  else none

namespace ExpireFlag

/-- The deadline that is rebuilt from the remaining time: `now + ms` in `u64`. -/
def rebuilt (now ms : Nat) : Nat := (now + ms) % 2 ^ 64

/-- The test of a flag. -/
def allows : ExpireFlag → Ttl → Nat → Nat → Bool
  | .nx, .noExpiry, _, _ => true
  | .xx, .millis _, _, _ => true
  | .gt, .millis ms, now, newAt => rebuilt now ms < newAt
  | .lt, .noExpiry, _, _ => true
  | .lt, .millis ms, now, newAt => newAt < rebuilt now ms
  | _, _, _, _ => false

/-- What a flag promises of the deadline that is replaced and the one that replaces it. -/
def Respects : ExpireFlag → Option Nat → Option Nat → Prop
  | .nx, old, _ => old = none
  | .xx, old, _ => old ≠ none
  | .gt, old, new => ∀ d d', old = some d → new = some d' → d < d'
  | .lt, old, new => ∀ d d', old = some d → new = some d' → d' < d

/-- The readings `t₁` (now), `t₂` (remaining time) and `t₃` (store) slip, for the old
deadline `d`. -/
def Slips (t₁ t₂ t₃ newAt d : Nat) : ExpireFlag → Prop
  | .nx => False
  | .xx => t₂ < d ∧ d ≤ t₃
  | .gt => t₂ < d ∧ rebuilt t₁ (d - t₂) < newAt ∧ (d ≤ t₃ ∨ newAt ≤ d)
  | .lt => t₂ < d ∧ newAt < rebuilt t₁ (d - t₂) ∧ d ≤ t₃

end ExpireFlag

theorem expireAllowed_eq (f : Bytes) (cur : Ttl) (now newAt : Nat) :
    expireAllowed f cur now newAt = (expireFlag f).map fun flag => flag.allows cur now newAt := by
  unfold expireAllowed expireFlag
  dsimp only
  split
  · cases cur <;> rfl
  split
  · cases cur <;> rfl
  split
  · cases cur <;> rfl
  split
  · cases cur <;> rfl
  · rfl

/-- Without or with a flag, the readings slip for the deadline of the key, if it has one.
`clock i` is the first reading. -/
def Slips (clock : Nat → Nat) (i : Nat) (a : Ask) (flag : Option Bytes) : Option Nat → Prop
  | none => False
  | some d =>
    match flag with
    | none => d ≤ clock (i + 2)
    | some f => ∃ fl, expireFlag f = some fl ∧
        fl.Slips (clock (i + 1)) (clock (i + 2)) (clock (i + 3)) (a.want (clock (i + 1)) % 2 ^ 64) d

/-- A word that is no flag: nothing can slip. -/
theorem not_slips {clock : Nat → Nat} {i : Nat} {a : Ask} {f : Bytes} (hf : expireFlag f = none)
    (old : Option Nat) : ¬ Slips clock i a (some f) old := by
  intro hs
  cases old with
  | none => exact hs
  | some d =>
    obtain ⟨fl, hfl, -⟩ := hs
    rw [hf] at hfl
    cases hfl

theorem slips_flag {clock : Nat → Nat} {i : Nat} {a : Ask} {f : Bytes} {fl : ExpireFlag}
    (hf : expireFlag f = some fl) {d : Nat} :
    Slips clock i a (some f) (some d) ↔
      fl.Slips (clock (i + 1)) (clock (i + 2)) (clock (i + 3))
        (a.want (clock (i + 1)) % 2 ^ 64) d := by
  constructor
  · intro hs
    obtain ⟨fl', hfl, hs⟩ := hs
    rw [hf] at hfl
    cases hfl
    exact hs
  · exact fun hs => ⟨fl, hf, hs⟩

/-! ## The command -/

/-- The key, the amount of time and the flag of `EXPIRE` and its relatives. -/
def expireArgs (name : Bytes) (args : List Bytes) : Option (Bytes × Ask × Option Bytes) :=
  match CmdName.ofName (upperName name), args with
  | some .expire, k :: n :: rest => (parseI64 n).map fun n => (k, ⟨n, 1000, false⟩, rest.head?)
  | some .pexpire, k :: n :: rest => (parseI64 n).map fun n => (k, ⟨n, 1, false⟩, rest.head?)
  | some .expireat, k :: n :: rest => (parseI64 n).map fun n => (k, ⟨n, 1000, true⟩, rest.head?)
  | some .pexpireat, k :: n :: rest => (parseI64 n).map fun n => (k, ⟨n, 1, true⟩, rest.head?)
  | _, _ => none

section
variable {σ : Type}

/-- The call stored a deadline: `expire_at` answers whether the key was live. -/
def storesDeadline : (c : Call σ) → c.Res → Bool
  | .key _ (.expireAt (some _)), did => did
  | _, _ => false

variable {clock : Nat → Nat} {i : Nat} {k : Bytes} {a : Ask} {v : View σ} {r : Rec σ}

/-- The record with the new deadline. -/
def Ask.renew (a : Ask) (now : Nat) (r : Rec σ) : Rec σ :=
  { r with deadline := some (a.want now % 2 ^ 64) }

/-- The program of the command. -/
abbrev Ask.expire (a : Ask) (k : Bytes) (flag : Option Bytes) : Write σ :=
  .expire k a.n a.unit a.absolute flag

variable [Score σ]

/-- Whether a program stores a deadline, on the abstract keyspace. -/
def stores {α : Type} (clock : Nat → Nat) (p : Cmd σ α) (v : View σ) (i : Nat) : Bool :=
  p.marks storesDeadline (viewCall clock) (v, i)

theorem stores_key {α : Type} (op : KeyOp σ) (f : op.Res → Cmd σ α) :
    stores clock (onKey k op >>= f) v i =
      (storesDeadline (.key k op) (op.spec (clock i) (liveAt (clock i) (v k))).1 ||
        stores clock (f (op.spec (clock i) (liveAt (clock i) (v k))).1)
          (v.put k (op.spec (clock i) (liveAt (clock i) (v k))).2) (i + 1)) := rfl

theorem stores_now {α : Type} (f : Nat → Cmd σ α) :
    stores clock (ask .nowMs >>= f) v i = stores clock (f (clock i)) v (i + 1) := by
  show (false || _) = _
  rw [Bool.false_or]
  rfl

theorem stores_ite {α : Type} {b : Prop} [Decidable b] (p q : Cmd σ α) :
    stores clock (if b then p else q) v i = if b then stores clock p v i else stores clock q v i :=
  Prog.marks_ite ..

theorem stores_pure {α : Type} (x : α) : stores clock (Prog.pure x : Cmd σ α) v i = false := rfl

/-- The store itself: it is made if the key is live. -/
theorem stores_expireAt (d : Nat) :
    stores clock (onKey k (.expireAt (some d)) >>= fun _ => Prog.pure true : Cmd σ Bool) v i =
      (liveAt (clock i) (v k)).isSome := by
  rw [stores_key, stores_pure, Bool.or_false]
  rfl

/-- Nothing happens to a key that is not there. -/
theorem expire_absent (flag : Option Bytes) (h : liveAt (clock i) (v k) = none) :
    ((a.expire k flag).run clock v i).1 = false ∧
      stores clock (a.expire k flag).prog v i = false := by
  constructor
  · rw [Write.expire_run, h]; rfl
  · rw [Write.prog, stores_key, h]
    rfl

theorem expire_present (flag : Option Bytes) (h : liveAt (clock i) (v k) = some r) :
    (a.expire k flag).run clock v i =
        (Write.expireTail k a.n a.unit a.absolute flag).run (viewCall clock)
          (v.put k (some r), i + 1) ∧
      stores clock (a.expire k flag).prog v i =
        stores clock (Write.expireTail k a.n a.unit a.absolute flag) (v.put k (some r))
          (i + 1) := by
  constructor
  · rw [Write.expire_run, h]; rfl
  · rw [Write.prog, stores_key, h]; rfl

/-- Without a flag the deadline is stored if the key is still live at the third reading. -/
theorem expire_plain (h : liveAt (clock i) (v k) = some r) :
    ((a.expire k none).run clock v i).1 = true ∧
      stores clock (a.expire k none).prog v i = (liveAt (clock (i + 2)) (some r)).isSome ∧
      ((a.expire k none).run clock v i).2.1 k =
        (liveAt (clock (i + 2)) (some r)).map (a.renew (clock (i + 1))) := by
  obtain ⟨hrun, hstores⟩ := expire_present (a := a) none h
  rw [hrun, hstores, Write.expireTail_run_plain, View.put_put, View.put_self]
  refine ⟨rfl, ?_, View.put_self ..⟩
  rw [Write.expireTail, stores_now]
  exact (stores_expireAt _).trans (by rw [View.put_self])

/-- With a flag it is stored if the test passes and the key is still live at the fourth. -/
theorem expire_flag (f : Bytes) (h : liveAt (clock i) (v k) = some r) :
    let cur := (KeyOp.pttl.spec (clock (i + 2)) (liveAt (clock (i + 2)) (some r))).1
    let passes :=
      (expireFlag f).any fun flag => flag.allows cur (clock (i + 1))
        (a.want (clock (i + 1)) % 2 ^ 64)
    let last := liveAt (clock (i + 3)) (liveAt (clock (i + 2)) (some r))
    ((a.expire k (some f)).run clock v i).1 = passes ∧
      stores clock (a.expire k (some f)).prog v i = (passes && last.isSome) ∧
      (passes = true → ((a.expire k (some f)).run clock v i).2.1 k =
        last.map (a.renew (clock (i + 1)))) := by
  intro cur passes last
  have hpass : expireAllowed f cur (clock (i + 1)) (a.want (clock (i + 1)) % 2 ^ 64) = some true ↔
      passes = true := by
    rw [expireAllowed_eq]
    show _ ↔ (expireFlag f).any _ = true
    cases expireFlag f <;> simp
  obtain ⟨hrun, hstores⟩ := expire_present (a := a) (some f) h
  have hstores' : stores clock (Write.expireTail k a.n a.unit a.absolute (some f))
      (v.put k (some r)) (i + 1) =
      if expireAllowed f cur (clock (i + 1)) (a.want (clock (i + 1)) % 2 ^ 64) = some true
        then last.isSome else false := by
    rw [Write.expireTail, stores_now]
    dsimp only
    rw [stores_key, View.put_self, View.put_put, stores_ite]
    refine (Bool.false_or _).trans (if_congr Iff.rfl ?_ rfl)
    exact (stores_expireAt _).trans (by rw [View.put_self]; rfl)
  rw [hrun, hstores, hstores', Write.expireTail_run_flag, View.put_self, View.put_put,
    deadlineAfter_want]
  cases hp : passes with
  | true =>
    rw [if_pos (hpass.2 hp), if_pos (hpass.2 hp)]
    exact ⟨rfl, (Bool.true_and _).symm, fun _ => View.put_self ..⟩
  | false =>
    have hno : ¬ expireAllowed f cur (clock (i + 1)) (a.want (clock (i + 1)) % 2 ^ 64) =
        some true := by
      rw [hpass, hp]; exact Bool.false_ne_true
    rw [if_neg hno, if_neg hno]
    exact ⟨rfl, (Bool.false_and _).symm, fun h => by cases h⟩

/-! ## Slips -/

omit [Score σ] in
theorem live_lasting (t : Nat) (hd : r.deadline = none) : liveAt t (some r) = some r :=
  liveAt_eq_some.2 ⟨rfl, by rw [hd]; rfl⟩

omit [Score σ] in
theorem live_before {t d : Nat} (hd : r.deadline = some d) (h : t < d) :
    liveAt t (some r) = some r :=
  liveAt_eq_some.2 ⟨rfl, by simp [hd, expired, h]⟩

omit [Score σ] in
theorem live_after {t d : Nat} (hd : r.deadline = some d) (h : d ≤ t) :
    liveAt t (some r) = none := by
  simp [liveAt, hd, expired, h]

/-- What the command should do: reply 1 exactly when it stores, and then respect the flag. -/
def Held (replies stores : Bool) (flag : Option Bytes) (old new : Option Nat) : Prop :=
  (replies = true ↔ stores = true) ∧
    (stores = true → ∀ f fl, flag = some f → expireFlag f = some fl → fl.Respects old new)

theorem held_plain (h : liveAt (clock i) (v k) = some r) :
    Held ((a.expire k none).run clock v i).1
      (stores clock (a.expire k none).prog v i) none r.deadline
        (((a.expire k none).run clock v i).2.1 k |>.bind Rec.deadline) ↔
        ¬ Slips clock i a none r.deadline := by
  obtain ⟨h1, h2, -⟩ := expire_plain (a := a) h
  rw [h1, h2]
  have hflag : ∀ (b : Bool) (new : Option Nat), Held true b none r.deadline new ↔ b = true := by
    intro b new
    exact ⟨fun hh => hh.1.1 rfl, fun hb => ⟨iff_of_true rfl hb, fun _ f fl hf => by cases hf⟩⟩
  rw [hflag]
  cases hd : r.deadline with
  | none => rw [live_lasting _ hd]; exact iff_of_true rfl fun hs => hs
  | some d =>
    show _ ↔ ¬ d ≤ clock (i + 2)
    by_cases hlt : d ≤ clock (i + 2)
    · rw [live_after hd hlt]; exact iff_of_false Bool.false_ne_true fun hn => hn hlt
    · rw [live_before hd (Nat.lt_of_not_le hlt)]; exact iff_of_true rfl hlt

/-- With a flag: when the test passes, the key is still live and the flag is respected. -/
theorem held_iff {f : Bytes} {fl : ExpireFlag} (hf : expireFlag f = some fl) (passes live : Bool)
    (old new : Option Nat) :
    Held passes (passes && live) (some f) old new ↔
      (passes = true → live = true ∧ fl.Respects old new) := by
  unfold Held
  constructor
  · intro ⟨hreply, hflag⟩ hp
    have hs : (passes && live) = true := hreply.1 hp
    exact ⟨(Bool.and_eq_true_iff.1 hs).2, hflag hs f fl rfl hf⟩
  · intro h
    refine ⟨⟨fun hp => Bool.and_eq_true_iff.2 ⟨hp, (h hp).1⟩,
      fun hs => (Bool.and_eq_true_iff.1 hs).1⟩, fun hs f' fl' hf' hfl' => ?_⟩
    cases hf'
    rw [hf] at hfl'
    cases hfl'
    exact (h (Bool.and_eq_true_iff.1 hs).1).2

/-- The test on the time that remains of the deadline `d`, against the promise. -/
theorem flag_holds (fl : ExpireFlag) {t₁ t₂ t₃ newAt d : Nat} (h12 : t₁ ≤ t₂) (hd : t₂ < d) :
    (fl.allows (.millis (d - t₂)) t₁ newAt = true → t₃ < d ∧ fl.Respects (some d) (some newAt)) ↔
      ¬ fl.Slips t₁ t₂ t₃ newAt d := by
  have hle : ExpireFlag.rebuilt t₁ (d - t₂) ≤ d := (Nat.mod_le _ _).trans (by omega)
  have hpair : ∀ {P : Nat → Nat → Prop}, (∀ x y, some d = some x → some newAt = some y → P x y) ↔
      P d newAt := by
    intro P
    exact ⟨fun h => h d newAt rfl rfl,
      fun h x y hx hy => Option.some.inj hx ▸ Option.some.inj hy ▸ h⟩
  cases fl with
  | nx => exact iff_of_true (fun h => by cases h) id
  | xx =>
    simp only [ExpireFlag.allows, ExpireFlag.Respects, ExpireFlag.Slips, hd, true_and, true_imp_iff,
      Nat.not_le]
    exact and_iff_left (by simp)
  | gt =>
    simp only [ExpireFlag.allows, ExpireFlag.Respects, ExpireFlag.Slips, hd, true_and,
      decide_eq_true_eq, hpair]
    constructor
    · intro h ⟨hlt, hslip⟩
      obtain ⟨h3, hnew⟩ := h hlt
      omega
    · intro h hlt
      by_contra hno
      exact h ⟨hlt, by omega⟩
  | lt =>
    simp only [ExpireFlag.allows, ExpireFlag.Respects, ExpireFlag.Slips, hd, true_and,
      decide_eq_true_eq, hpair]
    constructor
    · intro h ⟨hlt, hslip⟩
      have := (h hlt).1
      omega
    · intro h hlt
      have : ¬ d ≤ t₃ := fun h3 => h ⟨hlt, h3⟩
      omega

theorem held_flag (hmono : Monotone clock) (f : Bytes) (h : liveAt (clock i) (v k) = some r) :
    Held ((a.expire k (some f)).run clock v i).1 (stores clock (a.expire k (some f)).prog v i)
      (some f) r.deadline
        (((a.expire k (some f)).run clock v i).2.1 k |>.bind Rec.deadline) ↔
        ¬ Slips clock i a (some f) r.deadline := by
  obtain ⟨h1, h2, h3⟩ := expire_flag (a := a) f h
  cases hf : expireFlag f with
  | none =>
    -- an unsupported flag: nothing is stored, whatever the clock
    rw [hf] at h1 h2
    rw [h1, h2]
    exact iff_of_true ⟨Iff.rfl, fun hs => by cases hs⟩ (not_slips hf _)
  | some fl =>
    rw [hf, Option.any_some] at h1 h2 h3
    rw [h1, h2, held_iff hf]
    cases hd : r.deadline with
    | none =>
      rw [live_lasting _ hd, live_lasting _ hd] at *
      refine iff_of_true (fun hp => ⟨rfl, ?_⟩) id
      cases fl with
      | nx => rfl
      | lt => intro d d' hold; cases hold
      | _ => simp [KeyOp.spec, hd, ExpireFlag.allows] at hp
    | some d =>
      rw [slips_flag hf]
      by_cases h2d : clock (i + 2) < d
      · have hcur : (KeyOp.pttl.spec (clock (i + 2)) (some r)).1 = .millis (d - clock (i + 2)) := by
          simp only [KeyOp.spec, Option.elim_some, hd]
        rw [← flag_holds fl (hmono (Nat.le_succ _)) h2d]
        rw [live_before hd h2d, hcur] at h3 ⊢
        refine forall_congr' fun hp => ?_
        by_cases h3d : clock (i + 3) < d
        · rw [h3 hp, live_before hd h3d]
          exact and_congr_left fun _ => iff_of_true rfl h3d
        · rw [live_after hd (Nat.le_of_not_lt h3d)]
          exact iff_of_false (fun hh => by cases hh.1) fun hh => h3d hh.1
      · -- the key has expired by the time of the test, which then fails
        rw [live_after hd (Nat.le_of_not_lt h2d)]
        refine iff_of_true (fun hp => by cases fl <;> cases hp) fun hs => ?_
        cases fl with
        | nx => exact hs
        | xx => exact h2d hs.1
        | gt => exact h2d hs.1
        | lt => exact h2d hs.1

/-! ## On the store -/

/-- The write of the command, and its program. -/
theorem expireArgs_write (cfg : Config) (st : ConnState) {name : Bytes} {args : List Bytes}
    {flag : Option Bytes} (h : expireArgs name args = some (k, a, flag)) :
    (writeCmd name args : Option (Write σ)) = some (a.expire k flag) ∧
      (dispatch cfg st name args : Cmd σ _) = keep st (expireCmd args a.unit a.absolute) := by
  unfold expireArgs at h
  unfold writeCmd dispatch
  split at h
  · rename_i k' n rest hname
    obtain ⟨m, hm, rfl, rfl, rfl⟩ := Ask.of_map h
    rw [hname]
    exact ⟨expireWrite_eq hm, rfl⟩
  · rename_i k' n rest hname
    obtain ⟨m, hm, rfl, rfl, rfl⟩ := Ask.of_map h
    rw [hname]
    exact ⟨expireWrite_eq hm, rfl⟩
  · rename_i k' n rest hname
    obtain ⟨m, hm, rfl, rfl, rfl⟩ := Ask.of_map h
    rw [hname]
    exact ⟨expireWrite_eq hm, rfl⟩
  · rename_i k' n rest hname
    obtain ⟨m, hm, rfl, rfl, rfl⟩ := Ask.of_map h
    rw [hname]
    exact ⟨expireWrite_eq hm, rfl⟩
  · cases h

omit [Score σ] in
/-- The reply is 1 exactly when the command is logged. -/
theorem expireCmd_reply (args : List Bytes) (unit : Nat) (absolute : Bool) :
    (expireCmd args unit absolute : Cmd σ Outcome).All (fun _ => True) fun o => o.reply = .int 1 ↔
      o.persist = true := by
  have hone : (Outcome.w (.int 1)).reply = .int 1 ↔ (Outcome.w (.int 1)).persist = true :=
    iff_of_true rfl rfl
  have hzero : (Outcome.r (.int 0)).reply = .int 1 ↔ (Outcome.r (.int 0)).persist = true :=
    iff_of_false (fun h => by cases h) Bool.false_ne_true
  have herr : ∀ msg, (Outcome.r (.error msg)).reply = .int 1 ↔
      (Outcome.r (.error msg)).persist = true :=
    fun msg => iff_of_false (fun h => by cases h) Bool.false_ne_true
  match args with
  | [] => exact herr _
  | [_] => exact herr _
  | k :: n :: rest =>
    simp only [expireCmd]
    cases parseI64 n with
    | none => exact herr _
    | some n =>
      refine ⟨trivial, fun live => ?_⟩
      cases live with
      | false => exact hzero
      | true =>
        refine ⟨trivial, fun now => ?_⟩
        cases rest with
        | nil => exact ⟨trivial, fun _ => hone⟩
        | cons flag rest =>
          refine ⟨trivial, fun cur => ?_⟩
          dsimp only [Prog.bind]
          cases expireAllowed flag cur now (deadlineAfter (if absolute then 0 else now) n unit) with
          | none => exact herr _
          | some ok =>
            cases ok with
            | false => exact hzero
            | true => exact ⟨trivial, fun _ => hone⟩

/-- **Flags and clock.** For every store, with or without a memory limit, every `EXPIRE`,
`PEXPIRE`, `EXPIREAT` and `PEXPIREAT`, and all readings of a clock that does not go back:
the reply is 1 exactly when the command stored a deadline, and a deadline that it stored
respects the flag, exactly when the readings do not slip for the deadline of the key. -/
theorem expire_flags (cfg : Config) (st : ConnState) {name : Bytes} {args : List Bytes} {k : Bytes}
    {a : Ask} {flag : Option Bytes} (hargs : expireArgs name args = some (k, a, flag))
    (E : Surroundings) (hmono : Monotone E.clock) (s : Sys σ) :
    (((s.exec E (dispatch cfg st name args)).1.1.reply = .int 1 ↔
        (dispatch cfg st name args).marks storesDeadline (Sys.call E) s = true) ∧
      ((dispatch cfg st name args).marks storesDeadline (Sys.call E) s = true →
        ∀ f fl, flag = some f →
        expireFlag f = some fl →
          fl.Respects ((s.raw k).bind Rec.deadline)
            (((s.exec E (dispatch cfg st name args)).2.raw k).bind Rec.deadline))) ↔
    ¬ Slips E.clock s.tick a flag ((liveAt (E.clock s.tick) (s.raw k)).bind Rec.deadline) := by
  obtain ⟨hw, hd⟩ := expireArgs_write (σ := σ) cfg st hargs
  have hruns := dispatch_runs (σ := σ) cfg st name args
  rw [hw] at hruns
  have hrun := hruns.exec E s
  obtain ⟨h1, h2⟩ := expire_exec E k a.n a.unit a.absolute flag s
  -- the store, the keyspace and the reply say the same
  have hreply : (s.exec E (dispatch cfg st name args)).1.1.reply = .int 1 ↔
      ((a.expire k flag).run E.clock s.raw s.tick).1 = true := by
    have hall : (dispatch cfg st name args : Cmd σ _).All (fun _ => True)
        fun r => r.1.reply = .int 1 ↔ r.1.persist = true := by
      rw [hd]
      exact (Prog.all_map fun o => (o, st)).2 (expireCmd_reply args a.unit a.absolute)
    rw [← h1, hrun]
    exact (Prog.all_run (Sys.call E) (fun _ => True) (fun _ _ _ _ => trivial) hall
      (s := s) trivial).1
  have hmarks : (dispatch cfg st name args).marks storesDeadline (Sys.call E) s =
      stores E.clock (a.expire k flag).prog s.raw s.tick := by
    have hflagged : flagged (dispatch cfg st name args) (fun r => r.1.persist) =
        (a.expire k flag).prog := hruns
    rw [← Prog.marks_map (Sys.call E) (fun r : Outcome × ConnState => r.1.persist)]
    exact (congrArg (fun p => p.marks storesDeadline (Sys.call E) s) hflagged).trans
      (Prog.marks_sim (Sys.call E) (viewCall E.clock) InStep
        (fun c s v hc h => call_inStep E c s v hc h)
        (expire_calm k a.n a.unit a.absolute flag) (t := (s.raw, s.tick)) ⟨rfl, rfl⟩)
  have hraw : (s.exec E (dispatch cfg st name args)).2.raw =
      ((a.expire k flag).run E.clock s.raw s.tick).2.1 := by
    rw [← h2, hrun]
  rw [hreply, hmarks, hraw]
  show Held _ _ flag _ _ ↔ _
  cases hl : liveAt (E.clock s.tick) (s.raw k) with
  | none =>
    obtain ⟨h1, h2⟩ := expire_absent (a := a) flag hl
    rw [h1, h2]
    exact iff_of_true ⟨Iff.rfl, fun hs => by cases hs⟩ id
  | some r =>
    rw [(liveAt_eq_some.1 hl).1]
    cases flag with
    | none => exact held_plain hl
    | some f => exact held_flag hmono f hl

end

/-! ## Runs -/

/-- A key with a deadline. -/
def untilThousand : Sys Int :=
  (ranAt 0 (lit "SET") [lit "k", lit "v", lit "PXAT", lit "1000"] emptySys).2

/-- A clock that shows `t` up to the reading of the current time, and `t'` from the next on. -/
def movesOn (t t' : Nat) : Surroundings := fun i => Env.plain (if i ≤ 3 then t else t')

theorem movesOn_mono {t t' : Nat} (h : t ≤ t') : Monotone (movesOn t t').clock := by
  intro i j hij
  show (if i ≤ 3 then t else t') ≤ if j ≤ 3 then t else t'
  split <;> split <;> omega

/-- Moving on by one millisecond in the middle of the key's life does no harm. -/
theorem expire_flags_moves :
    (dispatch plainConfig ConnState.internal (lit "PEXPIREAT")
      [lit "k", lit "2000", lit "GT"]).marks storesDeadline
        (Sys.call (movesOn 10 11)) untilThousand = true ∧
      (ranIn (movesOn 10 11) (lit "PEXPIREAT")
        [lit "k", lit "2000", lit "GT"] untilThousand).1.1.reply = .int 1 := by
  have hstored :
      (dispatch plainConfig ConnState.internal (lit "PEXPIREAT")
        [lit "k", lit "2000", lit "GT"]).marks
      storesDeadline (Sys.call (movesOn 10 11)) untilThousand = true := by decide +kernel
  have hold :
      (liveAt ((movesOn 10 11).clock untilThousand.tick) (untilThousand.raw (lit "k"))).bind
        Rec.deadline =
      some 1000 := by decide +kernel
  have htick : untilThousand.tick = 2 := by decide +kernel
  have hno : ¬ Slips (movesOn 10 11).clock untilThousand.tick ⟨2000, 1, true⟩ (some (lit "GT"))
      (some 1000) := by
    rw [slips_flag (by decide : expireFlag (lit "GT") = some .gt), htick]
    exact fun hs => absurd hs.2.2 (by decide)
  refine ⟨hstored, ((expire_flags plainConfig ConnState.internal
    (by decide : expireArgs (lit "PEXPIREAT") [lit "k", lit "2000", lit "GT"] =
      some (lit "k", ⟨2000, 1, true⟩, some (lit "GT")))
    (movesOn 10 11) (movesOn_mono (by decide)) untilThousand).2 (hold ▸ hno)).1.2 hstored⟩

/-- A key that expires between the first reading and the last: the reply is 1, and nothing is
stored. A clock that moves on by ten milliseconds between the second and the third: `GT`
replaces the deadline 1000 by 995. -/
theorem expire_slips :
    (encodeReply false
      (ranIn (movesOn 999 1000) (lit "EXPIRE") [lit "k", lit "100"] untilThousand).1.1.reply =
        lit ":1\r\n" ∧
      ((ranIn (movesOn 999 1000) (lit "EXPIRE") [lit "k", lit "100"] untilThousand).2.raw
        (lit "k")).isSome = false ∧
      (dispatch plainConfig ConnState.internal (lit "EXPIRE") [lit "k", lit "100"]).marks
        storesDeadline
        (Sys.call (movesOn 999 1000)) untilThousand = false) ∧
    encodeReply false
      (ranIn (movesOn 10 20) (lit "PEXPIREAT")
        [lit "k", lit "995", lit "GT"] untilThousand).1.1.reply =
        lit ":1\r\n" ∧
      (untilThousand.raw (lit "k")).bind Rec.deadline = some 1000 ∧
      ((ranIn (movesOn 10 20) (lit "PEXPIREAT") [lit "k", lit "995", lit "GT"] untilThousand).2.raw
        (lit "k")).bind
        Rec.deadline = some 995 := by
  refine ⟨⟨?_, ?_, ?_⟩, ?_, ?_, ?_⟩
  all_goals decide +kernel

end Inmem.L4
