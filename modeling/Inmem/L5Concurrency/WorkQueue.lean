import Inmem.Core.Serial
import Inmem.L3Store.KeyOps
import Inmem.L3Store.Refine
import Inmem.L3Store.Restore
import Inmem.L4App.SingleKey

/-!
# A list as a work queue

Clients push to a list and pop from it, at either end and several elements at a time, while
others read it and do what they like to other keys. A call holds the lock of the shard, so it
is one step; a schedule interleaves the steps of the clients, whose programs are arbitrary.

* `push_call`, `pop_call`: one call on the list;
* `queue_step`: what has been popped and what is left are what there was and what has been
  pushed;
* `queue_exact`: no element is lost or handed out twice, and with pushes at the right and pops
  at the left the elements come out in the order they went in.
-/
namespace Inmem.L5

open Inmem.Core Inmem.L1 Inmem.L1.Resp Inmem.L3 Inmem.L4

section
variable {σ : Type}

/-! ## The list -/

/-- The record of a list without a deadline; there are no empty ones. -/
def holding (l : List Bytes) : Option (Rec σ) := if l = [] then none else some ⟨.list l, none⟩

theorem holding_live (l : List Bytes) (t : Nat) :
    liveAt t (holding l : Option (Rec σ)) = holding l := by
  unfold holding
  split <;> rfl

theorem specColl_holding {R : Type} (body : List Bytes → R × List Bytes) (l : List Bytes) :
    specColl VColl.list body (holding l : Option (Rec σ)) =
      (.ok (body l).1, holding (body l).2) := by
  unfold holding
  by_cases hl : l = []
  · subst hl
    simp [specColl, VColl.list]
  · simp [specColl, VColl.list, hl]

theorem pushAll_perm (vals : List Bytes) (left : Bool) :
    ∀ l : List Bytes, (pushAll vals left l).2.Perm (l ++ vals) := by
  induction vals with
  | nil => exact fun l => by simp [pushAll]
  | cons v vals ih =>
    intro l
    have hstep : (pushAll (v :: vals) left l).2 =
        (pushAll vals left (if left then v :: l else l ++ [v])).2 := rfl
    rw [hstep]
    refine (ih _).trans ?_
    cases left with
    | false => exact .of_eq (by simp)
    | true => exact List.perm_middle.symm

theorem popEnd_perm {left : Bool} {l rest : List Bytes} {x : Bytes}
    (h : popEnd left l = some (x, rest)) : (x :: rest).Perm l := by
  cases left with
  | true =>
    cases l with
    | nil => cases h
    | cons y l => cases h; exact .refl _
  | false =>
    simp only [popEnd, Bool.false_eq_true, if_false] at h
    cases hl : l.getLast? with
    | none => rw [hl] at h; cases h
    | some y =>
      rw [hl] at h
      cases h
      have hlast := List.dropLast_append_getLast? x hl
      exact (List.perm_append_singleton x l.dropLast).symm.trans (.of_eq hlast)

theorem popLoop_perm (left : Bool) (n : Nat) :
    ∀ l : List Bytes, ((popLoop left n l).1 ++ (popLoop left n l).2).Perm l := by
  induction n with
  | zero => exact fun l => .refl _
  | succ n ih =>
    intro l
    cases hp : popEnd left l with
    | none => simp [popLoop, hp]
    | some p =>
      simp only [popLoop, hp]
      exact ((ih p.2).cons p.1).trans (popEnd_perm hp)

theorem popLoop_left (n : Nat) :
    ∀ l : List Bytes, (popLoop true n l).1 ++ (popLoop true n l).2 = l := by
  induction n with
  | zero => exact fun l => rfl
  | succ n ih =>
    intro l
    cases l with
    | nil => rfl
    | cons x l => exact congrArg (x :: ·) (ih l)

/-! ## One call -/

section
variable [Score σ] {w : World σ} {k : Bytes} {l : List Bytes}

theorem push_call (hw : w.store.Unbounded) (hl : w.store.raw k = holding l) (env : Env)
    (vals : List Bytes) (left : Bool) :
    ((Call.key k (.push vals left)).exec env w).2.store.raw k =
      holding (pushAll vals left l).2 := by
  have hraw := congrFun (Store.key_raw hw env k (.push vals left)) k
  rw [View.put, if_pos rfl, hl, holding_live] at hraw
  exact hraw.trans (congrArg Prod.snd (specColl_holding (pushAll vals left) l))

theorem pop_call (hw : w.store.Unbounded) (hl : w.store.raw k = holding l) (env : Env) (count : Nat)
    (left : Bool) :
    ((Call.key k (.pop count left)).exec env w).1 = .ok (popLoop left count l).1 ∧
      ((Call.key k (.pop count left)).exec env w).2.store.raw k =
        holding (popLoop left count l).2 := by
  have hspec := specColl_holding (σ := σ) (popLoop left count) l
  have hans := (Shard.exec_effect env k (.pop count left) (w.store.shard k)).1
  have hraw := congrFun (Store.key_raw hw env k (.pop count left)) k
  rw [show liveAt env.now ((w.store.shard k).raw k) =
    holding l from (congrArg _ hl).trans (holding_live l _)] at hans
  rw [View.put, if_pos rfl, hl, holding_live] at hraw
  exact ⟨hans.trans (congrArg Prod.fst hspec), hraw.trans (congrArg Prod.snd hspec)⟩

end

/-! ## What the clients do -/

/-- The clients push to the list, pop from it and read it; to other keys they do what they like. -/
def QueueUse (k : Bytes) : Call σ → Prop
  | .key _ (.push ..) => True
  | .key _ (.pop ..) => True
  | .key k' op => k' = k → op.isRead = true
  | .flushAll => False
  | _ => True

/-- Pushes at the right, pops at the left. -/
def Fifo (k : Bytes) : Call σ → Prop
  | .key k' (.push _ left) => k' = k → left = false
  | .key k' (.pop _ left) => k' = k → left = true
  | _ => True

/-- What a call pushed to the list. -/
def pushedBy (k : Bytes) : Call σ → List Bytes
  | .key k' (.push vals _) => if k' = k then vals else []
  | _ => []

/-- What a call was answered from the list. -/
def poppedBy (k : Bytes) : (c : Call σ) → c.Res → List Bytes
  | .key k' (.pop _ _), .ok items => if k' = k then items else []
  | _, _ => []

/-- Everything pushed, in the order of the calls. -/
def pushed (k : Bytes) (notes : List ((c : Call σ) × c.Res)) : List Bytes :=
  notes.flatMap fun e => pushedBy k e.1

/-- Everything popped, in the order of the calls. -/
def popped (k : Bytes) (notes : List ((c : Call σ) × c.Res)) : List Bytes :=
  notes.flatMap fun e => poppedBy k e.1 e.2

/-! ## The balance -/

/-- What came out and what is left are what there was and what went in, and in this order if
`fifo`. -/
structure Balance (fifo : Prop) (out left before into : List Bytes) : Prop where
  perm : (out ++ left).Perm (before ++ into)
  order : fifo → out ++ left = before ++ into

theorem Balance.same (fifo : Prop) (l : List Bytes) : Balance fifo [] l l [] := ⟨by simp, by simp⟩

theorem Balance.trans {f g : Prop} {out out' left left' before into into' : List Bytes}
    (h : Balance f out left before into) (h' : Balance g out' left' left into') :
    Balance (f ∧ g) (out ++ out') left' before (into ++ into') where
  perm := by
    rw [List.append_assoc, ← List.append_assoc before]
    exact (h'.perm.append_left out).trans
      (.trans (.of_eq (List.append_assoc ..).symm) (h.perm.append_right into'))
  order hfg := by
    rw [List.append_assoc, h'.order hfg.2, ← List.append_assoc, h.order hfg.1, List.append_assoc]

section
variable [Score σ] {k : Bytes}

/-- A call on another key, or one that reads. -/
theorem quiet_balance {k' : Bytes} {op : KeyOp σ} (h : k' = k → op.isRead = true) (env : Env)
    {w : World σ} (hg : w.store.Good) {l : List Bytes} (hl : w.store.raw k = holding l) :
    ∃ l', ((Call.key k' op).exec env w).2.store.raw k = holding l' ∧
      Balance (Fifo k (.key k' op)) (poppedBy k (.key k' op) ((Call.key k' op).exec env w).1) l' l
        (pushedBy k (.key k' op)) := by
  have hpush : pushedBy k (.key k' op) = [] := by
    cases op with
    | push vals left => exact if_neg fun hk => by cases h hk
    | _ => rfl
  have hpop : ∀ res, poppedBy k (.key k' op) res = [] := by
    intro res
    cases op with
    | pop count left =>
      cases res with
      | error e => rfl
      | ok items => exact if_neg fun hk => by cases h hk
    | _ => rfl
  refine ⟨l, ?_, by rw [hpush, hpop]; exact .same _ l⟩
  have hraw := congrFun (exec_raw env (.key k' op) hg (by simp)) k
  rw [hraw]
  simp only [Call.spec]
  by_cases hk : k' = k
  · subst hk
    rw [View.put_self, read_spec (h rfl), hl, holding_live]
  · rw [View.put_other _ _ (Ne.symm hk), hl]

/-- One call. -/
theorem call_balance {c : Call σ} (hc : QueueUse k c) (env : Env) {w : World σ} (hg : w.store.Good)
    {l : List Bytes} (hl : w.store.raw k = holding l) :
    ∃ l', (c.exec env w).2.store.raw k = holding l' ∧
      Balance (Fifo k c) (poppedBy k c (c.exec env w).1) l' l (pushedBy k c) := by
  cases c with
  | key k' op =>
    cases op with
    | push vals left =>
      by_cases hk : k' = k
      · subst hk
        refine ⟨_, push_call hg.unbounded hl env vals left, ?_⟩
        simp only [poppedBy, pushedBy, if_true, Fifo]
        exact ⟨pushAll_perm vals left l,
          fun hleft => by rw [hleft trivial, pushAll_right, List.nil_append]⟩
      · exact quiet_balance (fun h => absurd h hk) env hg hl
    | pop count left =>
      by_cases hk : k' = k
      · subst hk
        obtain ⟨hans, hraw⟩ := pop_call hg.unbounded hl env count left
        refine ⟨_, hraw, ?_⟩
        rw [hans]
        simp only [poppedBy, pushedBy, if_true, Fifo]
        refine ⟨(popLoop_perm left count l).trans (.of_eq (List.append_nil l).symm),
          fun hleft => ?_⟩
        rw [hleft trivial, List.append_nil]
        exact popLoop_left count l
      · exact quiet_balance (fun h => absurd h hk) env hg hl
    | _ => exact quiet_balance hc env hg hl
  | flushAll => exact hc.elim
  | purgeExpired =>
    refine ⟨l, ?_, .same _ l⟩
    have hraw := congrFun (Store.purgeExpired_raw (s := w.store) env) k
    exact hraw.trans ((congrArg _ hl).trans (holding_live l _))
  | keys | dbsize | shardCount | nowMs => exact ⟨l, hl, .same _ l⟩
  | save => exact ⟨l, (congrFun (exec_raw env .save hg (by simp)) k).trans hl, .same _ l⟩

/-- The balance of everything that has been noted. -/
structure Balanced (k : Bytes) (initial : List Bytes) (s : World σ × List ((c : Call σ) × c.Res)) :
    Prop where
  good : s.1.store.Good
  list : ∃ l, s.1.store.raw k = holding l ∧
    Balance (∀ e ∈ s.2, Fifo k e.1) (popped k s.2) l initial (pushed k s.2)

theorem queue_step {initial : List Bytes} (env : Env) (c : Call σ)
    (s : World σ × List ((c : Call σ) × c.Res)) (hc : QueueUse k c) (h : Balanced k initial s) :
    Balanced k initial (Serial.noting Call.exec env c s).2 := by
  obtain ⟨l, hl, hb⟩ := h.list
  obtain ⟨l', hl', hb'⟩ := call_balance hc env h.good hl
  refine ⟨exec_good env c h.good, l', hl', ?_⟩
  have hpop : popped k (Serial.noting Call.exec env c s).2.2 =
      popped k s.2 ++ poppedBy k c (c.exec env s.1).1 := by
    simp [popped, Serial.noting]
  have hpush : pushed k (Serial.noting Call.exec env c s).2.2 = pushed k s.2 ++ pushedBy k c := by
    simp [pushed, Serial.noting]
  have hfifo : (∀ e ∈ (Serial.noting Call.exec env c s).2.2, Fifo k e.1) →
      (∀ e ∈ s.2, Fifo k e.1) ∧ Fifo k c := by
    intro he
    exact ⟨fun e hs => he e (List.mem_append_left _ hs),
      he _ (List.mem_append_right _ (List.mem_singleton_self _))⟩
  rw [hpop, hpush]
  have hboth := hb.trans hb'
  exact ⟨hboth.perm, fun he => hboth.order (hfifo he)⟩

/-- Any programs that use the list as a queue. -/
theorem queue_run {I α : Type} [DecidableEq I] {ps : I → Prog (Call σ) Call.Res α}
    (hps : ∀ i, (ps i).All (QueueUse k) fun _ => True) (sched : List (I × Env)) {w : World σ}
    (hg : w.store.Good) {initial : List Bytes} (hk : w.store.raw k = holding initial) :
    Balanced k initial (Serial.interleave (Serial.noting Call.exec) sched (ps, w, [])).2 :=
  Serial.interleave_inv (fun e c s hc hs => queue_step e c s hc hs) sched (ps, w, []) hps
    ⟨hg, initial, hk, .same _ initial⟩

theorem fifo_run {I α : Type} [DecidableEq I] {ps : I → Prog (Call σ) Call.Res α}
    (hps : ∀ i, (ps i).All (Fifo k) fun _ => True) (sched : List (I × Env)) (w : World σ) :
    ∀ e ∈ (Serial.interleave (Serial.noting Call.exec) sched (ps, w, [])).2.2, Fifo k e.1 := by
  refine Serial.interleave_inv (J := fun s : World σ × List ((c : Call σ) × c.Res) => ∀ e ∈ s.2,
    Fifo k e.1) ?_ sched
    (ps, w, []) hps (fun e he => by cases he)
  intro env c s hc hs e he
  rcases List.mem_append.1 he with he | he
  · exact hs e he
  · rw [List.mem_singleton.1 he]
    exact hc

/-! ## Commands -/

/-- The commands of a queue; with `fifo`, those that push at the right and pop at the left. -/
def queueName (fifo : Bool) : CmdName → Bool
  | .rpush | .lpop | .llen | .lrange => true
  | .lpush | .rpop => !fifo
  | _ => false

/-- A command of a queue, or a command on a single other key. -/
def queueCommand (fifo : Bool) (k : Bytes) (a : Argv) : Bool :=
  (CmdName.ofName (upperName a.1)).all fun c => queueName fifo c || (c.key a.2).any (· ≠ k)

omit [Score σ] in
theorem queueUse_elsewhere {k' : Bytes} (hk : k' ≠ k) (c : Call σ) (h : Within [k'] c) :
    QueueUse k c ∧ Fifo k c := by
  cases c with
  | key k'' op =>
    obtain rfl := List.mem_singleton.1 h
    constructor
    · cases op <;> first | trivial | exact fun e => absurd e hk
    · cases op <;> first | trivial | exact fun e => absurd e hk
  | nowMs => exact ⟨trivial, trivial⟩
  | _ => exact h.elim

/-- What the commands of a queue may do. -/
def Queues (fifo : Bool) (k : Bytes) (c : Call σ) : Prop := QueueUse k c ∧ (fifo = true → Fifo k c)

omit [Score σ] in
theorem pushCmd_queues {fifo left : Bool} (h : fifo = true → left = false) (args : List Bytes) :
    (pushCmd args left : Cmd σ Outcome).All (Queues fifo k) fun _ => True := by
  unfold pushCmd
  split
  · exact ⟨⟨trivial, fun hf _ => h hf⟩, fun _ => trivial⟩
  · trivial

omit [Score σ] in
theorem popCmd_queues {fifo left : Bool} (h : fifo = true → left = true) (args : List Bytes) :
    (popCmd args left : Cmd σ Outcome).All (Queues fifo k) fun _ => True := by
  unfold popCmd
  split
  · exact ⟨⟨trivial, fun hf _ => h hf⟩, fun _ => trivial⟩
  · split
    · exact .ite ⟨⟨trivial, fun hf _ => h hf⟩, fun _ => trivial⟩ trivial
    · trivial
  · trivial

theorem storeCmd_queues {fifo : Bool} {c : CmdName} (h : queueName fifo c = true) (cfg : Config)
    (st : ConnState) (name : Bytes) (args : List Bytes) :
    (storeCmd cfg st name args c : Cmd σ Outcome).All (Queues fifo k) fun _ => True := by
  cases c with
  | rpush => exact pushCmd_queues (fun _ => rfl) args
  | lpush => exact pushCmd_queues (fun hf => by rw [hf] at h; cases h) args
  | lpop => exact popCmd_queues (fun _ => rfl) args
  | rpop => exact popCmd_queues (fun hf => by rw [hf] at h; cases h) args
  | llen =>
    simp only [storeCmd]
    split
    · exact ⟨⟨fun _ => rfl, fun _ => trivial⟩, fun _ => trivial⟩
    · trivial
  | lrange =>
    simp only [storeCmd]
    split
    · unfold lrangeCmd
      split
      · exact ⟨⟨fun _ => rfl, fun _ => trivial⟩, fun _ => trivial⟩
      · trivial
    · trivial
  | _ => cases h

theorem dispatch_queues {fifo : Bool} {a : Argv} (h : queueCommand fifo k a = true) (cfg : Config)
    (st : ConnState) :
    (dispatch cfg st a.1 a.2 : Cmd σ (Outcome × ConnState)).All (Queues fifo k) fun _ => True := by
  unfold dispatch
  cases hc : CmdName.ofName (upperName a.1) with
  | none => trivial
  | some c =>
    have hstore : (storeCmd cfg st a.1 a.2 c : Cmd σ Outcome).All
        (Queues fifo k) fun _ => True := by
      rw [queueCommand, hc, Option.all_some, Bool.or_eq_true] at h
      rcases h with h | h
      · exact storeCmd_queues h cfg st a.1 a.2
      · cases hk : c.key a.2 with
        | none => rw [hk] at h; cases h
        | some k' =>
          have hne : k' ≠ k := by simpa [hk] using h
          exact (storeCmd_onlyOn cfg st a.1 hk).mono
            (fun c hw => ⟨(queueUse_elsewhere hne c hw).1,
              fun _ => (queueUse_elsewhere hne c hw).2⟩) fun _ h => h
    cases c with
    | hello | auth | client => trivial
    | _ => exact hstore.bind fun _ _ => trivial

/-- A client's commands one after the other. -/
def session (cfg : Config) : List (ConnState × Argv) → Cmd σ (List Outcome)
  | [] => .pure []
  | (st, a) :: rest => do
    let r ← dispatch cfg st a.1 a.2
    let rs ← session cfg rest
    return r.1 :: rs

theorem session_queues {fifo : Bool} (cfg : Config) (cmds : List (ConnState × Argv))
    (h : ∀ c ∈ cmds, queueCommand fifo k c.2 = true) :
    (session cfg cmds : Cmd σ (List Outcome)).All (Queues fifo k) fun _ => True := by
  induction cmds with
  | nil => trivial
  | cons c cmds ih =>
    refine (dispatch_queues (h c List.mem_cons_self) cfg c.1).bind fun r _ => ?_
    exact (ih fun x hx => h x (List.mem_cons_of_mem _ hx)).bind fun _ _ => trivial

/-- **A work queue.** Any clients, each with any list of commands that push to a list, pop from
it, at either end and any number of elements at a time, or read it, or are on a single other
key; any interleaving of their calls; a list without a deadline in a store without a memory
limit. What the clients have been handed and what is left in the list are what was in the list
and what they have pushed, each element as often. If they push at the right and pop at the left,
it is also in this order. -/
theorem queue_exact {I : Type} [DecidableEq I] (cfg : Config) (fifo : Bool)
    (cmds : I → List (ConnState × Argv)) (hcmds : ∀ i, ∀ c ∈ cmds i, queueCommand fifo k c.2 = true)
    (sched : List (I × Env)) (w : World σ) (hg : w.store.Good) (initial : List Bytes)
    (hk : w.store.raw k = holding initial) :
    let m :=
      Serial.interleave (Serial.noting Call.exec) sched (fun i => session cfg (cmds i), w, [])
    (m.1, m.2.1) = Serial.interleave Call.exec sched (fun i => session cfg (cmds i), w) ∧
      ∃ l, m.2.1.store.raw k = holding l ∧ (popped k m.2.2 ++ l).Perm (initial ++ pushed k m.2.2) ∧
        (fifo = true → popped k m.2.2 ++ l = initial ++ pushed k m.2.2) := by
  intro m
  have hps := fun i => session_queues (σ := σ) cfg (cmds i) (hcmds i)
  obtain ⟨h1, h2⟩ := Serial.interleave_noting Call.exec sched (fun i => session cfg (cmds i)) w []
  obtain ⟨l, hl, hb⟩ :=
    (queue_run (fun i => (hps i).mono (fun _ h => h.1) fun _ h => h) sched hg hk).list
  refine ⟨Prod.ext h1 h2, l, hl, hb.perm, fun hf => hb.order ?_⟩
  exact fifo_run (fun i => (hps i).mono (fun _ h => h.2 hf) fun _ h => h) sched w

end

end

/-- A client that pushes three elements and one that pops three. -/
def producerConsumer : Bool → List (ConnState × Argv)
  | true =>
    [(ConnState.new 1 true, lit "RPUSH", [lit "q", lit "a", lit "b"]),
      (ConnState.new 1 true, lit "RPUSH", [lit "q", lit "c"])]
  | false =>
    [(ConnState.new 2 true, lit "LPOP", [lit "q"]),
      (ConnState.new 2 true, lit "LPOP", [lit "q", lit "2"])]

theorem queue_exact_two :
    let m := Serial.interleave (Serial.noting Call.exec)
      [(true, Env.plain 0), (false, Env.plain 1), (true, Env.plain 2), (false, Env.plain 3)]
      (fun i => session loggingConfig (producerConsumer i),
        (⟨Store.new 2 0 (fun k => if k = [] then 0 else 1) (fun _ _ _ => 0), none⟩ : World Int), [])
    popped (lit "q") m.2.2 = [lit "a", lit "b", lit "c"] ∧
      ∃ l, m.2.1.store.raw (lit "q") = holding l ∧
        (popped (lit "q") m.2.2 ++ l).Perm ([] ++ pushed (lit "q") m.2.2) ∧
        (true = true → popped (lit "q") m.2.2 ++ l = [] ++ pushed (lit "q") m.2.2) := by
  intro m
  refine ⟨by decide +kernel, ?_⟩
  exact (queue_exact loggingConfig true producerConsumer (by decide +kernel) _ _ (new_good ..) []
    (congrFun (new_raw ..) _)).2

end Inmem.L5
