import Inmem.Core.Serial
import Inmem.L4App.SingleKey

/-!
# Commands of several clients at the same time

Each connection runs `dispatch` in a thread of its own. A call of the store holds the
lock of its shard while it runs, and no lock is held between two calls, so a
schedule of calls is any list that says whose turn it is. Clock readings that the
dispatcher takes itself (`now_ms`) are no calls of the store: a client brings them
along. A client with several commands counts once for each.

`GETSET`, `SET` with `GET`, `PERSIST` and the `EXPIRE` family read in one call and
write in another. If another client calls the store for the key in between, the
outcome is that of no serial order (`getset_overwrites`).

* `serialisable`: if between two calls of a command no other client makes a call on
  the same key (under a memory limit: on a key of the same shard, whose eviction policy
  they share), the replies and the keyspace are those of running the commands one
  after another, and commands that exchange the value of one key lose none.
-/
namespace Inmem.L5

open Inmem.Core Inmem.L1 Inmem.L1.Resp Inmem.L3 Inmem.L4

/-- A client with its command, and the clock readings that the dispatcher takes for it. -/
structure Client where
  st : ConnState
  argv : Argv
  clock : Nat → Nat

section
variable {σ : Type}

/-- The calls of the store that a command makes, given its clock readings from the
`n`-th on. -/
def resolve {α : Type} (clock : Nat → Nat) : Nat → Cmd σ α → Cmd σ α
  | _, .pure a => .pure a
  | n, .call .nowMs k => resolve clock (n + 1) (k (clock n))
  | n, .call c k => .call c fun r => resolve clock n (k r)

/-- The value that a command has returned, once it is done. -/
def returned : Cmd σ (Outcome × ConnState) → Option (Option Bytes)
  | .pure r => match r.1.reply with | .bulk b => some b | _ => none
  | .call _ _ => none

theorem pure_of_returned {p : Cmd σ (Outcome × ConnState)} (h : (returned p).isSome = true) :
    ∃ o, p = .pure o := by
  cases p with
  | pure o => exact ⟨o, rfl⟩
  | call c k => cases h

theorem resolve_onKey {α : Type} {k : Bytes} (clock : Nat → Nat) {p : Cmd σ α} (hp : OnlyOn k p) :
    ∀ n,
    (resolve clock n p).All (fun c => ∃ op, c = .key k op) fun _ => True := by
  induction p with
  | pure a => exact fun _ => trivial
  | call c f ih =>
    intro n
    cases c with
    | key k' op =>
      obtain rfl : k' = k := List.mem_singleton.1 hp.1
      exact ⟨⟨op, rfl⟩, fun r => ih r (hp.2 r) n⟩
    | nowMs => exact ih _ (hp.2 _) (n + 1)
    | _ => exact hp.1.elim

variable [Score σ]

/-- What a client runs. -/
def Client.prog (cfg : Config) (c : Client) : Cmd σ (Outcome × ConnState) :=
  resolve c.clock 0 (dispatch cfg c.st c.argv.1 c.argv.2)

end

section
variable {σ : Type} [Score σ] {I : Type} [DecidableEq I]

/-- The clients' calls in the order of a schedule. -/
def sideBySide (cfg : Config) (cs : I → Client) (sched : List (I × Env)) (w : World σ) :
    (I → Cmd σ (Outcome × ConnState)) × World σ :=
  Serial.interleave Call.exec sched (fun i => (cs i).prog cfg, w)

/-- The clients one after another, each with the surroundings that its calls have in the
schedule. -/
def oneByOne (cfg : Config) (cs : I → Client) (sched : List (I × Env)) (order : List I)
    (w : World σ) : (I → Cmd σ (Outcome × ConnState)) × World σ :=
  Serial.serially Call.exec (Serial.own sched) order (fun i => (cs i).prog cfg, w)

/-- The replies and the keyspace are those of some serial order. -/
def Serialisable (cfg : Config) (cs : I → Client) (sched : List (I × Env)) (w : World σ) : Prop :=
  ∃ order : List I, order.Nodup ∧ (∀ i, i ∈ order ↔ i ∈ sched.map Prod.fst) ∧
    (sideBySide cfg cs sched w).1 = (oneByOne cfg cs sched order w).1 ∧
    (sideBySide cfg cs sched w).2.store.raw = (oneByOne cfg cs sched order w).2.store.raw

/-- Calls on these keys can get in each other's way. -/
def Conflict (s : Store σ) (k k' : Bytes) : Prop := k = k' ∨ ¬ s.Unbounded ∧ s.index k = s.index k'

/-! ## What a call depends on -/

/-- Without a memory limit, a call reads and changes the record of its key. -/
theorem local_key :
    Serial.Local (Call.exec (σ := σ)) (fun w => w.store.Unbounded) (fun k c => ∃ op, c = .key k op)
    (fun k w => w.store.raw k) where
  keeps := by
    rintro e _ w k ⟨op, rfl⟩ hw
    exact Store.key_unbounded hw e k op
  answer := by
    rintro e _ w w' k ⟨op, rfl⟩ hw hw' h
    refine ⟨Shard.exec_congr e op h, ?_⟩
    show (w.store.withShard k (op.exec e k)).2.raw k = (w'.store.withShard k (op.exec e k)).2.raw k
    rw [Store.key_raw hw, Store.key_raw hw', View.put_self, View.put_self, h]
  frame := by
    rintro e _ w k k' ⟨op, rfl⟩ hw hne
    exact (congrFun (Store.key_raw hw e k op) k').trans (View.put_other _ _ hne)

theorem shard_get? (s : Store σ) (k : Bytes) : s.shards[s.index k]? = some (s.shard k) :=
  List.getElem?_eq_getElem (s.index_lt k)

/-- A call reads and changes the shard of its key. -/
theorem local_shard (router : Bytes → UInt64) (mask : Nat) :
    Serial.Local (Call.exec (σ := σ)) (fun w => w.store.router = router ∧ w.store.mask = mask)
      (fun i c => ∃ k op, c = .key k op ∧ (router k).toNat &&& mask = i)
        (fun i w => w.store.shards[i]?) where
  keeps := by
    rintro e _ w i ⟨k, op, rfl, -⟩ hw
    exact hw
  answer := by
    rintro e _ w w' i ⟨k, op, rfl, rfl⟩ ⟨hr, hm⟩ ⟨hr', hm'⟩ h
    have hi : w.store.index k = (router k).toNat &&& mask := by rw [Store.index, hr, hm]
    have hi' : w'.store.index k = (router k).toNat &&& mask := by rw [Store.index, hr', hm']
    have hsh : w.store.shard k = w'.store.shard k := by
      rw [← hi, shard_get?, hi, ← hi', shard_get?] at h
      exact Option.some.inj h
    refine ⟨congrArg (fun sh => (op.exec e k sh).1) hsh, ?_⟩
    show (w.store.shards.set (w.store.index k) (op.exec e k (w.store.shard k)).2)[_]? =
      (w'.store.shards.set (w'.store.index k) (op.exec e k (w'.store.shard k)).2)[_]?
    rw [← hi, List.getElem?_set_self (w.store.index_lt k), hi, ← hi',
      List.getElem?_set_self (w'.store.index_lt k), hsh]
  frame := by
    rintro e _ w i j ⟨k, op, rfl, rfl⟩ ⟨hr, hm⟩ hne
    refine List.getElem?_set_ne ?_
    rw [Store.index, hr, hm]
    exact hne.symm

/-- The keyspace is in the shards. -/
theorem raw_of_shards {s t : Store σ} (hr : s.router = t.router) (hm : s.mask = t.mask)
    (h : ∀ i : Nat, s.shards[i]? = t.shards[i]?) : s.raw = t.raw := by
  funext k
  have hi : s.index k = t.index k := by rw [Store.index, Store.index, hr, hm]
  have hsh := h (s.index k)
  rw [shard_get?, hi, shard_get?] at hsh
  rw [Store.raw, Store.raw, Option.some.inj hsh]

/-! ## Serial orders -/

/-- Without overlap, the clients might as well have run in the order of their first calls. -/
theorem sideBySide_eq (cfg : Config) (cs : I → Client) {key : I → Bytes}
    (hkey : ∀ i, singleKey (cs i).argv = some (key i)) {sched : List (I × Env)} {w : World σ}
    (hno : Serial.NoOverlap (fun i j => Conflict w.store (key i) (key j)) (sched.map Prod.fst)) :
    (sideBySide cfg cs sched w).1 = (oneByOne cfg cs sched (Serial.clients sched) w).1 ∧
      (sideBySide cfg cs sched w).2.store.raw =
        (oneByOne cfg cs sched (Serial.clients sched) w).2.store.raw := by
  have hcalls : ∀ i, ((cs i).prog cfg : Cmd σ _).All
      (fun c => ∃ op, c = .key (key i) op) fun _ => True :=
    fun i => resolve_onKey _ (dispatch_onlyOn cfg (cs i).st (hkey i)) 0
  by_cases hb : w.store.Unbounded
  · have hm : Serial.Fits (fun w => w.store.Unbounded) (fun k c => ∃ op, c = .key k op) key
        ((fun i => (cs i).prog cfg, w) : (I → Cmd σ (Outcome × ConnState)) × World σ) :=
          ⟨hb, hcalls⟩
    obtain ⟨h1, h2⟩ := Serial.serialises local_key hm (hno.mono fun i j hij => .inl hij)
    exact ⟨h1, funext h2⟩
  · have hl := local_shard (σ := σ) w.store.router w.store.mask
    have hm :
        Serial.Fits (fun w' : World σ => w'.store.router = w.store.router ∧
          w'.store.mask = w.store.mask)
        (fun i c => ∃ k op, c = .key k op ∧ (w.store.router k).toNat &&& w.store.mask = i)
          (fun i => w.store.index (key i))
        ((fun i => (cs i).prog cfg, w) : (I → Cmd σ (Outcome × ConnState)) × World σ) := by
      refine ⟨⟨rfl, rfl⟩, fun i => (hcalls i).mono ?_ fun _ h => h⟩
      rintro c ⟨op, rfl⟩
      exact ⟨key i, op, rfl, rfl⟩
    obtain ⟨h1, h2⟩ := Serial.serialises hl hm (hno.mono fun i j hij => .inr ⟨hb, hij⟩)
    obtain ⟨hr, hk⟩ := (hm.interleave hl sched).inv
    obtain ⟨hr', hk'⟩ := (hm.interleave hl (Serial.regroup sched)).inv
    rw [Serial.interleave_regroup] at hr' hk'
    exact ⟨h1, raw_of_shards (hr.trans hr'.symm) (hk.trans hk'.symm) h2⟩

/-! ## Exchanging a value -/

/-- The client exchanges the value of `k` for `v`: `GETSET`, or a `SET` with `GET` that
is neither `NX` nor `XX`. -/
structure Exchanges (c : Client) (k v : Bytes) (opts : SetOptions) : Prop where
  nx : opts.nx = false
  xx : opts.xx = false
  cmd : CmdName.ofName (upperName c.argv.1) = some .getset ∧ c.argv.2 = [k, v] ∧ opts = {} ∨
    CmdName.ofName (upperName c.argv.1) = some .set ∧
      ∃ words, c.argv.2 = k :: v :: words ∧ setOptions (c.clock 0) words {} false = .ok (opts, true)

/-- Read the string, then set the key. -/
def exchange (k v : Bytes) (opts : SetOptions) (fail : StoreErr → Outcome × ConnState)
    (done : Option Bytes → Bool → Outcome × ConnState) : Cmd σ (Outcome × ConnState) :=
  .call (.key k .get) fun old =>
    match old with
    | .error e => .pure (fail e)
    | .ok old => .call (.key k (.set v opts)) fun did => .pure (done old did)

theorem Exchanges.prog {c : Client} {k v : Bytes} {opts : SetOptions} (h : Exchanges c k v opts)
    (cfg : Config) :
    ∃ fail done, (∀ old did, (done old did).1.reply = .bulk old) ∧
      (c.prog cfg : Cmd σ (Outcome × ConnState)) = exchange k v opts fail done := by
  obtain ⟨hn, ha, ho⟩ | ⟨hn, words, ha, ho⟩ := h.cmd
  · refine ⟨fun e => (.r (storeErr e), c.st), fun old _ => (.w (.bulk old), c.st), fun _ _ => rfl,
      ?_⟩
    subst ho
    simp only [Client.prog, dispatch, hn, ha]
    refine congrArg (Prog.call _) (funext fun old => ?_)
    cases old <;> rfl
  · refine ⟨fun e => (.r (storeErr e), c.st), fun old did => (.maybe (.bulk old) did, c.st),
      fun _ _ => rfl, ?_⟩
    simp only [Client.prog, dispatch, hn, ha, storeCmd, setCmd, ask, keep, Prog.call_bind,
      Prog.pure_bind, resolve, ho, setWith, if_true, onKey]
    refine congrArg (Prog.call _) (funext fun old => ?_)
    cases old <;> rfl

/-- At each of these times the record is the string `x`, or absent. -/
def Holds (times : List Nat) (x : Option Bytes) (r : Option (Rec σ)) : Prop :=
  ∀ t ∈ times, recStr (liveAt t r) = .ok x

section
variable {times : List Nat} {x : Option Bytes} {r : Option (Rec σ)} {t : Nat}

omit [Score σ] in
/-- A record that is there at one of the times is there at all of them. -/
theorem Holds.cases (h : Holds times x r) (ht : t ∈ times) :
    liveAt t r = none ∧ x = none ∨ ∃ d, ∃ v,
      liveAt t r = some ⟨.str v, d⟩ ∧ r = some ⟨.str v, d⟩ ∧ x = some v := by
  have hr := h t ht
  cases hl : liveAt t r with
  | none => rw [hl] at hr; exact .inl ⟨rfl, (Except.ok.inj hr).symm⟩
  | some y =>
    obtain ⟨val, d⟩ := y
    rw [hl] at hr
    cases val with
    | str v => exact .inr ⟨d, v, rfl, (liveAt_eq_some.1 hl).1, (Except.ok.inj hr).symm⟩
    | _ => cases hr

omit [Score σ] in
theorem Holds.live (h : Holds times x r) (ht : t ∈ times) : Holds times x (liveAt t r) := by
  obtain ⟨hl, rfl⟩ | ⟨d, v, hl, rfl, rfl⟩ := h.cases ht
  · rw [hl]; exact fun _ _ => rfl
  · rw [hl]; exact h

omit [Score σ] in
theorem Holds.set (h : Holds times x r) (ht : t ∈ times) {opts : SetOptions}
    (hopts : ∀ u ∈ times, expired u opts.expireAt = false) (v : Bytes) :
    Holds times (some v) (some ⟨.str v, opts.deadline (liveAt t r)⟩ : Option (Rec σ)) := by
  intro u hu
  have hlive : expired u (opts.deadline (liveAt t r)) = false := by
    obtain ⟨hl, rfl⟩ | ⟨d, y, hl, rfl, rfl⟩ := h.cases ht
    · rw [hl]; exact hopts u hu
    · rw [hl, SetOptions.deadline]
      split
      · by_contra hc
        have hgone : liveAt u (some (⟨.str y, d⟩ : Rec σ)) = none := by
          simpa [liveAt] using hc
        have := h u hu
        rw [hgone] at this
        cases this
      · exact hopts u hu
  rw [show liveAt u (some (⟨.str v, opts.deadline (liveAt t r)⟩ : Rec σ)) =
    some ⟨.str v, opts.deadline (liveAt t r)⟩ from
    liveAt_eq_some.2 ⟨rfl, hlive⟩]
  rfl

end

section
variable {times : List Nat} {k v : Bytes} {opts : SetOptions} {e : Env} {w : World σ}
    {x : Option Bytes}

/-- Reading the string. -/
theorem get_holds (ht : e.now ∈ times) (hb : w.store.Unbounded)
    (hx : Holds times x (w.store.raw k)) :
    (Call.exec e (.key k .get) w).1 = .ok x ∧
      Holds times x ((Call.exec e (.key k .get) w).2.store.raw k) := by
  refine ⟨(Shard.exec_spec e k .get _ (hb _ (w.store.shard_mem k))).1.trans (hx _ ht), ?_⟩
  have hraw : (Call.exec e (.key k .get) w).2.store.raw k = liveAt e.now (w.store.raw k) :=
    (congrFun (Store.key_raw hb e k .get) k).trans (View.put_self ..)
  rw [hraw]
  exact hx.live ht

/-- Setting the key without a condition. -/
theorem set_holds (ht : e.now ∈ times) (hb : w.store.Unbounded) (hx : Holds times x (w.store.raw k))
    (hnx : opts.nx = false) (hxx : opts.xx = false)
    (hopts : ∀ u ∈ times, expired u opts.expireAt = false) :
    (Call.exec e (.key k (.set v opts)) w).1 = true ∧
      Holds times (some v) ((Call.exec e (.key k (.set v opts)) w).2.store.raw k) := by
  have hspec : (KeyOp.set v opts).spec e.now (liveAt e.now (w.store.raw k)) =
      (true, some ⟨.str v, opts.deadline (liveAt e.now (w.store.raw k))⟩) := by
    simp only [KeyOp.spec, SetOptions.allows, hnx, hxx, Bool.false_and, Bool.not_false,
      Bool.and_true, if_true]
  refine ⟨(Shard.exec_spec e k (.set v opts) _ (hb _ (w.store.shard_mem k))).1.trans
    (congrArg Prod.fst hspec), ?_⟩
  have hraw : (Call.exec e (.key k (.set v opts)) w).2.store.raw k =
      some ⟨.str v, opts.deadline (liveAt e.now (w.store.raw k))⟩ := by
    refine (congrFun (Store.key_raw hb e k (.set v opts)) k).trans ?_
    rw [View.put_self, hspec]
  rw [hraw]
  exact hx.set ht hopts v

/-- One exchange without a pause answers the value that was there and leaves its own. -/
theorem exchange_alone (hnx : opts.nx = false) (hxx : opts.xx = false)
    (hopts : ∀ u ∈ times, expired u opts.expireAt = false) (hb : w.store.Unbounded)
    (hx : Holds times x (w.store.raw k)) {fail : StoreErr → Outcome × ConnState}
    {done : Option Bytes → Bool → Outcome × ConnState} {es : List Env}
    (hes : ∀ e ∈ es, e.now ∈ times) {o : Outcome × ConnState}
    (ho : (Serial.alone Call.exec es (exchange k v opts fail done) w).1 = .pure o) :
    o = done x true ∧
      (Serial.alone Call.exec es (exchange k v opts fail done) w).2.store.Unbounded ∧
      Holds times (some v)
        ((Serial.alone Call.exec es (exchange k v opts fail done) w).2.store.raw k) := by
  match es, ho with
  | [], ho => cases ho
  | [e], ho =>
    obtain ⟨hget, -⟩ := get_holds (hes e List.mem_cons_self) hb hx
    simp only [Serial.alone, List.foldl_cons, List.foldl_nil, exchange, Serial.advance, hget] at ho
    cases ho
  | e₁ :: e₂ :: es, ho =>
    obtain ⟨hget, hx₁⟩ := get_holds (hes e₁ List.mem_cons_self) hb hx
    have hb₁ : (Call.exec e₁ (.key k .get) w).2.store.Unbounded := Store.key_unbounded hb e₁ k .get
    obtain ⟨hset, hx₂⟩ :=
      set_holds (v := v) (hes e₂ (List.mem_cons_of_mem _ List.mem_cons_self)) hb₁ hx₁ hnx hxx hopts
    have hend : Serial.alone Call.exec (e₁ :: e₂ :: es) (exchange k v opts fail done) w =
        (.pure (done x true),
          (Call.exec e₂ (.key k (.set v opts)) (Call.exec e₁ (.key k .get) w).2).2) := by
      rw [← Serial.alone_pure Call.exec es]
      simp only [Serial.alone, List.foldl_cons, exchange, Serial.advance, hget, hset]
    rw [hend] at ho ⊢
    exact ⟨(Prog.pure.inj ho).symm, Store.key_unbounded hb₁ e₂ k _, hx₂⟩

end

/-- Exchanges one after another: each answers what the one before it wrote. -/
theorem exchange_chain (cfg : Config) {cs : I → Client} {k : Bytes} {v : I → Bytes}
    {opts : I → SetOptions} (hex : ∀ i, Exchanges (cs i) k (v i) (opts i)) {times : List Nat}
    (hopts : ∀ i, ∀ u ∈ times, expired u (opts i).expireAt = false) {es : I → List Env}
    (hes : ∀ i, ∀ e ∈ es i, e.now ∈ times) (order : List I) :
    ∀ {m : Serial.Pool I (Call σ) Call.Res (Outcome × ConnState) (World σ)} {x : Option Bytes},
      order.Nodup →
      (∀ i ∈ order, m.1 i = (cs i).prog cfg) → m.2.store.Unbounded →
      Holds times x (m.2.store.raw k) →
      (∀ i ∈ order, ∃ o, (Serial.serially Call.exec es order m).1 i = .pure o) →
      ∃ (old : I → Option Bytes) (last : Option Bytes),
        (∀ i ∈ order, returned ((Serial.serially Call.exec es order m).1 i) = some (old i)) ∧
        Holds times last ((Serial.serially Call.exec es order m).2.store.raw k) ∧
        order.map old ++ [last] = x :: order.map fun i => some (v i) := by
  induction order with
  | nil =>
    intro m x _ _ _ hx _
    exact ⟨fun _ => none, x, fun _ hi => (List.not_mem_nil hi).elim, hx, rfl⟩
  | cons i order ih =>
    intro m x hnd hprog hb hx hdone
    obtain ⟨hi, hnd⟩ := List.nodup_cons.1 hnd
    obtain ⟨fail, done, hreply, hp⟩ := (hex i).prog (σ := σ) cfg
    have hother : ∀ j ∈ order, j ≠ i := fun j hj he => hi (he ▸ hj)
    -- the first client's turn
    have hturn : (Serial.serially Call.exec es (i :: order) m).1 i =
        (Serial.alone Call.exec (es i) (m.1 i) m.2).1 :=
      (Serial.serially_other Call.exec es hi _).trans (Function.update_self ..)
    obtain ⟨o, ho⟩ := hdone i List.mem_cons_self
    rw [hturn] at ho
    have hi' := hprog i List.mem_cons_self
    rw [hi', hp] at ho
    obtain ⟨rfl, hb', hx'⟩ := exchange_alone (hex i).nx (hex i).xx (hopts i) hb hx (hes i) ho
    -- and then the others'
    obtain ⟨old, last, h1, h2, h3⟩ := ih (m := Serial.turn Call.exec es m i) (x := some (v i)) hnd
      (fun j hj => (Function.update_of_ne (hother j hj) _ _).trans
        (hprog j (List.mem_cons_of_mem _ hj)))
      (by simpa only [Serial.turn, hi', hp] using hb')
        (by simpa only [Serial.turn, hi', hp] using hx')
      (fun j hj => hdone j (List.mem_cons_of_mem _ hj))
    refine ⟨Function.update old i x, last, fun j hj => ?_, h2, ?_⟩
    · rcases List.mem_cons.1 hj with rfl | hj
      · rw [hturn, hi', hp, ho, Function.update_self, returned, hreply]
      · rw [Function.update_of_ne (hother j hj)]
        exact h1 j hj
    · have hmap : order.map (Function.update old i x) = order.map old :=
        List.map_congr_left fun j hj => Function.update_of_ne (hother j hj) _ _
      rw [List.map_cons, Function.update_self, hmap, List.cons_append, h3, List.map_cons]

end

/-! ## The result -/

section
variable {σ : Type} [Score σ] {I : Type} [DecidableEq I]

/-- **Serialisability.** Clients run single-key commands, and between two calls of one
command no other client makes a call on the same key (under a memory limit: on a key
of the same shard). Then the replies and the keyspace are those of a serial order. Without
a limit, if all of them exchange the value of one key, and no deadline passes
meanwhile, then in the order of their first calls each is answered the value before its
own: the values returned and the last value are the first value and the values written. -/
theorem serialisable (cfg : Config) (cs : I → Client) (key : I → Bytes)
    (hkey : ∀ i, singleKey (cs i).argv = some (key i)) (sched : List (I × Env)) (w : World σ)
    (hno : Serial.NoOverlap (fun i j => Conflict w.store (key i) (key j)) (sched.map Prod.fst)) :
    Serialisable cfg cs sched w ∧
      ∀ (k : Bytes) (v : I → Bytes) (opts : I → SetOptions) (x : Option Bytes) (t : Nat),
        (∀ i, Exchanges (cs i) k (v i) (opts i)) → w.store.Unbounded →
        (∀ i ∈ Serial.clients sched, ∃ o, (sideBySide cfg cs sched w).1 i = .pure o) →
        Holds (t :: sched.map fun s => s.2.now) x (w.store.raw k) →
        (∀ i, ∀ u ∈ t :: sched.map fun s => s.2.now, expired u (opts i).expireAt = false) →
        ∃ (old : I → Option Bytes) (last : Option Bytes),
          (∀ i ∈ Serial.clients sched, returned ((sideBySide cfg cs sched w).1 i) = some (old i)) ∧
          recStr (liveAt t ((sideBySide cfg cs sched w).2.store.raw k)) = .ok last ∧
          (Serial.clients sched).map old ++ [last] =
            x :: (Serial.clients sched).map fun i => some (v i) := by
  obtain ⟨h1, h2⟩ := sideBySide_eq cfg cs hkey hno
  refine ⟨⟨Serial.clients sched, Serial.clients_nodup sched, fun i => Serial.mem_clients, h1, h2⟩,
    ?_⟩
  intro k v opts x t hex hb hdone hx hopts
  rw [h1] at hdone ⊢
  rw [h2]
  have hes : ∀ i, ∀ e ∈ Serial.own sched i, e.now ∈ t :: sched.map fun s => s.2.now := by
    intro i e he
    obtain ⟨s, hs, rfl⟩ := List.mem_map.1 he
    exact List.mem_cons_of_mem _ (List.mem_map.2 ⟨s, (List.mem_filter.1 hs).1, rfl⟩)
  obtain ⟨old, last, ha, hl, he⟩ :=
    exchange_chain cfg hex hopts hes (Serial.clients sched) (m := (fun i => (cs i).prog cfg, w))
      (Serial.clients_nodup sched) (fun _ _ => rfl) hb hx hdone
  exact ⟨old, last, ha, hl t List.mem_cons_self, he⟩

end

/-- Clients that run `GETSET k a` and `GETSET k b`. -/
def twoGetsets (b : Bool) : Client :=
  ⟨ConnState.internal, (lit "getset", [lit "k", if b then lit "b" else lit "a"]), fun _ => 0⟩

def emptyWorld : World Int := ⟨Store.new 1 0 (fun _ => 0) fun _ _ _ => 0, none⟩

/-- Both clients read before either writes. -/
def overlapping : List (Bool × Env) := [false, true, false, true].map fun b => (b, Env.plain 0)

/-- Both are answered that there was no value, and the first value written is lost:
whichever client goes first, the other would have been answered its value. -/
theorem getset_overwrites :
    ¬ Serialisable loggingConfig twoGetsets overlapping emptyWorld ∧
      returned ((sideBySide loggingConfig twoGetsets overlapping emptyWorld).1 false) = some none ∧
      returned ((sideBySide loggingConfig twoGetsets overlapping emptyWorld).1 true) = some none ∧
      recStr ((sideBySide loggingConfig twoGetsets overlapping emptyWorld).2.store.raw (lit "k")) =
        .ok (some (lit "b")) := by
  refine ⟨?_, by decide +kernel, by decide +kernel, by decide +kernel⟩
  rintro ⟨order, hnd, hmem, hprog, -⟩
  have hf : false ∈ order := (hmem false).2 (by decide)
  have ht : true ∈ order := (hmem true).2 (by decide)
  have horder : order = [false, true] ∨ order = [true, false] := by
    clear hmem hprog
    match order, hnd with
    | [], _ => cases hf
    | [a], _ => cases a <;> simp_all
    | [a, b], _ => cases a <;> cases b <;> simp_all
    | a :: b :: c :: _, hnd => cases a <;> cases b <;> cases c <;> simp at hnd
  rcases horder with rfl | rfl
  · have := congrArg returned (congrFun hprog true)
    revert this; decide +kernel
  · have := congrArg returned (congrFun hprog false)
    revert this; decide +kernel

theorem emptyWorld_unbounded : emptyWorld.store.Unbounded := by
  intro sh hsh
  obtain ⟨i, -, rfl⟩ := List.mem_map.1 hsh
  rfl

/-- The second client starts when the first is done. -/
def inTurn : List (Bool × Env) := [false, false, true, true].map fun b => (b, Env.plain 0)

/-- The two, and a client that runs `SET j c GET`. -/
def threeClients (i : Fin 3) : Client :=
  if i = 2 then ⟨ConnState.internal, (lit "set", [lit "j", lit "c", lit "get"]), fun _ => 0⟩
  else twoGetsets (i = 1)

/-- The third client may call the store at any time; the two, one after the other, lose no value. -/
theorem serialisable_getsets :
    Serialisable loggingConfig threeClients
      ([0, 2, 0, 1, 2, 1].map fun i => (i, Env.plain 0)) emptyWorld ∧
      ∃ (old : Bool → Option Bytes) (last : Option Bytes),
        (∀ b, returned ((sideBySide loggingConfig twoGetsets inTurn emptyWorld).1 b) =
          some (old b)) ∧
        [old false, old true, last] = [none, some (lit "a"), some (lit "b")] := by
  have noConflict : ∀ {k k' : Bytes}, Conflict emptyWorld.store k k' → k = k' := fun h =>
    h.elim id fun h => absurd emptyWorld_unbounded h.1
  constructor
  · refine (serialisable loggingConfig threeClients (fun i => if i = 2 then lit "j" else lit "k")
      (by decide +kernel) _ _ ?_).1
    exact Serial.NoOverlap.mono (r := fun i j : Fin 3 =>
      (if i = 2 then lit "j" else lit "k") = if j = 2 then lit "j" else lit "k")
      (fun _ _ h => noConflict h) (by decide +kernel)
  · have hdone : ∀ b ∈ Serial.clients inTurn, ∃ o,
        (sideBySide loggingConfig twoGetsets inTurn emptyWorld).1 b = .pure o :=
      fun b _ => pure_of_returned (by cases b <;> decide +kernel)
    have hempty : ∀ times, Holds times none (emptyWorld.store.raw (lit "k")) := fun times t _ => by
      rw [show emptyWorld.store.raw (lit "k") = none from congrFun (new_raw 1 0 _ _) _]; rfl
    obtain ⟨old, last, h1, -, h3⟩ :=
      (serialisable loggingConfig twoGetsets (fun _ => lit "k")
        (by decide +kernel) inTurn emptyWorld
        (Serial.NoOverlap.mono (r := fun _ _ => True) (fun _ _ _ => trivial) (by decide +kernel))).2
          (lit "k")
        (fun b => if b then lit "b" else lit "a") (fun _ => {}) none 0
        (fun b => ⟨rfl, rfl, .inl (by cases b <;> decide +kernel)⟩) emptyWorld_unbounded hdone
          (hempty _) fun _ _ _ => rfl
    exact ⟨old, last, fun b => h1 b (by cases b <;> decide), h3⟩

end Inmem.L5
