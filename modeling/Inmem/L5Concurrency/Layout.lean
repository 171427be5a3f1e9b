import Inmem.L4App.AuthGate
import Inmem.L4App.SingleKey
import Inmem.L5Concurrency.Threads

/-!
# The layout of the store does not show

Two servers with different numbers of shards, routers and hashers, on which the
same connections make the same steps in the same order, while their reapers work in their
own time, give every client the same bytes and write the same file and feeds
(`layout_invisible`). It is about commands that make calls on keys only (`OnKeys`), so it
leaves out those that go through all shards; the answer of some of them shows the layout.

* `storeCmd_onKeys`, `serveCmd_onKeys`: which commands those are;
* `call_same`: a call on a key answers alike on both stores;
* `reap_same`: the reaper drops only what no later call would see.
-/
namespace Inmem.L5

open Inmem.Core Inmem.L1 Inmem.L1.Resp Inmem.L3 Inmem.L4

/-! ## Commands on keys -/

section
variable {σ : Type}

/-- The calls on one key, and the clock. -/
def OnKeys : Call σ → Prop
  | .key _ _ | .nowMs => True
  | _ => False

/-- The commands that go through all shards. -/
def wholeStore : CmdName → Bool
  | .keys | .scan | .dbsize | .info | .flushall | .flushdb | .save | .bgsave => true
  | _ => false

theorem onKeys_of_within {ks : List Bytes} (c : Call σ) (h : Within ks c) : OnKeys c := by
  cases c <;> trivial

theorem countKeys_onKeys (op : KeyOp σ) (yes : op.Res → Bool) (ks : List Bytes) :
    (countKeys op yes ks).All OnKeys fun _ => True := by
  induction ks with
  | nil => trivial
  | cons k ks ih => exact ⟨trivial, fun _ => ih.bind fun _ _ => trivial⟩

theorem mgetLoop_onKeys (ks : List Bytes) : (mgetLoop ks : Cmd σ _).All OnKeys fun _ => True := by
  induction ks with
  | nil => trivial
  | cons k ks ih => exact ⟨trivial, fun _ => ih.bind fun _ _ => trivial⟩

theorem msetLoop_onKeys : ∀ args : List Bytes, (msetLoop args : Cmd σ Unit).All OnKeys fun _ => True
  | [] | [_] => trivial
  | _ :: _ :: rest => ⟨trivial, fun _ => msetLoop_onKeys rest⟩

variable [Score σ]

/-- Every command but those on the whole store makes calls on keys only. -/
theorem storeCmd_onKeys (cfg : Config) (st : ConnState) (name : Bytes) (args : List Bytes)
    {c : CmdName} (h : wholeStore c = false) :
    (storeCmd cfg st name args c : Cmd σ Outcome).All OnKeys fun _ => True := by
  cases hk : c.key args with
  | some k => exact (storeCmd_onlyOn cfg st name hk).mono onKeys_of_within fun _ h => h
  | none =>
    cases c with
    | keys | scan | dbsize | info | flushall | flushdb | save | bgsave => cases h
    | quit | select | command | config | hello | auth | client => trivial
    | ping | echo =>
      simp only [storeCmd]
      split <;> trivial
    | mset =>
      simp only [storeCmd, msetCmd]
      exact .ite trivial ((msetLoop_onKeys args).bind fun _ _ => trivial)
    | mget =>
      simp only [storeCmd]
      split
      · trivial
      · exact (mgetLoop_onKeys _).bind fun _ _ => trivial
    | del | unlink | «exists» =>
      simp only [storeCmd]
      split
      · trivial
      · exact (countKeys_onKeys _ _ _).bind fun _ _ => trivial
    -- the key is missing
    | _ =>
      cases args with
      | nil => trivial
      | cons a as => cases hk

/-- A command that makes calls on keys only. -/
def onKeys (name : Bytes) : Bool := !((CmdName.ofName (upperName name)).any wholeStore)

theorem dispatch_onKeys (cfg : Config) (st : ConnState) {name : Bytes} (h : onKeys name = true)
    (args : List Bytes) :
    (dispatch cfg st name args : Cmd σ (Outcome × ConnState)).All OnKeys fun _ => True := by
  unfold dispatch
  cases hc : CmdName.ofName (upperName name) with
  | none => trivial
  | some c =>
    have hw : wholeStore c = false := by simpa [onKeys, hc] using h
    cases c with
    | hello | auth | client => trivial
    | _ => exact (storeCmd_onKeys cfg st name args hw).bind fun _ _ => trivial

omit [Score σ] in
theorem serveFast_onKeys {st : ConnState} {name : Bytes} {args : List Bytes}
    {p : Cmd σ (Bytes × Bool)} (h : serveFast st name args = some p) :
    p.All OnKeys fun _ => True := by
  have hincr : ∀ k d, (fastIncr k d : Cmd σ (Bytes × Bool)).All OnKeys fun _ => True :=
    fun k d => ⟨trivial, fun res => by cases res <;> trivial⟩
  unfold serveFast at h
  dsimp only at h
  split at h
  · obtain ⟨-, h⟩ := Option.ite_none_right_eq_some.1 h
    cases h
    trivial
  · split at h
    · cases h
      exact ⟨trivial, fun r => by cases r <;> trivial⟩
    · split at h
      · cases h; exact hincr _ 1
      · obtain ⟨-, h⟩ := Option.ite_none_right_eq_some.1 h
        cases h
        exact hincr _ (-1)
  · obtain ⟨-, h⟩ := Option.ite_none_right_eq_some.1 h
    cases h
    exact ⟨trivial, fun _ => trivial⟩
  · cases h

theorem serveCmd_onKeys (cfg : Config) (st : ConnState) {name : Bytes} (h : onKeys name = true)
    (args : List Bytes) : (serveCmd cfg st name args : Cmd σ Served).All OnKeys fun _ => True := by
  unfold serveCmd
  cases hf : (serveFast st name args : Option (Cmd σ (Bytes × Bool))) with
  | some p => exact (serveFast_onKeys hf).bind fun _ _ => trivial
  | none => exact (dispatch_onKeys cfg st h args).bind fun _ _ => trivial

end

/-! ## The stores -/

section
variable {σ : Type} [Score σ]

/-- The same surroundings, but for the hashers that a flush draws. -/
structure Like (e e' : Env) : Prop where
  now : e.now = e'.now
  hashOrder : e.hashOrder = e'.hashOrder
  setOrder : e.setOrder = e'.setOrder
  ioError : e.ioError = e'.ioError

/-- Stores that hold the same for the calls to come. -/
structure Same (E : Surroundings) (s s' : Sys σ) : Prop where
  good : s.world.store.Good
  good' : s'.world.store.Good
  tick : s.tick = s'.tick
  live : s.world.store.raw.at (E.clock s.tick) = s'.world.store.raw.at (E.clock s.tick)

/-- An operation answers from the live record of its key. -/
theorem exec_like {env env' : Env} (he : Like env env') {k : Bytes} (op : KeyOp σ) {s s' : Shard σ}
    (h : liveAt env.now (s.raw k) = liveAt env.now (s'.raw k)) :
    (op.exec env k s).1 = (op.exec env' k s').1 := by
  have h1 := (Shard.exec_effect env k op s).1
  have h2 := (Shard.exec_effect env' k op s').1
  rw [← he.now, ← h] at h2
  cases op with
  | hgetall =>
    simp only [KeyOp.exec, KeyOp.execM, ← he.now, ← he.hashOrder]
    exact Shard.readCollection_congr h _
  | smembers =>
    simp only [KeyOp.exec, KeyOp.execM, ← he.now, ← he.setOrder]
    exact Shard.readCollection_congr h _
  | _ => exact h1.trans h2.symm

variable {E E' : Surroundings} {s s' : Sys σ}

/-- A call on a key answers alike and leaves the same. -/
theorem call_same (hE : ∀ i, Like (E i) (E' i)) (hmono : Monotone E.clock) {c : Call σ}
    (hc : OnKeys c) (h : Same E s s') :
    (s.call E c).1 = (s'.call E' c).1 ∧ Same E (s.call E c).2 (s'.call E' c).2 := by
  have hlike := hE s.tick
  have hne : c ≠ .purgeExpired := by rintro rfl; exact hc
  have hanswer : (c.exec (E s.tick) s.world).1 = (c.exec (E' s'.tick) s'.world).1 := by
    rw [← h.tick]
    cases c with
    | key k op => exact exec_like hlike op (congrFun h.live k)
    | nowMs => exact hlike.now
    | _ => exact hc.elim
  have hraw := exec_raw (E s.tick) c h.good hne
  have hraw' := exec_raw (E' s.tick) c h.good' hne
  refine ⟨hanswer, exec_good _ c h.good, exec_good _ c h.good', congrArg (· + 1) h.tick, ?_⟩
  have hnow : E.clock s.tick ≤ E.clock (s.tick + 1) := hmono (Nat.le_succ _)
  show (c.exec (E s.tick) s.world).2.store.raw.at _ =
    (c.exec (E' s'.tick) s'.world).2.store.raw.at _
  rw [← h.tick, hraw, hraw', ← hlike.now]
  exact View.at_mono hnow (c.spec_congr h.live).2

/-! ## The reapers -/

/-- The system after the reaper has purged a shard. -/
def reaped (now j : Nat) (s : Sys σ) : Sys σ :=
  { s with world := { s.world with store := purgeShard now s.world.store j } }

/-- The reaper drops what has expired, if it drops anything. -/
theorem purgeShard_raw (now j : Nat) (s : Store σ) (k : Bytes) :
    (purgeShard now s j).raw k = if s.index k = j then liveAt now (s.raw k) else s.raw k := by
  simp only [purgeShard, Store.raw, Store.shard_setShards, List.get_eq_getElem, List.getElem_modify]
  by_cases hj : j = s.index k
  · rw [if_pos hj, if_pos hj.symm, Shard.purge_raw]
    rfl
  · rw [if_neg hj, if_neg (Ne.symm hj)]
    rfl

theorem purgeShard_at {now u : Nat} (hu : now ≤ u) (j : Nat) (s : Store σ) :
    (purgeShard now s j).raw.at u = s.raw.at u := by
  funext k
  simp only [View.at, purgeShard_raw]
  split
  · exact liveAt_liveAt hu _
  · rfl

theorem purgeShard_good (now j : Nat) {s : Store σ} (hg : s.Good) : (purgeShard now s j).Good where
  unbounded sh hsh := by
    obtain ⟨i, hi, rfl⟩ := List.getElem_of_mem hsh
    have hi' : i < s.shards.length := by simpa [purgeShard, Store.setShards] using hi
    have hb := hg.unbounded _ (List.getElem_mem hi')
    simp only [purgeShard, Store.setShards, List.getElem_modify]
    split
    · rw [Shard.purgeExpired, Shard.dropKeys_budget]; exact hb
    · exact hb
  routed i hi k hk := by
    have hi' : i < s.shards.length := by simpa [purgeShard, Store.setShards] using hi
    refine hg.routed i hi' k ?_
    simp only [purgeShard, Store.setShards, List.getElem_modify] at hk
    split at hk
    · rw [Shard.purgeExpired, Shard.dropKeys_get] at hk
      split at hk
      · cases hk
      · exact hk
    · exact hk
  full k := by
    rw [purgeShard_raw]
    split
    · exact liveAt_full (hg.full k)
    · exact hg.full k

/-- The reaper drops nothing that a later call would see. -/
theorem reap_same {now : Nat} (j : Nat) (h : Same E s s') (hnow : now ≤ E.clock s.tick) :
    Same E (reaped now j s) s' where
  good := purgeShard_good now j h.good
  good' := h.good'
  tick := h.tick
  live := (purgeShard_at hnow j _).trans h.live

theorem Same.symm (hE : ∀ i, Like (E i) (E' i)) (h : Same E s s') : Same E' s' s where
  good := h.good'
  good' := h.good
  tick := h.tick.symm
  live := by
    have hclock : E'.clock = E.clock := funext fun i => (hE i).now.symm
    rw [hclock, ← h.tick]
    exact h.live.symm

end

/-! ## The servers -/

section
variable {σ : Type} [Score σ] {srv : Server} {E E' : Surroundings} {h h' h₁ : Host σ}

def Act.isReap : Act → Bool
  | .reap _ _ => true
  | _ => false

/-- The item is not a command on the whole store, nor `SYNC`. -/
def Act.onKeys : Act → Bool
  | .take _ (.cmd name _) => L5.onKeys name && !isSync name
  | _ => true

/-- The connection is not at a call on the whole store, nor in a dump. -/
def Phase.Calm : Phase σ → Prop
  | .serving _ p => p.All OnKeys fun _ => True
  | .sync | .dumping _ _ _ => False
  | _ => True

/-- A purge goes by a clock reading that no later call undercuts. -/
def Timely (E : Surroundings) (h : Host σ) : Act → Prop
  | .reap _ now => now ≤ E.clock h.node.sys.tick
  | _ => True

instance (E : Surroundings) (h : Host σ) : ∀ act, Decidable (Timely E h act)
  | .reap _ _ => inferInstanceAs (Decidable (_ ≤ _))
  | .take _ _ | .go _ => .isTrue trivial

/-- Servers that differ in their layout only. -/
structure Alike (E : Surroundings) (h h' : Host σ) : Prop where
  sys : Same E h.node.sys h'.node.sys
  aof : h.node.aof = h'.node.aof
  replicas : h.node.replicas = h'.node.replicas
  threads : h.threads = h'.threads
  calm : ∀ i, (h.threads i).phase.Calm

theorem Alike.symm (hE : ∀ i, Like (E i) (E' i)) (h : Alike E h₁ h') : Alike E' h' h₁ where
  sys := h.sys.symm hE
  aof := h.aof.symm
  replicas := h.replicas.symm
  threads := h.threads.symm
  calm := by rw [← h.threads]; exact h.calm

/-- Both servers put the same thread back. -/
theorem Alike.put {n n' : Node σ} {i : Nat} {t : Thread σ} (h : Alike E h₁ h')
    (hsys : Same E n.sys n'.sys) (haof : n.aof = n'.aof) (hreplicas : n.replicas = n'.replicas)
    (hcalm : t.phase.Calm) : Alike E (h₁.put i n t) (h'.put i n' t) where
  sys := hsys
  aof := haof
  replicas := hreplicas
  threads := by rw [Host.put, Host.put, h.threads]
  calm j := by
    by_cases hj : j = i
    · subst hj
      rw [Host.put_self]
      exact hcalm
    · rw [Host.put_other h₁ n t hj]
      exact h.calm j

theorem reap_alike (srv : Server) (j : Nat) {now : Nat} (h : Alike E h₁ h')
    (hnow : now ≤ E.clock h₁.node.sys.tick) :
    ∃ h₂, h₁.step srv E (.reap j now) = some h₂ ∧ Alike E h₂ h' :=
  ⟨_, rfl, reap_same j h.sys hnow, h.aof, h.replicas, h.threads, h.calm⟩

theorem take_calm {x : Item} {i : Nat} (hx : Act.onKeys (.take i x) = true) {t t' : Thread σ}
    (htake : t.take srv x = some t') : t'.phase.Calm := by
  unfold Thread.take at htake
  split at htake
  · rename_i hidle
    have hcalm : t.phase.Calm := by rw [hidle]; trivial
    split at htake
    · cases htake; trivial
    · rename_i name args
      obtain ⟨hkeys, hsync⟩ : L5.onKeys name = true ∧ isSync name = false := by
        simpa [Act.onKeys] using hx
      rw [if_neg (by simp [hsync])] at htake
      split at htake
      · cases htake; exact hcalm
      · split at htake
        · cases htake; exact hcalm
        · cases htake
          exact serveCmd_onKeys srv.cfg _ hkeys args
  · cases htake

theorem take_alike {i : Nat} {x : Item} (hx : Act.onKeys (.take i x) = true) (h : Alike E h₁ h')
    {h₂ : Host σ} (hstep : h₁.step srv E (.take i x) = some h₂) :
    ∃ h₂', h'.step srv E' (.take i x) = some h₂' ∧ Alike E h₂ h₂' := by
  obtain ⟨t, htake, rfl⟩ := Option.map_eq_some_iff.1 hstep
  refine ⟨h'.put i h'.node t, ?_, h.put h.sys h.aof h.replicas (take_calm hx htake)⟩
  simp only [Host.step, ← h.threads, htake, Option.map_some]

omit [Score σ] in
theorem rest_calm (t : Thread σ) : t.rest.phase.Calm := by
  unfold Thread.rest
  cases t.quit <;> trivial

/-- The append fails on both servers or on none. -/
theorem tryAppend_alike (hE : ∀ i, Like (E i) (E' i)) (h : Alike E h₁ h') (argv : List Bytes) :
    (Thread.tryAppend E h₁.node argv).1 = (Thread.tryAppend E' h'.node argv).1 ∧
      Same E (Thread.tryAppend E h₁.node argv).2.sys (Thread.tryAppend E' h'.node argv).2.sys ∧
      (Thread.tryAppend E h₁.node argv).2.aof = (Thread.tryAppend E' h'.node argv).2.aof ∧
      (Thread.tryAppend E h₁.node argv).2.replicas =
        (Thread.tryAppend E' h'.node argv).2.replicas := by
  have hio : (E' h'.node.sys.tick).ioError = (E h₁.node.sys.tick).ioError := by
    rw [h.sys.tick, (hE _).ioError]
  unfold Thread.tryAppend
  rw [hio, ← h.aof]
  cases haof : h₁.node.aof with
  | none => exact ⟨rfl, h.sys, h.aof, h.replicas⟩
  | some log =>
    cases (E h₁.node.sys.tick).ioError with
    | none => exact ⟨rfl, h.sys, by simp only [Node.append, h.aof], h.replicas⟩
    | some e => exact ⟨rfl, h.sys, h.aof, h.replicas⟩

/-- A connection goes on alike. -/
theorem go_alike (hE : ∀ i, Like (E i) (E' i)) (hmono : Monotone E.clock) {i : Nat}
    (h : Alike E h₁ h') {h₂ : Host σ} (hstep : h₁.step srv E (.go i) = some h₂) :
    ∃ h₂', h'.step srv E' (.go i) = some h₂' ∧ Alike E h₂ h₂' := by
  obtain ⟨⟨n, t⟩, hgo, rfl⟩ := Option.map_eq_some_iff.1 hstep
  have hrep : hasReplicas h₁.node = hasReplicas h'.node := by
    rw [hasReplicas, hasReplicas, h.replicas]
  -- it is enough that the thread of the other server goes on alike
  have key : ∀ n', (h₁.threads i).go E' h'.node = some (n', t) → Same E n.sys n'.sys →
      n.aof = n'.aof → n.replicas = n'.replicas → t.phase.Calm →
      ∃ h₂', h'.step srv E' (.go i) = some h₂' ∧ Alike E (h₁.put i n t) h₂' := by
    intro n' hgo' hsys haof hreplicas hcalm
    refine ⟨h'.put i n' t, ?_, h.put hsys haof hreplicas hcalm⟩
    simp only [Host.step, ← h.threads, hgo', Option.map_some]
  have hcalm := h.calm i
  cases hp : (h₁.threads i).phase with
  | idle => rw [Thread.go_idle hp] at hgo; cases hgo
  | gone => rw [Thread.go_gone hp] at hgo; cases hgo
  | sync => rw [hp] at hcalm; exact hcalm.elim
  | dumping D j done => rw [hp] at hcalm; exact hcalm.elim
  | serving a p =>
    rw [hp] at hcalm
    cases p with
    | call c k =>
      rw [Thread.go_call hp] at hgo
      cases hgo
      obtain ⟨hanswer, hsame⟩ := call_same hE hmono hcalm.1 h.sys
      exact key { h'.node with sys := (h'.node.sys.call E' c).2 }
        (by rw [Thread.go_call hp, hanswer]) hsame h.aof h.replicas
        (hcalm.2 _)
    | pure r =>
      rw [Thread.go_reply hp] at hgo
      cases hgo
      refine key h'.node (Thread.go_reply hp) h.sys h.aof h.replicas ?_
      cases hw : r.write with
      | true => rw [Thread.reply_write hw]; trivial
      | false => rw [Thread.reply_read hw]; exact rest_calm _
  | test a =>
    rw [Thread.go_test hp] at hgo
    cases hgo
    refine key h'.node (by rw [Thread.go_test hp, h.aof, hrep]) h.sys h.aof h.replicas ?_
    split
    · trivial
    · exact rest_calm _
  | append a =>
    obtain ⟨herr, hsys, haof, hreplicas⟩ := tryAppend_alike hE h (a.1 :: a.2)
    rw [Thread.go_append hp] at hgo
    cases hgo
    exact key _ (by rw [Thread.go_append hp, herr]) hsys haof hreplicas trivial
  | check a =>
    rw [Thread.go_check hp] at hgo
    cases hgo
    refine key h'.node (by rw [Thread.go_check hp, hrep]) h.sys h.aof h.replicas ?_
    split
    · trivial
    · exact rest_calm _
  | propagate a =>
    rw [Thread.go_propagate hp] at hgo
    cases hgo
    exact key _ (Thread.go_propagate hp) h.sys h.aof (by simp only [Node.propagate, h.replicas])
      (rest_calm _)

/-- Some passes of the other reaper. -/
theorem reaps_alike (hE : ∀ i, Like (E i) (E' i)) {acts : List Act}
    (hacts : ∀ act ∈ acts, act.isReap = true) :
    ∀ {h' : Host σ}, Alike E h₁ h' → Lts.Along (Host.step srv E') (Timely E') h' acts →
      ∃ h₂', Lts.run (Host.step srv E') h' acts = some h₂' ∧ Alike E h₁ h₂' := by
  induction acts with
  | nil => exact fun h _ => ⟨_, rfl, h⟩
  | cons act acts ih =>
    intro h' h htime
    cases act with
    | reap j now =>
      obtain ⟨h₂', hstep, h₂⟩ := reap_alike srv j (h.symm hE) htime.1
      have hback : ∀ i, Like (E' i) (E i) :=
        fun i => ⟨(hE i).now.symm, (hE i).hashOrder.symm, (hE i).setOrder.symm, (hE i).ioError.symm⟩
      obtain ⟨h₃', hrun, h₃⟩ :=
        ih (fun act ha => hacts act (List.mem_cons_of_mem _ ha)) (h₂.symm hback) (htime.2 _ hstep)
      exact ⟨h₃', (Lts.run_step hstep acts).trans hrun, h₃⟩
    | _ => exact absurd (hacts _ List.mem_cons_self) (by simp [Act.isReap])

/-- The second server follows the first. -/
theorem run_alike (hE : ∀ i, Like (E i) (E' i)) (hmono : Monotone E.clock) (acts : List Act) :
    ∀ {acts' : List Act} {h h' r : Host σ},
      (acts.filter fun act => !act.isReap) = acts'.filter (fun act => !act.isReap) →
      (∀ act ∈ acts, act.onKeys = true) → Lts.Along (Host.step srv E) (Timely E) h acts →
      Lts.Along (Host.step srv E') (Timely E') h' acts' → Alike E h h' →
      Lts.run (Host.step srv E) h acts = some r →
      ∃ r', Lts.run (Host.step srv E') h' acts' = some r' ∧ Alike E r r' := by
  induction acts with
  | nil =>
    intro acts' h h' r hsame _ _ htime' h₀ hrun
    cases hrun
    exact reaps_alike hE (fun act ha =>
      by simpa using List.filter_eq_nil_iff.1 hsame.symm act ha) h₀ htime'
  | cons act acts ih =>
    intro acts' h h' r hsame hon htime htime' h₀ hrun
    obtain ⟨h₁, hstep, hrest⟩ := Lts.run_cons hrun
    have hon' : ∀ act ∈ acts, act.onKeys = true := fun act ha => hon act (List.mem_cons_of_mem _ ha)
    by_cases hreap : act.isReap = true
    · cases act with
      | reap j now =>
        rw [List.filter_cons_of_neg (by simp [Act.isReap])] at hsame
        obtain ⟨h₂, hstep', h₂'⟩ := reap_alike srv j h₀ htime.1
        obtain rfl : h₁ = h₂ := Option.some.inj (hstep.symm.trans hstep')
        exact ih hsame hon' (htime.2 _ hstep) htime' h₂' hrest
      | _ => cases hreap
    · rw [List.filter_cons_of_pos (by simpa using hreap)] at hsame
      -- before the other server makes the step, its reaper may work
      obtain ⟨pre, post, rfl, hpre, -, hpost⟩ := List.filter_eq_cons_iff.1 hsame.symm
      obtain ⟨h₁', hrun₁, hal⟩ := reaps_alike hE (fun act ha => by simpa using hpre act ha) h₀
        (Lts.Along.before htime')
      have htime₁ := htime'.after hrun₁
      have hboth : ∃ h₂', h₁'.step srv E' act = some h₂' ∧ Alike E h₁ h₂' := by
        cases act with
        | take i x => exact take_alike (hon _ List.mem_cons_self) hal hstep
        | go i => exact go_alike hE hmono hal hstep
        | reap j now => exact absurd rfl hreap
      obtain ⟨h₂', hstep', h₂⟩ := hboth
      obtain ⟨r', hrun', hr⟩ := ih hpost.symm hon' (htime.2 _ hstep) (htime₁.2 _ hstep') h₂ hrest
      refine ⟨r', ?_, hr⟩
      rw [Lts.run_append, hrun₁, Option.bind_some, Lts.run_step hstep']
      exact hrun'

/-- A server that has just started, with connections that have not sent anything. -/
def Host.fresh (shards : Nat) (router : Bytes → UInt64) (hasher : Nat → Nat → Bytes → UInt64)
    (aof : Option Bytes) (replicas : List Bytes) (authenticated : Bool) : Host σ where
  node := ⟨⟨⟨Store.new shards 0 router hasher, none⟩, 0⟩, aof, replicas⟩
  threads i :=
    { st := ConnState.new i authenticated, out := [], quit := false, phase := .idle, wrote := [] }

/-- **The layout does not show.** Two servers without a memory limit, with any numbers of
shards, routers and hashers, whose connections make the same steps in the same order (none
of them a command on the whole store or `SYNC`), with the same I/O errors, clock readings,
which do not decrease, and orders of iteration of hashes and sets, and whose reapers purge any
shards at any time, by readings that no later call undercuts: whatever the first does the
second can do too, and then every connection stands where it stands on the first and has been
sent the same bytes, the append-only file and the feeds are the same, and so are the live keys
with their values and deadlines. -/
theorem layout_invisible (srv : Server) {E E' : Surroundings} (hE : ∀ i, Like (E i) (E' i))
    (hmono : Monotone E.clock) (shards shards' : Nat) (router router' : Bytes → UInt64)
    (hasher hasher' : Nat → Nat → Bytes → UInt64) (aof : Option Bytes) (replicas : List Bytes)
    (acts acts' : List Act)
    (hsame : (acts.filter fun act => !act.isReap) = acts'.filter fun act => !act.isReap)
    (hkeys : ∀ act ∈ acts, act.onKeys = true)
    (htime : Lts.Along (Host.step srv E) (Timely E)
      (Host.fresh shards router hasher aof replicas srv.cfg.requirepass.isNone : Host σ) acts)
    (htime' : Lts.Along (Host.step srv E') (Timely E')
      (Host.fresh shards' router' hasher' aof replicas srv.cfg.requirepass.isNone : Host σ) acts')
    {r : Host σ}
    (hrun : Lts.run (Host.step srv E)
      (Host.fresh shards router hasher aof replicas srv.cfg.requirepass.isNone) acts = some r) :
    ∃ r' : Host σ, Lts.run (Host.step srv E')
        (Host.fresh shards' router' hasher' aof replicas srv.cfg.requirepass.isNone) acts' =
          some r' ∧
      r.threads = r'.threads ∧
      r.node.aof = r'.node.aof ∧ r.node.replicas = r'.node.replicas ∧
      r.node.sys.world.store.raw.at (E.clock r.node.sys.tick) =
        r'.node.sys.world.store.raw.at (E.clock r.node.sys.tick) := by
  have hstart :
      Alike E (Host.fresh shards router hasher aof replicas srv.cfg.requirepass.isNone : Host σ)
      (Host.fresh shards' router' hasher' aof replicas srv.cfg.requirepass.isNone) := by
    refine ⟨⟨new_good .., new_good .., rfl, ?_⟩, rfl, rfl, rfl, fun _ => trivial⟩
    simp only [Host.fresh, new_raw]
  obtain ⟨r', hrun', hr⟩ := run_alike hE hmono acts hsame hkeys htime htime' hstart hrun
  exact ⟨r', hrun', hr.threads, hr.aof, hr.replicas, hr.sys.live⟩

end

/-- A key that lives for two calls, and a look at it after that. -/
def brief : List Act :=
  .take 1 (.cmd (lit "SET") [lit "k", lit "v", lit "PX", lit "2"]) :: List.replicate 6 (.go 1)

def look : List Act := .take 2 (.cmd (lit "GET") [lit "k"]) :: List.replicate 2 (.go 2)

/-- One shard without a reaper, and four shards whose reaper has passed. -/
theorem layout_invisible_reaped :
    ∃ r r' : Host Int,
      Lts.run (Host.step openServer Env.plain)
        (Host.fresh 1 (fun _ => 0) (fun _ _ _ => 0) (some []) [] true)
        (brief ++ look) = some r ∧
      Lts.run (Host.step openServer Env.plain)
        (Host.fresh 4 (fun k => k.length.toUInt64) (fun _ _ _ => 1) (some []) [] true)
        (brief ++ (List.range 4).map (.reap · 2) ++ look) = some r' ∧ r.threads = r'.threads := by
  have hrun : (Lts.run (Host.step openServer Env.plain)
      (Host.fresh 1 (fun _ => 0) (fun _ _ _ => 0) (some []) [] true : Host Int)
        (brief ++ look)).isSome = true := by
    decide +kernel
  obtain ⟨r, hr⟩ := Option.isSome_iff_exists.1 hrun
  have hE : ∀ i, Like (Env.plain i) (Env.plain i) := fun _ => ⟨rfl, rfl, rfl, rfl⟩
  obtain ⟨r', hr', hthreads, -⟩ := layout_invisible openServer hE (fun _ _ h => h) 1 4 (fun _ => 0)
    (fun k => k.length.toUInt64) (fun _ _ _ => 0) (fun _ _ _ => 1) (some []) [] (brief ++ look)
    (brief ++ (List.range 4).map (.reap · 2) ++ look) rfl (by decide +kernel) (by decide +kernel)
      (by decide +kernel) hr
  exact ⟨r, r', hr, hr', hthreads⟩

end Inmem.L5
