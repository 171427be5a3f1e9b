import Inmem.L3Store.Dump
import Inmem.L4App.Session

/-!
# What an unauthenticated connection can learn

`serveCmd_preauth`: the four commands that pass the gate make no call, so
neither their reply nor the store depends on the other.

`auth_noninterference`: without the right password, what a client gets back is
the same for any two stores and the store is untouched, exactly when no `SYNC`
or `PSYNC` is reached: those are served before the gate.
-/
namespace Inmem.L4

open Inmem.Core Inmem.L1 Inmem.L1.Resp Inmem.L3

section
variable {σ : Type} [Score σ] {srv : Server} {E : Surroundings}

/-! ## The commands that pass the gate -/

/-- An `AUTH` with this password. -/
def rightAuth (pw : Bytes) : Item → Bool
  | .cmd name [p] => upperName name == lit "AUTH" && p == pw
  | .cmd name [_, p] => upperName name == lit "AUTH" && p == pw
  | _ => false

theorem auth_wrong {cfg : Config} {pw : Bytes} (hpw : cfg.requirepass = some pw) (st : ConnState)
    (name : Bytes) (args : List Bytes) (hname : upperName name = lit "AUTH")
    (h : rightAuth pw (.cmd name args) = false) : (auth cfg st args).2 = st := by
  unfold auth
  match args with
  | [p] =>
    have : p ≠ pw := by simpa [rightAuth, hname] using h
    simp [hpw, this]
  | [u, p] =>
    have : p ≠ pw := by simpa [rightAuth, hname] using h
    simp [hpw, this]
  | [] => rfl
  | _ :: _ :: _ :: _ => rfl

theorem hello_auth (st : ConnState) (args : List Bytes) :
    (hello st args).2.authenticated = st.authenticated := by
  unfold hello
  split
  · rfl
  · split <;> rfl

/-- What a command that passes the gate gives, the store left out. -/
def preauthServed (cfg : Config) (st : ConnState) (name : Bytes) (args : List Bytes) : Served :=
  let of (o : Outcome) (st : ConnState) : Served :=
    { bytes := encodeReply st.resp3 o.reply, write := o.persist, quit := o.quit, st }
  if upperName name = lit "AUTH" then of (auth cfg st args).1 (auth cfg st args).2
  else if upperName name = lit "HELLO" then of (hello st args).1 (hello st args).2
  else if upperName name = lit "QUIT" then of { reply := .ok, quit := true, persist := false } st
  else
    match args with
    | [] => { bytes := writeSimple (lit "PONG"), write := false, quit := false, st }
    | [m] => of (.r (.bulk (some m))) st
    | _ => of (wrongArgs "ping") st

theorem isPreauthOk_iff {n : Bytes} :
    isPreauthOk n = true ↔ n = lit "AUTH" ∨ n = lit "HELLO" ∨ n = lit "QUIT" ∨ n = lit "PING" := by
  simp [isPreauthOk, or_assoc]

omit [Score σ] in
theorem serveFast_other {st : ConnState} {name : Bytes} {args : List Bytes}
    (h : upperName name = lit "AUTH" ∨ upperName name = lit "HELLO" ∨ upperName name = lit "QUIT") :
    (serveFast st name args : Option (Cmd σ (Bytes × Bool))) = none := by
  have hne : ∀ t ∈ [lit "PING", lit "GET", lit "INCR", lit "DECR", lit "SET"],
      upperName name ≠ t := by
    rcases h with h | h | h <;> rw [h] <;> decide
  simp only [List.mem_cons, List.not_mem_nil, or_false, forall_eq_or_imp, forall_eq] at hne
  obtain ⟨h1, h2, h3, h4, h5⟩ := hne
  unfold serveFast
  split <;> simp [h1, h2, h3, h4, h5]

/-- The commands that pass the gate make no call. -/
theorem serveCmd_preauth (cfg : Config) (st : ConnState) (name : Bytes) (args : List Bytes)
    (h : isPreauthOk (upperName name) = true) :
    (serveCmd cfg st name args : Cmd σ Served) = .pure (preauthServed cfg st name args) := by
  rcases isPreauthOk_iff.1 h with h | h | h | h
  · have hn : CmdName.ofName (lit "AUTH") = some .auth := by decide
    simp only [serveCmd, serveFast_other (.inl h), dispatch, h, hn, preauthServed, if_true]
    rfl
  · have hn : CmdName.ofName (lit "HELLO") = some .hello := by decide
    have h1 : lit "HELLO" ≠ lit "AUTH" := by decide
    simp only [serveCmd, serveFast_other (.inr (.inl h)), dispatch, h, hn, preauthServed, h1,
      if_false, if_true]
    rfl
  · have hn : CmdName.ofName (lit "QUIT") = some .quit := by decide
    have h1 : lit "QUIT" ≠ lit "AUTH" := by decide
    have h2 : lit "QUIT" ≠ lit "HELLO" := by decide
    simp only [serveCmd, serveFast_other (.inr (.inr h)), dispatch, h, hn, preauthServed, h1, h2,
      if_false, if_true]
    rfl
  · have hn : CmdName.ofName (lit "PING") = some .ping := by decide
    have h1 : lit "PING" ≠ lit "AUTH" := by decide
    have h2 : lit "PING" ≠ lit "HELLO" := by decide
    have h3 : lit "PING" ≠ lit "QUIT" := by decide
    have h4 : lit "PING" ≠ lit "GET" ∧ lit "PING" ≠ lit "INCR" ∧ lit "PING" ≠ lit "DECR" ∧
        lit "PING" ≠ lit "SET" := by
      decide
    match args with
    | [] => simp [serveCmd, serveFast, h, preauthServed, h1, h2, h3]
    | [m] =>
      simp only [serveCmd, serveFast, h, h4, if_false, dispatch, hn, preauthServed, h1, h2, h3]
      rfl
    | [a, b] =>
      simp only [serveCmd, serveFast, h, h4, if_false, dispatch, hn, preauthServed, h1, h2, h3]
      rfl
    | _ :: _ :: _ :: _ =>
      simp only [serveCmd, serveFast, h, dispatch, hn, preauthServed, h1, h2, h3, if_false]
      rfl

/-- What an unauthenticated connection does with a command that is no `SYNC`. -/
def gateServed (cfg : Config) (st : ConnState) (name : Bytes) (args : List Bytes) : Served :=
  if isPreauthOk (upperName name) then preauthServed cfg st name args
  else { bytes := writeError (lit "NOAUTH Authentication required."), write := false, quit := false,
         st }

theorem gateServed_quiet (cfg : Config) (st : ConnState) (name : Bytes) (args : List Bytes) :
    (gateServed cfg st name args).write = false ∧
      (gateServed cfg st name args).quit = decide (upperName name = lit "QUIT") := by
  have hq : ∀ t ∈ [lit "AUTH", lit "HELLO", lit "PING"], t ≠ lit "QUIT" := by decide
  simp only [List.mem_cons, List.not_mem_nil, or_false, forall_eq_or_imp, forall_eq] at hq
  unfold gateServed
  by_cases hp : isPreauthOk (upperName name) = true
  · rw [if_pos hp]
    unfold preauthServed
    dsimp only
    by_cases h1 : upperName name = lit "AUTH"
    · rw [if_pos h1, h1]; simpa [hq] using auth_quiet cfg st args
    by_cases h2 : upperName name = lit "HELLO"
    · rw [if_neg h1, if_pos h2, h2]; simpa [hq] using hello_quiet st args
    by_cases h3 : upperName name = lit "QUIT"
    · rw [if_neg h1, if_neg h2, if_pos h3]; simp [h3]
    · rw [if_neg h1, if_neg h2, if_neg h3]
      split <;> simp [h3, Outcome.r, Outcome.maybe, wrongArgs]
  · have h3 : upperName name ≠ lit "QUIT" := fun h => hp (isPreauthOk_iff.2 (.inr (.inr (.inl h))))
    rw [if_neg hp]
    simp [h3]

theorem gateServed_auth {cfg : Config} {pw : Bytes} (hpw : cfg.requirepass = some pw)
    {st : ConnState} {name : Bytes} {args : List Bytes} (hst : st.authenticated = false)
    (h : rightAuth pw (.cmd name args) = false) :
    (gateServed cfg st name args).st.authenticated = false := by
  unfold gateServed
  split
  · unfold preauthServed
    dsimp only
    by_cases h1 : upperName name = lit "AUTH"
    · rw [if_pos h1, auth_wrong hpw st name args h1 h]; exact hst
    by_cases h2 : upperName name = lit "HELLO"
    · rw [if_neg h1, if_pos h2, ← hst]; exact hello_auth st args
    by_cases h3 : upperName name = lit "QUIT"
    · rw [if_neg h1, if_neg h2, if_pos h3]; exact hst
    · rw [if_neg h1, if_neg h2, if_neg h3]
      split <;> exact hst
  · exact hst

theorem preauth_not_write {n : Bytes} (h : isPreauthOk n = true) : isWriteCommand n = false := by
  rcases isPreauthOk_iff.1 h with rfl | rfl | rfl | rfl <;> decide

/-- The gate: an unauthenticated command never reaches the node, `SYNC` apart. -/
theorem command_gated {c : Conn σ} {name : Bytes} {args : List Bytes}
    (hst : c.st.authenticated = false) (hsync : isSync name = false) (hopen : c.status = .open) :
    c.command srv E name args =
      { c with st := (gateServed srv.cfg c.st name args).st
               out := c.out ++ (gateServed srv.cfg c.st name args).bytes
               status := if (gateServed srv.cfg c.st name args).quit then .closed else .open } := by
  unfold Conn.command
  rw [if_neg (by simp [hsync]), hst]
  by_cases hp : isPreauthOk (upperName name) = true
  · have hw : (preauthServed srv.cfg c.st name args).write = false := by
      simpa [gateServed, hp] using (gateServed_quiet srv.cfg c.st name args).1
    simp only [gateServed, hp, preauth_not_write hp, Bool.not_true, Bool.and_false,
      Bool.false_eq_true, if_false, if_true, Conn.perform, Node.exec, Sys.exec,
      serveCmd_preauth srv.cfg c.st name args hp, Prog.run_pure, hw, Option.isSome_none,
      Bool.or_false, List.append_nil]
  · simp [gateServed, hp, ← hopen]

/-! ## Two connections side by side -/

/-- A `SYNC` is reached: before a `QUIT` and before a protocol error. -/
def syncReached : List Item → Bool
  | [] => false
  | .bad _ :: _ => false
  | .cmd name _ :: items =>
    isSync name || (!decide (upperName name = lit "QUIT") && syncReached items)

/-- Two open, unauthenticated connections that have shown their clients the same. -/
structure Alike (c d : Conn σ) : Prop where
  st : c.st = d.st
  out : c.out = d.out
  status : c.status = d.status

variable {pw : Bytes}

theorem Alike.closed {c d : Conn σ} (h : Alike c d) (out : Bytes) :
    Alike { c with out := c.out ++ out, status := .closed }
      { d with out := d.out ++ out, status := .closed } :=
  ⟨h.st, by rw [h.out], rfl⟩

/-- Two alike connections fed the same items: without a `SYNC` they stay alike and
the node stays as it was; with one, each client is sent the dump of its store. -/
theorem fold_gated (hpw : srv.cfg.requirepass = some pw) (hraw : srv.raw = true)
    (items : List Item) :
    ∀ c d : Conn σ, Alike c d → c.status = .open → c.st.authenticated = false →
      (∀ i ∈ items, rightAuth pw i = false) →
    (syncReached items = false →
      Alike (items.foldl (Conn.item srv E) c) (items.foldl (Conn.item srv E) d) ∧
        (items.foldl (Conn.item srv E) c).node = c.node) ∧
    (syncReached items = true → ∃ shown,
      (items.foldl (Conn.item srv E) c).out =
        shown ++ c.node.sys.world.store.dumpCommands (E c.node.sys.tick) ∧
      (items.foldl (Conn.item srv E) d).out =
        shown ++ d.node.sys.world.store.dumpCommands (E d.node.sys.tick)) := by
  induction items with
  | nil => intro c d h _ _ _; exact ⟨fun _ => ⟨h, rfl⟩, fun h => by cases h⟩
  | cons i items ih =>
    intro c d h hopen hst hno
    have hopen' : d.status = .open := h.status ▸ hopen
    have hst' : d.st.authenticated = false := h.st ▸ hst
    simp only [List.foldl_cons]
    cases i with
    | bad e =>
      simp only [Conn.item, Loop.item, hopen, hopen', if_true]
      rw [Loop.fold_done _ (by simp), Loop.fold_done _ (by simp)]
      exact ⟨fun _ => ⟨h.closed _, rfl⟩, fun h => by cases h⟩
    | cmd name args =>
      simp only [Conn.item, Loop.item, hopen, hopen', if_true, syncReached]
      by_cases hsync : isSync name = true
      · simp only [Conn.command, hsync, hraw, if_true]
        rw [Loop.fold_done _ (by simp), Loop.fold_done _ (by simp)]
        exact ⟨fun h => by simp at h, fun _ => ⟨c.out, rfl, by rw [h.out]⟩⟩
      have hsync : isSync name = false := by simpa using hsync
      rw [command_gated hst hsync hopen, command_gated hst' hsync hopen', (gateServed_quiet ..).2,
        (gateServed_quiet ..).2]
      by_cases hq : upperName name = lit "QUIT"
      · simp only [hq, hsync, decide_true, if_true, Bool.not_true, Bool.false_and, Bool.or_self]
        rw [Loop.fold_done _ (by simp), Loop.fold_done _ (by simp)]
        exact ⟨fun _ => ⟨⟨by rw [h.st], by rw [h.st, h.out], rfl⟩, rfl⟩, fun h => by cases h⟩
      · simp only [hq, hsync, decide_false, Bool.not_false, Bool.true_and, Bool.false_or]
        exact ih _ _ ⟨by simp only [h.st], by simp only [h.st, h.out], rfl⟩ rfl
          (gateServed_auth hpw hst (hno _ List.mem_cons_self)) fun i hi =>
            hno i (List.mem_cons_of_mem _ hi)

/-- A connection without a password. -/
def openServer : Server :=
  { cfg := { shards := 1, maxmemory := 0, appendonly := false, requirepass := none,
             replicaof := none, masterauth := none }
    raw := true }

/-- A node with one shard and nothing in it. -/
def freshNode : Node σ :=
  { sys := { world := { store := Store.new 1 0 (fun _ => 0) (fun _ _ _ => 0), snapshot := none },
             tick := 0 }
    aof := none, replicas := [] }

/-- The same node after another client has stored a string. -/
def oneKeyNode (k v : Bytes) : Node σ :=
  (freshNode.exec (fun _ => Env.plain 0) (onKey k (.set v {}))).2

theorem freshNode_dump (env : Env) : (freshNode : Node σ).sys.world.store.dumpCommands env = [] :=
  (Store.dumpCommands_eq_nil (new_good ..).routed env).2 (congrArg (View.at env.now) (new_raw ..))

theorem oneKeyNode_dump (k v : Bytes) (env : Env) :
    (oneKeyNode k v : Node σ).sys.world.store.dumpCommands env ≠ [] := by
  have hg : (freshNode : Node σ).sys.world.store.Good := new_good ..
  have hw : (oneKeyNode k v : Node σ).sys.world =
    (Call.exec (Env.plain 0) (.key k (.set v {})) (freshNode : Node σ).sys.world).2 := rfl
  rw [Ne, Store.dumpCommands_eq_nil (hw ▸ exec_good _ _ hg).routed, hw, exec_raw _ _ hg (by simp)]
  intro h
  have := congrFun h k
  simp [Call.spec, View.at, KeyOp.spec, SetOptions.allows, SetOptions.deadline, freshNode, new_raw,
    liveAt, Option.filter_some, expired] at this

/-- **Non-interference of an unauthenticated client.** With a password set and no
`AUTH` that carries it, on a plaintext connection: for any two nodes the client
is sent the same bytes and the store is left alone, if and only if no `SYNC` or
`PSYNC` is reached. -/
theorem auth_noninterference (hpw : srv.cfg.requirepass = some pw) (hraw : srv.raw = true)
    (chunks : List Bytes) (hno : ∀ i ∈ received chunks [], rightAuth pw i = false) :
    (∀ (id : Nat) (E : Surroundings) (n m : Node σ),
      ((Conn.accept srv id n).run srv E chunks []).out =
        ((Conn.accept srv id m).run srv E chunks []).out ∧
        ((Conn.accept srv id n).run srv E chunks []).node.sys.world.store = n.sys.world.store) ↔
      syncReached (received chunks []) = false := by
  have hfold : ∀ (id : Nat) (E : Surroundings) (n m : Node σ), _ := fun id E n m =>
    fold_gated (E := E) hpw hraw (received chunks []) (Conn.accept srv id n) (Conn.accept srv id m)
      ⟨rfl, rfl, rfl⟩ rfl (by simp [Conn.accept, ConnState.new, hpw]) hno
  have hrun : ∀ (id : Nat) (E : Surroundings) (n : Node σ),
      (Conn.accept srv id n).run srv E chunks [] =
      (received chunks []).foldl (Conn.item srv E) (Conn.accept srv id n) := fun id E n =>
    Loop.run_fold chunks [] (Conn.accept srv id n) rfl
  constructor
  · intro h
    by_contra hs
    obtain ⟨shown, h1, h2⟩ :=
      (hfold 0 (fun _ => Env.plain 0) freshNode (oneKeyNode [] [])).2 (by simpa using hs)
    have := (h 0 (fun _ => Env.plain 0) freshNode (oneKeyNode [] [])).1
    rw [hrun, hrun, h1, h2, List.append_cancel_left_eq] at this
    exact oneKeyNode_dump [] [] _ (this.symm.trans (freshNode_dump _))
  · intro hs id E n m
    obtain ⟨ha, hn⟩ := (hfold id E n m).1 hs
    rw [hrun, hrun, hn]
    exact ⟨ha.out, rfl⟩

end

/-- A server with the password `pw`. -/
def lockedServer : Server :=
  { cfg := { shards := 1, maxmemory := 0, appendonly := false, requirepass := some (lit "pw"),
             replicaof := none, masterauth := none }
    raw := true }

/-- A wrong password and a read. -/
def guesses : List Bytes := [lit "AUTH guess\r\nGE", lit "T k\r\n"]

/-- Without a `SYNC` they reveal nothing. -/
theorem auth_noninterference_get :
    ((Conn.accept lockedServer 1 (freshNode : Node Int)).run lockedServer
      (fun _ => Env.plain 0) guesses []).out =
        ((Conn.accept lockedServer 1 (oneKeyNode (lit "k") (lit "v") : Node Int)).run lockedServer
          (fun _ => Env.plain 0)
          guesses []).out ∧
      ((Conn.accept lockedServer 1 (freshNode : Node Int)).run lockedServer
        (fun _ => Env.plain 0) guesses
        []).node.sys.world.store = (freshNode : Node Int).sys.world.store :=
  (auth_noninterference rfl rfl guesses (by decide)).2 (by decide) 1
    (fun _ => Env.plain 0) freshNode _

/-- A client that never authenticates is sent the stored key. -/
theorem sync_leaks :
    ((Conn.accept lockedServer 1 (freshNode : Node Int)).run lockedServer (fun _ => Env.plain 0)
        [lit "SYNC\r\n"] []).out = [] ∧
      ((Conn.accept lockedServer 1 (oneKeyNode (lit "k") (lit "v") : Node Int)).run lockedServer
        (fun _ => Env.plain 0) [lit "SYNC\r\n"] []).out =
          lit "*3\r\n$3\r\nSET\r\n$1\r\nk\r\n$1\r\nv\r\n" := by
  decide +kernel

end Inmem.L4
