import Inmem.L4App.AuthGate

/-!
# The io_uring runtime

`crates/server/src/runtime_uring.rs` is a second runtime. Its connection loop is that of
`conn.rs` written again, over another kind of socket: it parses, serves and logs with
the same functions, but it turns `SYNC` and `PSYNC` away instead of serving a replica.

`Loop` is the loop of both, with what is done for a command as a parameter.

* `uring_agrees`: both runtimes leave the same connection, node and bytes sent, unless a
  `SYNC` is reached; up to there they agree, and the client of this one is refused.
* `uring_noninterference`: so here no command gets round the password.
-/
namespace Inmem.L4

open Inmem.Core Inmem.L1 Inmem.L1.Resp Inmem.L3

section
variable {σ : Type} [Score σ]

/-- One command, mirrors crates/server/src/runtime_uring.rs:111-166; past the gates it is
performed as in `conn.rs`. -/
def Uring.command (srv : Server) (E : Surroundings) (c : Conn σ) (name : Bytes)
    (args : List Bytes) : Conn σ :=
  if isSync name then
    { c with out := c.out ++
             writeError (lit "ERR replication SYNC is served by the portable listener"), status :=
               .closed }
  else if !c.st.authenticated && !isPreauthOk (upperName name) then
    { c with out := c.out ++ writeError (lit "NOAUTH Authentication required.") }
  else if srv.cfg.replicaof.isSome && isWriteCommand (upperName name) then
    { c with out := c.out ++
             writeError (lit "READONLY You can't write against a read only replica.") }
  else c.perform srv E name args

/-- mirrors crates/server/src/runtime_uring.rs:83-183 -/
def Uring.handleConn (srv : Server) (E : Surroundings) (chunks : List Bytes) (c : Conn σ) :
    Conn σ :=
  Loop.run (Uring.command srv E) chunks [] c

variable {srv : Server} {E : Surroundings}

/-! ## Both runtimes -/

/-- The item is a `SYNC` or `PSYNC`. -/
def syncItem : Item → Bool
  | .cmd name _ => isSync name
  | .bad _ => false

/-- Up to a `SYNC` they do the same. -/
theorem uring_item {i : Item} (h : syncItem i = false) (c : Conn σ) :
    Loop.item (Uring.command srv E) c i = c.item srv E i := by
  cases i with
  | bad e => rfl
  | cmd name args =>
    have hsync : ¬ isSync name = true := by simpa [syncItem] using h
    have hcmd : Uring.command srv E c name args = c.command srv E name args := by
      simp only [Uring.command, Conn.command, if_neg hsync]
    simp only [Loop.item, hcmd]

theorem uring_fold {items : List Item} (h : ∀ i ∈ items, syncItem i = false) : ∀ c : Conn σ,
    items.foldl (Loop.item (Uring.command srv E)) c = items.foldl (Conn.item srv E) c := by
  induction items with
  | nil => exact fun _ => rfl
  | cons i items ih =>
    intro c
    rw [List.foldl_cons, List.foldl_cons, uring_item (h i List.mem_cons_self),
      ih fun j hj => h j (List.mem_cons_of_mem _ hj)]

/-- A `SYNC` is refused, and the connection closed. -/
def refused (c : Conn σ) : Conn σ :=
  { c with out := c.out ++
           writeError (lit "ERR replication SYNC is served by the portable listener"), status :=
             .closed }

/-- What is left of a list of items after its first `SYNC`. -/
theorem first_sync (items : List Item) :
    (∀ i ∈ items, syncItem i = false) ∨
    ∃ pre name args post, items = pre ++ .cmd name args :: post ∧ isSync name = true ∧ ∀ i ∈ pre,
      syncItem i = false := by
  cases h : items.find? syncItem with
  | none =>
    left
    simpa using h
  | some i =>
    obtain ⟨hi, pre, post, hsplit, hpre⟩ := List.find?_eq_some_iff_append.1 h
    cases i with
    | bad e => cases hi
    | cmd name args => exact .inr ⟨pre, name, args, post, hsplit, hi, by simpa using hpre⟩

/-- **Two runtimes.** On any input, in any chunks, the io_uring runtime leaves what the
portable one leaves: the connection's state and status, the bytes sent, the store, the
log and the feeds of the replicas. Only where a `SYNC` is reached do they part, from one
and the same state: here it is refused. -/
theorem uring_agrees (srv : Server) (E : Surroundings) (id : Nat) (node : Node σ)
    (chunks : List Bytes) :
    Uring.handleConn srv E chunks (Conn.accept srv id node) =
      (Conn.accept srv id node).run srv E chunks [] ∨
      ∃ pre name args post, received chunks [] = pre ++ .cmd name args :: post ∧
      isSync name = true ∧
        (∀ i ∈ pre, syncItem i = false) ∧
        (pre.foldl (Conn.item srv E) (Conn.accept srv id node)).status = .open ∧
        Uring.handleConn srv E chunks (Conn.accept srv id node) =
          refused (pre.foldl (Conn.item srv E) (Conn.accept srv id node)) ∧
        (Conn.accept srv id node).run srv E chunks [] =
          (pre.foldl (Conn.item srv E) (Conn.accept srv id node)).command srv E name args := by
  rw [Uring.handleConn, Loop.run_fold _ _ _ rfl, Conn.run, Loop.run_fold _ _ _ rfl]
  rcases first_sync (received chunks []) with hnone | ⟨pre, name, args, post, hsplit, hsync, hpre⟩
  · exact .inl (uring_fold hnone _)
  rw [hsplit, List.foldl_append, List.foldl_append, uring_fold hpre]
  set mid := pre.foldl (Conn.item srv E) (Conn.accept srv id node)
  by_cases hopen : mid.status = .open
  · -- the `SYNC` is reached: each runtime closes the connection in its own way
    refine .inr ⟨pre, name, args, post, rfl, hsync, hpre, hopen, ?_, ?_⟩
    · have hcmd : Loop.item (Uring.command srv E) mid (.cmd name args) = refused mid := by
        rw [Loop.item_open hopen, Uring.command, if_pos hsync, refused]
      rw [List.foldl_cons, hcmd]
      exact Loop.fold_done _ (show Status.closed ≠ Status.open by decide)
    · have hover : (mid.command srv E name args).status ≠ .open := by
        rw [Conn.command, if_pos hsync]
        split <;> simp
      rw [List.foldl_cons, Loop.item_open hopen]
      exact Loop.fold_done _ hover
  · left
    rw [Loop.fold_done _ hopen, Loop.fold_done _ hopen]

/-! ## The password -/

/-- An unauthenticated client: the node stays out of it, whatever the command is. -/
theorem uring_gated {pw : Bytes} (hpw : srv.cfg.requirepass = some pw) (items : List Item) :
    ∀ c d : Conn σ, Alike c d → c.st.authenticated = false → (∀ i ∈ items, rightAuth pw i = false) →
      Alike (items.foldl (Loop.item (Uring.command srv E)) c)
        (items.foldl (Loop.item (Uring.command srv E)) d) ∧
        (items.foldl (Loop.item (Uring.command srv E)) c).node = c.node := by
  induction items with
  | nil => exact fun c d h _ _ => ⟨h, rfl⟩
  | cons i items ih =>
    intro c d h hst hno
    by_cases hopen : c.status = .open
    · have hopen' : d.status = .open := h.status ▸ hopen
      have hst' : d.st.authenticated = false := h.st ▸ hst
      rw [List.foldl_cons, List.foldl_cons]
      cases i with
      | bad e =>
        have hdone : ∀ x : Conn σ, x.status = .open → Loop.item (Uring.command srv E) x (.bad e) =
            { x with out := x.out ++ writeError (lit "ERR Protocol error: " ++ e.text),
                     status := .closed } :=
          fun x hx => if_pos hx
        rw [hdone c hopen, hdone d hopen', Loop.fold_done _ (by simp), Loop.fold_done _ (by simp)]
        exact ⟨h.closed _, rfl⟩
      | cmd name args =>
        by_cases hsync : isSync name = true
        · have hrefuse : ∀ x : Conn σ, x.status = .open →
              Loop.item (Uring.command srv E) x (.cmd name args) = refused x := fun x hx => by
            rw [Loop.item_open hx, Uring.command, if_pos hsync, refused]
          rw [hrefuse c hopen, hrefuse d hopen', Loop.fold_done _ (by simp [refused]),
            Loop.fold_done _ (by simp [refused])]
          exact ⟨h.closed _, rfl⟩
        · have hsync : isSync name = false := by simpa using hsync
          have hitem : syncItem (.cmd name args) = false := hsync
          have hgate : ∀ x : Conn σ, x.status = .open → x.st.authenticated = false →
              Loop.item (Uring.command srv E) x (.cmd name args) =
                { x with st := (gateServed srv.cfg x.st name args).st
                         out := x.out ++ (gateServed srv.cfg x.st name args).bytes
                         status := if (gateServed srv.cfg x.st name args).quit then .closed
                           else .open } := by
            intro x hx hax
            rw [uring_item hitem, Conn.item, Loop.item_open hx, command_gated hax hsync hx]
          rw [hgate c hopen hst, hgate d hopen' hst']
          exact ih _ _ ⟨by simp only [h.st], by simp only [h.st, h.out], by simp only [h.st]⟩
            (gateServed_auth hpw hst (hno _ List.mem_cons_self)) fun i hi =>
              hno i (List.mem_cons_of_mem _ hi)
    · rw [Loop.fold_done _ hopen, Loop.fold_done _ (h.status ▸ hopen)]
      exact ⟨h, rfl⟩

/-- **The password on io_uring.** With a password set and no `AUTH` that carries it, a
client of this runtime gets the same bytes whatever the node holds, its connection ends in
the same state, and the node is left as it is: store, log and feeds. There is no exception
for `SYNC` here. -/
theorem uring_noninterference {pw : Bytes} (hpw : srv.cfg.requirepass = some pw) (E : Surroundings)
    (chunks : List Bytes) (hno : ∀ i ∈ received chunks [], rightAuth pw i = false) (id : Nat)
    (n m : Node σ) :
    Alike (Uring.handleConn srv E chunks (Conn.accept srv id n))
      (Uring.handleConn srv E chunks (Conn.accept srv id m)) ∧
      (Uring.handleConn srv E chunks (Conn.accept srv id n)).node = n := by
  have hfold :=
    uring_gated (E := E) hpw (received chunks []) (Conn.accept srv id n) (Conn.accept srv id m)
      ⟨rfl, rfl, rfl⟩
    (by simp [Conn.accept, ConnState.new, hpw]) hno
  rw [Uring.handleConn, Uring.handleConn, Loop.run_fold _ _ _ rfl, Loop.run_fold _ _ _ rfl, hfold.2]
  exact ⟨hfold.1, rfl⟩

end

/-- A wrong password, a read and a `SYNC`. -/
theorem uring_noninterference_sync :
    Alike (Uring.handleConn lockedServer (fun _ => Env.plain 0)
      [lit "AUTH guess\r\nGET k\r\nSYNC\r\n"]
        (Conn.accept lockedServer 1 (freshNode : Node Int)))
      (Uring.handleConn lockedServer (fun _ => Env.plain 0) [lit "AUTH guess\r\nGET k\r\nSYNC\r\n"]
        (Conn.accept lockedServer 1 (oneKeyNode (lit "k") (lit "v") : Node Int))) :=
  (uring_noninterference rfl (fun _ => Env.plain 0) [lit "AUTH guess\r\nGET k\r\nSYNC\r\n"]
    (by decide) 1 freshNode
    (oneKeyNode (lit "k") (lit "v"))).1

end Inmem.L4
