import Inmem.L4App.Writes

/-!
# A connection as a sequence of commands

`Loop.run_fold`: a connection is a fold of its commands over what the parse loop
extracts from the chunks (`received`), whatever is done for a command; commands after
the connection has closed have no effect.

`command_cases`, `item_cases`: a command is either turned away, and then neither the
store nor the append-only file changes, or it is served, and logged if it was a
write.
-/
namespace Inmem.L4

open Inmem.Core Inmem.L1 Inmem.L1.Resp Inmem.L3

/-- What the parse loop extracts from the input. -/
inductive Item
  | cmd (name : Bytes) (args : List Bytes)
  | bad (e : ProtocolError)

/-- The items of a buffer, and the bytes left (`none` after a protocol error). -/
def parseAll : Nat → Bytes → List Item × Option Bytes
  | 0, buf => ([], some buf)
  | f + 1, buf =>
    match parseCommandRanges buf with
    | .error e => ([.bad e], none)
    | .ok none => ([], some buf)
    | .ok (some (ranges, consumed)) =>
      let q := parseAll f (buf.drop consumed)
      match ranges.map (slice buf) with
      | [] => q
      | name :: args => (.cmd name args :: q.1, q.2)

/-- Everything a client sends, as the parse loop sees it. -/
def received : List Bytes → Bytes → List Item
  | [], _ => []
  | chunk :: chunks, inbuf =>
    let r := parseAll (inbuf ++ chunk).length (inbuf ++ chunk)
    match r.2 with
    | none => r.1
    | some rest => r.1 ++ received chunks rest

section
variable {σ : Type} [Score σ]

namespace Loop

variable (command : Conn σ → Bytes → List Bytes → Conn σ)

/-- The effect of one item; none once the connection is no longer open. -/
def item (c : Conn σ) : Item → Conn σ
  | .cmd name args => if c.status = .open then command c name args else c
  | .bad e =>
    if c.status = .open then
      { c with out := c.out ++ writeError (lit "ERR Protocol error: " ++ e.text),
               status := .closed }
    else c

variable {command}

theorem item_open {c : Conn σ} (h : c.status = .open) (name : Bytes) (args : List Bytes) :
    item command c (.cmd name args) = command c name args := if_pos h

theorem item_done {c : Conn σ} (h : c.status ≠ .open) (i : Item) : item command c i = c := by
  cases i <;> exact if_neg h

theorem fold_done (items : List Item) {c : Conn σ} (h : c.status ≠ .open) :
    items.foldl (item command) c = c := by
  induction items with
  | nil => rfl
  | cons i items ih => rw [List.foldl_cons, item_done h, ih]

theorem drain_fold (command : Conn σ → Bytes → List Bytes → Conn σ) (f : Nat) :
    ∀ (buf : Bytes) (c : Conn σ), c.status = .open →
    (drain command f buf c).1 = (parseAll f buf).1.foldl (item command) c ∧
      ((drain command f buf c).1.status = .open →
        (parseAll f buf).2 = some (drain command f buf c).2) := by
  induction f with
  | zero => intro buf c _; exact ⟨rfl, fun _ => rfl⟩
  | succ f ih =>
    intro buf c hc
    rcases hp : parseCommandRanges buf with e | _ | ⟨ranges, consumed⟩
    · simp only [drain, parseAll, hp]
      exact ⟨(if_pos hc).symm, fun h => by cases h⟩
    · simp only [drain, parseAll, hp]
      exact ⟨rfl, fun _ => trivial⟩
    · rcases hargs : ranges.map (slice buf) with _ | ⟨name, args⟩
      · simp only [drain, parseAll, hp, hargs]
        exact ih _ c hc
      · simp only [drain, parseAll, hp, hargs]
        rw [List.foldl_cons, item_open hc]
        by_cases hs : (command c name args).status = .open
        · rw [if_pos hs]
          exact ih _ _ hs
        · rw [if_neg hs]
          exact ⟨(fold_done _ hs).symm, fun h => absurd h hs⟩

/-- A connection is the fold of its commands. -/
theorem run_fold (chunks : List Bytes) : ∀ (inbuf : Bytes) (c : Conn σ), c.status = .open →
    run command chunks inbuf c = (received chunks inbuf).foldl (item command) c := by
  induction chunks with
  | nil => intro inbuf c _; rfl
  | cons chunk chunks ih =>
    intro inbuf c hc
    obtain ⟨h1, h2⟩ := drain_fold command (inbuf ++ chunk).length (inbuf ++ chunk) c hc
    unfold run received
    dsimp only
    by_cases hs : (drain command (inbuf ++ chunk).length (inbuf ++ chunk) c).1.status = .open
    · rw [if_pos hs, h2 hs, List.foldl_append, ← h1]
      exact ih _ _ hs
    · rw [if_neg hs]
      split
      · exact h1
      · rw [List.foldl_append, ← h1, fold_done _ hs]

end Loop

/-- The effect of one item on a connection of `conn.rs`. -/
abbrev Conn.item (srv : Server) (E : Surroundings) : Conn σ → Item → Conn σ :=
  Loop.item (Conn.command srv E)

variable {srv : Server} {E : Surroundings}

/-! ## One command -/

/-- The command was turned away (or the connection is no longer open). -/
structure Skipped (n n' : Node σ) : Prop where
  world : n'.sys.world = n.sys.world
  tick : n.sys.tick ≤ n'.sys.tick
  aof : n'.aof = n.aof

/-- The command was served. -/
structure Done (srv : Server) (E : Surroundings) (st : ConnState) (name : Bytes) (args : List Bytes)
    (n n' : Node σ) : Prop where
  sys : n'.sys = (n.sys.exec E (serveCmd srv.cfg st name args)).2
  aof : n'.aof =
    if (n.sys.exec E (serveCmd srv.cfg st name args)).1.write
      then n.aof.map (· ++ encodeArgs (name :: args)) else n.aof

@[simp] theorem Node.append_sys (n : Node σ) (argv : List Bytes) : (n.append argv).sys = n.sys :=
  rfl

@[simp] theorem Node.propagate_sys (n : Node σ) (bytes : Bytes) : (n.propagate bytes).sys = n.sys :=
  rfl

theorem Node.append_none {n : Node σ} (h : n.aof = none) (argv : List Bytes) :
    n.append argv = n := by
  cases n; simp_all [Node.append]

theorem Node.propagate_nil {n : Node σ} (h : n.replicas = []) (bytes : Bytes) :
    n.propagate bytes = n := by
  cases n; simp_all [Node.propagate]

/-- The durability step without I/O errors. -/
theorem Node.logWrite_eq (hio : ∀ i, (E i).ioError = none) (n : Node σ) (argv : List Bytes) :
    n.logWrite E argv = (none, (n.append argv).propagate (encodeArgs argv)) := by
  unfold Node.logWrite
  rw [hio]
  cases h : n.aof with
  | none => rw [Node.append_none h]
  | some log => rfl

/-- A command is turned away or performed, the latter unless a replica rejects it. -/
theorem command_cases (srv : Server) (E : Surroundings) (c : Conn σ) (name : Bytes)
    (args : List Bytes) :
    Skipped c.node (c.command srv E name args).node ∨
      (srv.cfg.replicaof.isSome && isWriteCommand (upperName name)) = false ∧
        c.command srv E name args = c.perform srv E name args := by
  unfold Conn.command
  split
  · split
    · exact .inl ⟨rfl, Nat.le_succ _, rfl⟩
    · exact .inl ⟨rfl, le_rfl, rfl⟩
  · split
    · exact .inl ⟨rfl, le_rfl, rfl⟩
    · split
      · exact .inl ⟨rfl, le_rfl, rfl⟩
      · rename_i h; exact .inr ⟨Bool.not_eq_true _ ▸ h, rfl⟩

/-- Without I/O errors, a command is turned away or served, and logged if it was a write. -/
theorem item_cases (srv : Server) (hio : ∀ i, (E i).ioError = none) (c : Conn σ) (name : Bytes)
    (args : List Bytes) :
    Skipped c.node (c.item srv E (.cmd name args)).node ∨
      Done srv E c.st name args c.node (c.item srv E (.cmd name args)).node := by
  simp only [Conn.item, Loop.item]
  split
  · rcases command_cases srv E c name args with h | ⟨-, h⟩
    · exact .inl h
    · right
      rw [h]
      unfold Conn.perform
      dsimp only
      by_cases hw : (c.node.exec E (serveCmd srv.cfg c.st name args)).1.write = true
      · rw [if_pos hw, Node.logWrite_eq hio]
        exact ⟨rfl, (if_pos hw).symm⟩
      · rw [if_neg hw]
        exact ⟨rfl, (if_neg hw).symm⟩
  · exact .inl ⟨rfl, le_rfl, rfl⟩

end

end Inmem.L4
