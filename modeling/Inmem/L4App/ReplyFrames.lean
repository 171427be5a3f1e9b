import Inmem.Core.Lts
import Inmem.L1Encoding.RespDecode
import Inmem.L4App.AuthGate
import Inmem.L4App.Classify
import Inmem.L4App.FastPath
import Inmem.L4App.Replies

/-!
# One frame per command

A client that pipelines commands matches replies to commands by counting frames. The
texts the server puts into simple strings and errors are its own, with one
exception: the answer to an unknown command quotes the command's name, byte for byte,
and a CR or LF in it ends the frame early.

* `serve_oneFrame`: a command whose name is a line is answered with one frame;
* `command_oneFrame_iff`: and only such a command, unless it is turned away before its
  name is looked at;
* `one_frame_per_command`: the same for pipelines.
-/
namespace Inmem.L4

open Inmem.Core Inmem.L1 Inmem.L1.Resp Inmem.L3

/-! ## Names -/

theorem line_of_upperName {name : Bytes} (hlen : (upperName name).length < 24)
    (hl : Line (upperName name)) : Line name := by
  rw [upperName_short hlen] at hl
  exact ⟨fun h => hl.1 ((mem_upper (by decide) _).2 h),
    fun h => hl.2 ((mem_upper (by decide) _).2 h)⟩

theorem line_of_ofName {name : Bytes} {c : CmdName} (h : CmdName.ofName (upperName name) = some c) :
    Line name := by
  have hall : ∀ c ∈ CmdName.all, c.text.length < 24 ∧ Line c.text := by decide +kernel
  obtain ⟨hlen, hl⟩ := hall c (List.mem_of_find?_eq_some h)
  rw [CmdName.text_of_ofName h] at hlen hl
  exact line_of_upperName hlen hl

theorem line_of_write {name : Bytes} (h : isWriteCommand (upperName name) = true) : Line name := by
  rw [isWriteCommand, List.contains_iff_mem] at h
  have hall : (upperName name).length < 24 ∧ Line (upperName name) := by
    refine (?_ : ∀ t ∈ _, t.length < 24 ∧ Line t) _ h
    decide +kernel
  exact line_of_upperName hall.1 hall.2

section
variable {σ : Type} [Score σ]

omit [Score σ] in
theorem line_of_fast {st : ConnState} {name : Bytes} {args : List Bytes} {p : Cmd σ (Bytes × Bool)}
    (h : serveFast st name args = some p) : Line name := by
  have key : ∀ {t : Bytes}, upperName name = t → t.length < 24 → Line t → Line name := by
    rintro t rfl hlen hl; exact line_of_upperName hlen hl
  match args with
  | [] =>
    simp only [serveFast] at h
    split at h
    · rename_i hn; exact key hn (by decide) (by decide)
    · cases h
  | [k] =>
    simp only [serveFast] at h
    split at h
    · rename_i hn; exact key hn (by decide) (by decide)
    split at h
    · rename_i hn; exact key hn (by decide) (by decide)
    split at h
    · rename_i hn; exact key hn (by decide) (by decide)
    · cases h
  | [k, v] =>
    simp only [serveFast] at h
    split at h
    · rename_i hn; exact key hn (by decide) (by decide)
    · cases h
  | _ :: _ :: _ :: _ => cases h

/-! ## One command -/

variable {E : Surroundings}

theorem storeErr_oneFrame (resp3 : Bool) (e : StoreErr) :
    OneFrame resp3 (writeError (if e = .wrongType then e.text else lit "ERR " ++ e.text)) :=
  error_oneFrame resp3 (by cases e <;> decide)

theorem fastIncr_oneFrame (resp3 : Bool) (k : Bytes) (delta : Int) (s : Sys σ) :
    OneFrame resp3 (s.exec E (fastIncr k delta)).1.1 := by
  simp only [Sys.exec, fastIncr, onKey, Prog.call_bind, Prog.pure_bind, Prog.run_call, Sys.call,
    Call.exec, Store.withShard, KeyOp.exec_incrBy]
  rcases hr : ((s.world.store.shard k).incrBy k delta (E s.tick).now).1 with e | n
  · exact storeErr_oneFrame resp3 e
  · exact writeInt_oneFrame resp3 (incrBy_inI64 hr)

theorem fastGet_oneFrame {st : ConnState} {name k : Bytes} (hn : upperName name = lit "GET")
    (s : Sys σ) (hs : Sized s.world.store) {p : Cmd σ (Bytes × Bool)}
    (hp : serveFast st name [k] = some p) : OneFrame st.resp3 (s.exec E p).1.1 := by
  simp only [serveFast, hn, if_true, Option.some.injEq] at hp
  subst hp
  simp only [Sys.exec, onKey, Prog.call_bind, Prog.pure_bind, Prog.run_call, Sys.call, Call.exec,
    Store.withShard, KeyOp.exec, KeyOp.execM, readStr_eq]
  generalize World.mk (s.world.store.setShards _ _) s.world.snapshot = w'
  rcases hg : ((s.world.store.shard k).get k (E s.tick).now).1 with e | _ | v
  · exact storeErr_oneFrame st.resp3 .wrongType
  · exact writeNull_oneFrame st.resp3
  · obtain ⟨d, hv⟩ := get_stored hg
    exact writeBulk_oneFrame st.resp3 ((hs _ (List.get_mem ..) k v d hv).trans (by decide))

theorem serveFast_oneFrame {st : ConnState} {name : Bytes} {args : List Bytes} (s : Sys σ)
    (hs : Sized s.world.store) {p : Cmd σ (Bytes × Bool)} (hp : serveFast st name args = some p) :
    OneFrame st.resp3 (s.exec E p).1.1 := by
  match args with
  | [] =>
    simp only [serveFast] at hp
    split at hp
    · cases hp; exact simple_oneFrame _ (by decide)
    · cases hp
  | [k] =>
    by_cases h1 : upperName name = lit "GET"
    · exact fastGet_oneFrame h1 s hs hp
    simp only [serveFast, if_neg h1] at hp
    split at hp
    · cases hp; exact fastIncr_oneFrame _ k 1 s
    · split at hp
      · cases hp; exact fastIncr_oneFrame _ k (-1) s
      · cases hp
  | [k, v] =>
    simp only [serveFast] at hp
    split at hp
    · cases hp; exact simple_oneFrame _ (by decide)
    · cases hp
  | _ :: _ :: _ :: _ => cases hp

/-- A snapshot that fails answers with the text of the I/O error. -/
theorem save_reply (cfg : Config) (st : ConnState) {name : Bytes} (args : List Bytes) {c : CmdName}
    (hc : CmdName.ofName (upperName name) = some c) (hsave : c.saves = true) (s : Sys σ) :
    let r := s.exec E (dispatch cfg st name args)
    r.1.1.reply = .ok ∨ ∃ e, (E s.tick).ioError = some e ∧ r.1.1.reply = saveFailed e := by
  have hd : (dispatch cfg st name args : Cmd σ _) = keep st (storeCmd cfg st name args .save) := by
    unfold dispatch
    rw [hc]
    cases c with
    | save | bgsave => rfl
    | _ => cases hsave
  rw [hd]
  simp only [storeCmd, keep, Sys.exec, ask, Prog.call_bind, Prog.pure_bind, Prog.run_call, Sys.call,
    Call.exec]
  cases hio : (E s.tick).ioError with
  | none => exact .inl rfl
  | some e => exact .inr ⟨e, rfl, rfl⟩

/-- What the dispatcher answers to a command whose name is a line. -/
theorem dispatch_oneFrame (hio : ∀ i e, (E i).ioError = some e → Line e) (cfg : Config)
    (st : ConnState) {name : Bytes} (args : List Bytes) (hn : Line name) (s : Sys σ) :
    let r := s.exec E (dispatch cfg st name args)
    OneFrame r.1.2.resp3 (encodeReply r.1.2.resp3 r.1.1.reply) := by
  intro r
  obtain ⟨⟨hshaped, -⟩, -⟩ := Prog.all_run (Sys.call E) (fun _ => True) (fun _ _ _ _ => trivial)
    (dispatch_shaped cfg st name args) (s := s) trivial
  rcases hshaped.neat hn with hneat | ⟨⟨c, hc, hsave⟩, -⟩
  · exact encode_oneFrame _ _ hneat
  · rcases save_reply (E := E) cfg st args hc hsave s with hok | ⟨e, he, hfail⟩
    · rw [show r.1.1.reply = .ok from hok]
      exact encode_oneFrame _ _ neat_ok
    · rw [show r.1.1.reply = saveFailed e from hfail]
      exact encode_oneFrame _ (saveFailed e)
        (line_append (by decide) (line_append (by decide) (hio _ e he)))

/-- A command whose name is a line is answered with one frame. -/
theorem serve_oneFrame (hio : ∀ i e, (E i).ioError = some e → Line e) (cfg : Config)
    (st : ConnState) {name : Bytes} (args : List Bytes) (hn : Line name) (s : Sys σ)
    (hs : Sized s.world.store) :
    let r := s.exec E (serveCmd cfg st name args)
    OneFrame r.1.st.resp3 r.1.bytes := by
  simp only [serveCmd]
  cases hp : (serveFast st name args : Option (Cmd σ (Bytes × Bool))) with
  | some p =>
    simp only [Sys.exec, Prog.run_bind]
    exact serveFast_oneFrame s hs hp
  | none =>
    simp only [Sys.exec, Prog.run_bind]
    exact dispatch_oneFrame hio cfg st args hn s

/-- A command whose name is no line is not known. -/
theorem serve_unknown (cfg : Config) (st : ConnState) {name : Bytes} (args : List Bytes)
    (hn : ¬ Line name) (s : Sys σ) :
    (s.exec E (serveCmd cfg st name args)).1 =
      ⟨writeError (lit "ERR unknown command '" ++ fromUtf8Lossy name ++ lit "'"), false, false,
        st⟩ := by
  have hfast : (serveFast st name args : Option (Cmd σ (Bytes × Bool))) = none := by
    cases hp : (serveFast st name args : Option (Cmd σ (Bytes × Bool))) with
    | none => rfl
    | some p => exact absurd (line_of_fast hp) hn
  have hname : CmdName.ofName (upperName name) = none := by
    cases hc : CmdName.ofName (upperName name) with
    | none => rfl
    | some c => exact absurd (line_of_ofName hc) hn
  simp only [serveCmd, hfast, dispatch, hname]
  rfl

theorem line_quoted {name : Bytes}
    (h : Line (lit "ERR unknown command '" ++ fromUtf8Lossy name ++ lit "'")) : Line name :=
  line_lossy.1 ⟨fun hm => h.1 (by simp [hm]), fun hm => h.2 (by simp [hm])⟩

variable {srv : Server} {c : Conn σ} {name : Bytes} {args : List Bytes}

/-- The command is refused for want of a password, or its name has no CR and no LF. -/
def Framable (c : Conn σ) (name : Bytes) : Prop :=
  c.st.authenticated = false ∧ isPreauthOk (upperName name) = false ∨ Line name

/-- What the command appends to the output is one frame of the version then spoken. -/
def Answered (srv : Server) (E : Surroundings) (c : Conn σ) (name : Bytes) (args : List Bytes)
    (frame : Bytes) : Prop :=
  (c.command srv E name args).out = c.out ++ frame ∧
    OneFrame (c.command srv E name args).st.resp3 frame

theorem command_eq (hsync : isSync name = false) : c.command srv E name args =
    if c.st.authenticated = false ∧ isPreauthOk (upperName name) = false then
      { c with out := c.out ++ writeError (lit "NOAUTH Authentication required.") }
    else if srv.cfg.replicaof.isSome = true ∧ isWriteCommand (upperName name) = true then
      { c with out := c.out ++
               writeError (lit "READONLY You can't write against a read only replica.") }
    else c.perform srv E name args := by
  simp only [Conn.command, hsync, Bool.false_eq_true, if_false, Bool.and_eq_true, Bool.not_eq_true']

/-- A served command, without an append-only file. -/
theorem perform_unlogged (srv : Server) (E : Surroundings) (name : Bytes) (args : List Bytes)
    (hlog : c.node.aof = none) :
    let served := (c.node.sys.exec E (serveCmd srv.cfg c.st name args)).1
    let c' := c.perform srv E name args
    c'.out = c.out ++ served.bytes ∧ c'.st = served.st ∧ c'.node.aof = none := by
  intro served
  simp only [Conn.perform, Node.exec]
  by_cases hw : (c.node.sys.exec E (serveCmd srv.cfg c.st name args)).1.write = true
  · simp [served, hw, Node.logWrite, Node.propagate, hlog]
  · simp [served, hw, hlog]

theorem command_unlogged (hsync : isSync name = false) (hlog : c.node.aof = none) :
    (c.command srv E name args).node.aof = none := by
  rw [command_eq hsync]
  split
  · exact hlog
  · split
    · exact hlog
    · exact (perform_unlogged srv E name args hlog).2.2

/-- A command is answered with one frame exactly when its name has no CR and no LF, or
is not looked at. -/
theorem command_oneFrame_iff (srv : Server) (hio : ∀ i e, (E i).ioError = some e → Line e)
    (args : List Bytes) (hlog : c.node.aof = none) (hs : Sized c.node.sys.world.store)
    (hsync : isSync name = false) :
    (∃ frame, Answered srv E c name args frame) ↔ Framable c name := by
  unfold Answered Framable
  rw [command_eq hsync]
  by_cases hauth : c.st.authenticated = false ∧ isPreauthOk (upperName name) = false
  · rw [if_pos hauth]
    exact ⟨fun _ => .inl hauth, fun _ => ⟨_, rfl, error_oneFrame _ (by decide)⟩⟩
  · rw [if_neg hauth, or_iff_right hauth]
    obtain ⟨hout, hst, -⟩ := perform_unlogged srv E name args hlog
    by_cases hn : Line name
    · refine ⟨fun _ => hn, fun _ => ?_⟩
      split
      · exact ⟨_, rfl, error_oneFrame _ (by decide)⟩
      · exact ⟨_, hout, hst ▸ serve_oneFrame hio srv.cfg c.st args hn c.node.sys hs⟩
    · have hread : ¬ (srv.cfg.replicaof.isSome = true ∧ isWriteCommand (upperName name) = true) :=
        fun h => hn (line_of_write h.2)
      rw [if_neg hread]
      refine ⟨fun ⟨frame, hf, hone⟩ => ?_, fun h => absurd h hn⟩
      rw [hout, serve_unknown srv.cfg c.st args hn] at hf
      rw [← List.append_cancel_left hf, error_oneFrame_iff] at hone
      exact line_quoted hone

/-! ## Pipelines -/

/-- The next command of a pipeline. -/
def Conn.next (srv : Server) (E : Surroundings) (c : Conn σ) (cmd : Bytes × List Bytes) :
    Option (Conn σ) :=
  if c.status = .open then some (c.command srv E cmd.1 cmd.2) else none

/-- The frames answer the commands, one after the other. -/
def AllAnswered (srv : Server) (E : Surroundings) :
    Conn σ → List (Bytes × List Bytes) → List Bytes → Prop
  | _, [], frames => frames = []
  | _, _ :: _, [] => False
  | c, cmd :: cmds, frame :: frames =>
    Answered srv E c cmd.1 cmd.2 frame ∧ AllAnswered srv E (c.command srv E cmd.1 cmd.2) cmds frames

theorem allAnswered_length :
    ∀ {cmds : List (Bytes × List Bytes)} {c : Conn σ} {frames : List Bytes},
    AllAnswered srv E c cmds frames → frames.length = cmds.length
  | [], _, frames, h => by rw [show frames = [] from h]; rfl
  | _ :: cmds, _, _ :: _, h => congrArg Nat.succ (allAnswered_length h.2)

theorem next_some {c c' : Conn σ} {cmd : Bytes × List Bytes} (h : c.next srv E cmd = some c') :
    c.command srv E cmd.1 cmd.2 = c' := by
  unfold Conn.next at h
  split at h
  · exact Option.some.inj h
  · cases h

/-- The output of a pipeline is what its commands append. -/
theorem allAnswered_out :
    ∀ {cmds : List (Bytes × List Bytes)} {c c' : Conn σ} {frames : List Bytes},
    AllAnswered srv E c cmds frames → Lts.run (Conn.next srv E) c cmds = some c' →
      c'.out = c.out ++ frames.flatten
  | [], c, c', frames, h, hr => by
    rw [show frames = [] from h, ← Option.some.inj hr]
    simp
  | cmd :: cmds, c, c', frame :: frames, h, hr => by
    obtain ⟨t, ht, hr⟩ := Lts.run_cons hr
    obtain rfl := next_some ht
    rw [allAnswered_out h.2 hr, h.1.1, List.flatten_cons, List.append_assoc]

/-- **One reply frame per command.** Without an append-only file, for every
configuration, store and connection state, and every pipeline of commands other than
`SYNC` and `PSYNC` that the connection executes: the bytes it appends to the output
are one frame of the negotiated version for each command, in order and with nothing
left over, if and only if none of the commands gets as far as having its name looked
at while the name has a CR or an LF in it.

The text of an I/O error is the operating system's; a stored string has a length. -/
theorem one_frame_per_command (srv : Server) (E : Surroundings)
    (hio : ∀ i e, (E i).ioError = some e → Line e) (cmds : List (Bytes × List Bytes))
    {c c' : Conn σ} (hlog : c.node.aof = none) (hrun : Lts.run (Conn.next srv E) c cmds = some c')
    (hcmds : Lts.Along (Conn.next srv E)
      (fun c cmd => isSync cmd.1 = false ∧ Sized c.node.sys.world.store) c cmds) :
    (∃ frames : List Bytes, frames.length = cmds.length ∧ AllAnswered srv E c cmds frames ∧
      c'.out = c.out ++ frames.flatten) ↔
      Lts.Along (Conn.next srv E) (fun c cmd => Framable c cmd.1) c cmds := by
  have hiff : (∃ frames, AllAnswered srv E c cmds frames) ↔
      Lts.Along (Conn.next srv E) (fun c cmd => Framable c cmd.1) c cmds := by
    induction cmds generalizing c with
    | nil => exact ⟨fun _ => trivial, fun _ => ⟨[], rfl⟩⟩
    | cons cmd cmds ih =>
      obtain ⟨t, ht, hr⟩ := Lts.run_cons hrun
      obtain ⟨hsync, hs⟩ := hcmds.1
      have hone := command_oneFrame_iff srv hio cmd.2 hlog hs hsync
      have htail := ih (next_some ht ▸ command_unlogged hsync hlog) hr (hcmds.2 t ht)
      obtain rfl := next_some ht
      constructor
      · rintro ⟨frames, h⟩
        cases frames with
        | nil => exact h.elim
        | cons frame frames =>
          refine ⟨hone.1 ⟨frame, h.1⟩, fun t' ht' => ?_⟩
          obtain rfl := next_some ht'
          exact htail.1 ⟨frames, h.2⟩
      · rintro ⟨hf, ha⟩
        obtain ⟨frame, h1⟩ := hone.2 hf
        obtain ⟨frames, h2⟩ := htail.2 (ha _ ht)
        exact ⟨frame :: frames, h1, h2⟩
  rw [← hiff]
  exact ⟨fun ⟨frames, _, h, _⟩ => ⟨frames, h⟩,
    fun ⟨frames, h⟩ => ⟨frames, allAnswered_length h, h, allAnswered_out h hrun⟩⟩

end

/-- A pipeline of two commands; the second has its argument, with a line break in it,
sent back. -/
theorem one_frame_per_command_echo :
    let c := Conn.accept openServer 1 (freshNode : Node Int)
    let cmds := [(lit "PING", []), (lit "ECHO", [lit "a\r\nb"])]
    ∃ frames c', Lts.run (Conn.next openServer (fun _ => Env.plain 0)) c cmds = some c' ∧
      frames.length = 2 ∧
      AllAnswered openServer (fun _ => Env.plain 0) c cmds frames ∧ c'.out = frames.flatten := by
  intro c cmds
  have hsized : Sized c.node.sys.world.store := sized_new _ _ _ _
  have hcmds : Lts.Along (Conn.next openServer (fun _ => Env.plain 0))
      (fun c cmd => isSync cmd.1 = false ∧ Sized c.node.sys.world.store) c cmds := by
    refine ⟨⟨by decide, hsized⟩, fun c₁ h₁ => ⟨⟨by decide, ?_⟩, fun _ _ => trivial⟩⟩
    obtain rfl := next_some h₁
    exact hsized
  have hframable : Lts.Along (Conn.next openServer (fun _ => Env.plain 0))
      (fun c cmd => Framable c cmd.1) c cmds :=
    ⟨.inr (by decide), fun _ _ => ⟨.inr (by decide), fun _ _ => trivial⟩⟩
  obtain ⟨frames, hlen, hall, hout⟩ :=
    (one_frame_per_command openServer (fun _ => Env.plain 0) (by intro i e h; cases h)
    cmds (c := c) rfl rfl hcmds).2 hframable
  exact ⟨frames, _, rfl, hlen, hall, hout⟩

/-- An unknown command with a line break in its name: the client reads an error that
ends there, and the rest of the name is left over as the start of the next frame. -/
theorem quoted_name_breaks :
    let c := Conn.accept openServer 1 (freshNode : Node Int)
    let c' := c.command openServer (fun _ => Env.plain 0) (lit "a\r\nb") []
    c'.out = c.out ++ lit "-ERR unknown command 'a\r\nb'\r\n" ∧
      decodeFuel c'.st.resp3 1 c'.out = some (.error (lit "ERR unknown command 'a"), lit "b'\r\n") ∧
      ¬ ∃ frame, Answered openServer (fun _ => Env.plain 0) c (lit "a\r\nb") [] frame := by
  refine ⟨by decide +kernel, rfl, fun h => ?_⟩
  have hframable :=
    (command_oneFrame_iff openServer (by intro i e h; cases h) [] rfl (sized_new _ _ _ _)
      (by decide)).1 h
  exact absurd hframable (by unfold Framable; decide)

end Inmem.L4
