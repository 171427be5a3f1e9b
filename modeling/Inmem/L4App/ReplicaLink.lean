import Inmem.L1Encoding.RespBounds
import Inmem.L1Encoding.RespHeader
import Inmem.L4App.Inline
import Inmem.L4App.Lag

/-!
# A replica links up

A replica with a password for its primary sends `AUTH`, throws away what the next read returns,
and sends `SYNC`; from then on what it reads is applied. The read is meant to take the answer to
`AUTH`, and may take a part of it. The rest is then applied, as a line.

* `syncLoop_received`: a replica sees what it reads as a client connection would.
* `tail_quiet`: no rest of an answer to `AUTH` does anything, whatever it is cut into words as.
* `link_exact`: the replica applies the snapshot and the writes that follow, each once and in
  their order, unless the read ended between the CR and the LF of the answer.
-/
namespace Inmem.L4

open Inmem.Core Inmem.L1 Inmem.L1.Resp Inmem.L3

section
variable {σ : Type} [Score σ]

/-! ## What is read is applied -/

/-- A replica applies a command; on a malformed one it stops. -/
def Sys.item (cfg : Config) (E : Surroundings) (p : ConnState × Sys σ) : Item → ConnState × Sys σ
  | .cmd name args => Sys.apply cfg E p (name, args)
  | .bad _ => p

theorem syncDrain_parseAll (cfg : Config) (E : Surroundings) (f : Nat) :
    ∀ (buf : Bytes) (p : ConnState × Sys σ),
    syncDrain cfg E f buf p = ((parseAll f buf).1.foldl (Sys.item cfg E) p,
      (parseAll f buf).2) := by
  induction f with
  | zero => exact fun _ _ => rfl
  | succ f ih =>
    intro buf p
    rw [syncDrain, parseAll, parseCommand_ranges]
    rcases parseCommandRanges buf with e | _ | ⟨ranges, consumed⟩
    · rfl
    · rfl
    · simp only [Except.map, Option.map_some]
      cases ranges.map (slice buf) with
      | nil => exact ih ..
      | cons name args => exact ih ..

theorem syncLoop_received (cfg : Config) (E : Surroundings) (chunks : List Bytes) :
    ∀ (buf : Bytes) (p : ConnState × Sys σ),
    syncLoop cfg E chunks buf p = (received chunks buf).foldl (Sys.item cfg E) p := by
  induction chunks with
  | nil => exact fun _ _ => rfl
  | cons chunk chunks ih =>
    intro buf p
    rw [syncLoop, received, syncDrain_parseAll]
    dsimp only
    cases (parseAll (buf ++ chunk).length (buf ++ chunk)).2 with
    | none => rfl
    | some rest =>
      dsimp only
      rw [ih, List.foldl_append]

/-- Commands that come in frames of either form are applied one after another. -/
theorem syncLoop_sent {cap : Nat} (cfg : Config) (E : Surroundings) {cmds : List (List Bytes)}
    {frames reads : List Bytes} (h : List.Forall₂ Sent cmds frames)
    (hr : Splits cap frames.flatten reads) (p : ConnState × Sys σ) :
    syncLoop cfg E reads [] p = (items cmds).foldl (Sys.item cfg E) p := by
  rw [syncLoop_received, received_sent h hr]

theorem items_argv (cfg : Config) (E : Surroundings) (cmds : List Argv) : ∀ p : ConnState × Sys σ,
    (items (cmds.map fun a => a.1 :: a.2)).foldl (Sys.item cfg E) p =
      Sys.applyAll cfg E cmds p := by
  induction cmds with
  | nil => exact fun _ => rfl
  | cons a cmds ih => exact fun p => ih _

theorem sent_encodeAll {cmds : List Argv} (h : ∀ a ∈ cmds, a.Fits) :
    List.Forall₂ Sent (cmds.map fun a => a.1 :: a.2) (cmds.map Argv.encode) := by
  induction cmds with
  | nil => exact .nil
  | cons a cmds ih =>
    exact .cons (.array (h a List.mem_cons_self)) (ih fun b hb => h b (List.mem_cons_of_mem _ hb))

/-! ## What is left of an answer -/

/-- The answers to `AUTH` and a password, without their CRLF. -/
def authAnswers : List Bytes :=
  [lit "+OK", lit "-ERR Client sent AUTH, but no password is set",
    lit "-WRONGPASS invalid username-password pair"]

/-- The words of a line that begin with no command, and the two rests that begin with one: a
`CLIENT` without a subcommand that exists, and a `SET` without arguments. -/
def quiet (argv : List Bytes) : Bool :=
  (CmdName.ofName (upperName (argv.headD []))).isNone ||
    argv == [lit "Client", lit "sent", lit "AUTH,", lit "but", lit "no", lit "password", lit "is",
      lit "set"] ||
    argv == [lit "set"]

theorem answers_quiet :
    ∀ t ∈ authAnswers, ∀ n < t.length, quiet (words (t.drop (n + 1))) = true := by
  decide +kernel

/-- Such a line does nothing. -/
theorem quiet_dispatch {name : Bytes} {args : List Bytes} (h : quiet (name :: args) = true)
    (cfg : Config) (st : ConnState) :
    ∃ o, (dispatch cfg st name args : Cmd σ _) = .pure (o, st) := by
  rw [quiet, Bool.or_eq_true, Bool.or_eq_true] at h
  rcases h with (h | h) | h
  · have hname : CmdName.ofName (upperName name) = none := Option.isNone_iff_eq_none.1 h
    exact ⟨unknown name, by rw [dispatch, hname]; rfl⟩
  · cases eq_of_beq h
    exact ⟨_, rfl⟩
  · cases eq_of_beq h
    exact ⟨_, rfl⟩

theorem quiet_items {argv : List Bytes} (h : quiet argv = true) (cfg : Config) (E : Surroundings)
    (p : ConnState × Sys σ) : (items [argv]).foldl (Sys.item cfg E) p = p := by
  cases argv with
  | nil => rfl
  | cons name args =>
    obtain ⟨o, ho⟩ := quiet_dispatch (σ := σ) h cfg p.1
    show Sys.apply cfg E p (name, args) = p
    rw [Sys.apply, ho]
    rfl

theorem answers_plain : ∀ t ∈ authAnswers, (13 : UInt8) ∉ t ∧ (42 : UInt8) ∉ t ∧ t.length < 64 := by
  decide

/-- What is left of an answer behind a read that took a part of it, but did not end inside its
CRLF. -/
theorem tail_quiet {t : Bytes} (ht : t ∈ authAnswers) {first rest : Bytes}
    (h : first ++ rest = t ++ crlf) (hfirst : first ≠ []) (hcut : first ≠ (t ++ crlf).dropLast) :
    ∃ argvs frames, List.Forall₂ Sent argvs frames ∧ frames.flatten = rest ∧
      ∀ (cfg : Config) (E : Surroundings) (p : ConnState × Sys σ),
      (items argvs).foldl (Sys.item cfg E) p = p := by
  obtain ⟨h13, h42, hlen⟩ := answers_plain t ht
  have hpos := List.length_pos_iff.2 hfirst
  have hrest : rest = (t ++ crlf).drop first.length := by rw [← h, List.drop_left]
  by_cases hin : first.length ≤ t.length
  · -- the rest is a line
    have hdrop : rest = t.drop first.length ++ crlf := by
      rw [hrest, List.drop_append_of_le_length hin]
    have hmem : ∀ b, b ∉ t → b ∉ t.drop first.length := fun b hb hd => hb (List.mem_of_mem_drop hd)
    have hline : Sent (words (t.drop first.length)) (t.drop first.length ++ crlf) := by
      refine .line (lineOf_iff.2 rfl) (crlfAt_open (hmem 13 h13))
        (fun h0 => hmem 42 h42 (List.mem_of_mem_head? h0)) ?_
      rw [List.length_drop, INLINE_MAX]
      omega
    refine ⟨[_], [_], .cons hline .nil, by rw [hdrop]; exact List.append_nil _,
      fun cfg E p => quiet_items ?_ cfg E p⟩
    have := answers_quiet t ht (first.length - 1) (by omega)
    rwa [show first.length - 1 + 1 = first.length by omega] at this
  · -- nothing is left
    have hfull : first.length = t.length + 2 := by
      have hle : first.length ≤ t.length + 2 := by
        have := congrArg List.length h
        rw [List.length_append, List.length_append, crlf, List.length_cons, List.length_singleton]
          at this
        omega
      have hne : first.length ≠ t.length + 1 := by
        intro he
        refine hcut ?_
        rw [List.dropLast_eq_take, List.length_append, show crlf.length = 1 + 1 from rfl,
          ← Nat.add_assoc, Nat.add_sub_cancel, ← he, ← h, List.take_left]
      omega
    exact ⟨[], [], .nil, by rw [hrest, hfull, List.drop_eq_nil_of_le (by simp [crlf])]; rfl,
      fun _ _ _ => rfl⟩

/-! ## Both sides -/

/-- What a replica with a password for its primary sends first, mirrors
crates/server/src/repl.rs:93-96 -/
def authRequest (cfg : Config) : Bytes :=
  cfg.masterauth.elim [] fun pass => replEncode [] [lit "AUTH", pass]

/-- mirrors crates/server/src/repl.rs:102 -/
def syncRequest : Bytes := lit "*1\r\n$4\r\nSYNC\r\n"

/-- The replica's side of the connection, with what each of its reads returns: the first one
after an `AUTH` is thrown away. mirrors crates/server/src/repl.rs:89-131 -/
def syncSession (cfg : Config) (E : Surroundings) (reads : List Bytes) (s : Sys σ) : Sys σ :=
  syncOnce cfg E (if cfg.masterauth.isSome then reads.tail else reads) s

/-- The primary's answer to `AUTH`. -/
def authAnswer (cfg : Config) (pass : Bytes) : Bytes :=
  match cfg.requirepass with
  | none => lit "-ERR Client sent AUTH, but no password is set"
  | some want => if pass = want then lit "+OK" else lit "-WRONGPASS invalid username-password pair"

theorem authAnswer_mem (cfg : Config) (pass : Bytes) : authAnswer cfg pass ∈ authAnswers := by
  unfold authAnswer
  cases cfg.requirepass with
  | none => dsimp only; decide
  | some want => dsimp only; split <;> decide

theorem auth_served (cfg : Config) (st : ConnState) (pass : Bytes) :
    ∃ r, (serveCmd cfg st (lit "AUTH") [pass] : Cmd σ Served) = .pure r ∧ r.write = false ∧
      r.quit = false ∧
      r.bytes = authAnswer cfg pass ++ crlf := by
  refine ⟨_, rfl, ?_⟩
  cases hp : cfg.requirepass with
  | none => simp only [auth, authAnswer, hp]; exact ⟨rfl, rfl, rfl⟩
  | some want =>
    by_cases h : pass = want
    · simp only [auth, authAnswer, hp, if_pos h]; exact ⟨rfl, rfl, rfl⟩
    · simp only [auth, authAnswer, hp, if_neg h]; exact ⟨rfl, rfl, rfl⟩

/-- A command that makes no call. -/
theorem perform_pure (srv : Server) (E : Surroundings) {c : Conn σ} {name : Bytes}
    {args : List Bytes} {r : Served}
    (h : (serveCmd srv.cfg c.st name args : Cmd σ Served) = .pure r) (hw : r.write = false)
    (hq : r.quit = false) :
    c.perform srv E name args = { c with st := r.st, out := c.out ++ r.bytes,
                                         status := .open } := by
  have hrun : c.node.exec E (.pure r : Cmd σ Served) = (r, c.node) := rfl
  rw [Conn.perform, h, hrun]
  simp only [hw, hq]
  simp

theorem auth_command (srv : Server) (E : Surroundings) (c : Conn σ) (pass : Bytes) :
    ∃ st, c.command srv E (lit "AUTH") [pass] =
      { c with st, out := c.out ++ (authAnswer srv.cfg pass ++ crlf), status := .open } := by
  obtain ⟨r, hserve, hw, hq, hbytes⟩ := auth_served (σ := σ) srv.cfg c.st pass
  have hadmit : srv.admits c.st (lit "AUTH") = true := by
    have h1 : isSync (lit "AUTH") = false := by decide
    have h2 : isPreauthOk (upperName (lit "AUTH")) = true := by decide
    have h3 : isWriteCommand (upperName (lit "AUTH")) = false := by decide
    rw [Server.admits, h1, h2, h3]
    simp
  exact ⟨r.st, by rw [command_admitted hadmit, perform_pure srv E hserve hw hq, hbytes]⟩

theorem sent_auth {pass : Bytes} (h : (pass.length : Int) ≤ MAX_BULK_LEN) :
    Sent [lit "AUTH", pass] (encodeArgs [lit "AUTH", pass]) := by
  refine .array ⟨show ((2 : Nat) : Int) ≤ MAX_ARRAY_LEN by decide, fun b hb => ?_⟩
  rcases List.mem_pair.1 hb with rfl | rfl
  · decide
  · exact h

theorem sent_sync : Sent [lit "SYNC"] syncRequest :=
  (show encodeArgs [lit "SYNC"] = syncRequest by decide) ▸ .array (by decide)

theorem sync_item {srv : Server} (hraw : srv.raw = true) (E : Surroundings) {c : Conn σ}
    (hc : c.status = .open) :
    (c.item srv E (.cmd (lit "SYNC") [])).out =
      c.out ++ c.node.sys.world.store.dumpCommands (E c.node.sys.tick) := by
  rw [Conn.item, Loop.item, if_pos hc, Conn.command, if_pos (by decide), if_pos hraw]

theorem authRequest_some {cfg : Config} {pass : Bytes} (h : cfg.masterauth = some pass) :
    authRequest cfg = encodeArgs [lit "AUTH", pass] := by
  rw [authRequest, h, Option.elim_some, replEncode, pushCommand_eq, List.nil_append]

/-- The primary after the replica's `AUTH`, and after its `SYNC`. -/
theorem linked_out {cap : Nat} {srv : Server} (hraw : srv.raw = true) (E : Surroundings) (id : Nat)
    (n : Node σ) {pass : Bytes} (hpass : (pass.length : Int) ≤ MAX_BULK_LEN)
    {sent₁ sent₂ : List Bytes} (h₁ : Splits cap (encodeArgs [lit "AUTH", pass]) sent₁)
    (h₂ : Splits cap syncRequest sent₂) :
    ((Conn.accept srv id n).run srv E sent₁ []).out = authAnswer srv.cfg pass ++ crlf ∧
      ((Conn.accept srv id n).run srv E (sent₁ ++ sent₂) []).out =
        authAnswer srv.cfg pass ++ crlf ++ n.sys.world.store.dumpCommands (E n.sys.tick) := by
  obtain ⟨st, hauth⟩ := auth_command srv E (Conn.accept srv id n) pass
  have hframes₁ : Splits cap [encodeArgs [lit "AUTH", pass]].flatten sent₁ := by
    rwa [List.flatten_cons, List.flatten_nil, List.append_nil]
  have hframes₂ : Splits cap [encodeArgs [lit "AUTH", pass], syncRequest].flatten
      (sent₁ ++ sent₂) := by
    rw [List.flatten_cons, List.flatten_cons, List.flatten_nil, List.append_nil]
    exact h₁.append h₂
  rw [run_sent srv E id n (.cons (sent_auth hpass) .nil) hframes₁,
    run_sent srv E id n (.cons (sent_auth hpass) (.cons sent_sync .nil)) hframes₂]
  have hitem : Conn.item srv E (Conn.accept srv id n) (.cmd (lit "AUTH") [pass]) =
      (Conn.accept srv id n).command srv E (lit "AUTH") [pass] := Loop.item_open rfl _ _
  rw [hauth] at hitem
  constructor
  · show (Conn.item srv E (Conn.accept srv id n) (.cmd (lit "AUTH") [pass])).out = _
    rw [hitem]
    rfl
  · show (Conn.item srv E (Conn.item srv E (Conn.accept srv id n) (.cmd (lit "AUTH") [pass]))
      (.cmd (lit "SYNC") [])).out = _
    rw [hitem, sync_item hraw E rfl]
    rfl

/-- The replica's side, when `cmds` follow the answer. -/
theorem link_applies {cap : Nat} {t : Bytes} (ht : t ∈ authAnswers) {cmds : List Argv}
    (hfit : ∀ a ∈ cmds, a.Fits) {first : Bytes} {reads : List Bytes}
    (hreads : Splits cap (t ++ crlf ++ encodeAll cmds) (first :: reads))
    (hfirst : first <+: t ++ crlf) (hcut : first ≠ (t ++ crlf).dropLast) (cfg : Config)
    (E : Surroundings) (s : Sys σ) :
    syncOnce cfg E reads s = (Sys.applyAll cfg E cmds (ConnState.internal, s)).2 := by
  obtain ⟨rest, hrest⟩ := hfirst
  obtain ⟨argvs, frames, hsent, hflat, hquiet⟩ :=
    tail_quiet (σ := σ) ht hrest (hreads.nonempty first List.mem_cons_self) hcut
  have hsplits : Splits cap (frames ++ cmds.map Argv.encode).flatten reads := by
    refine ⟨?_, fun r hr => hreads.nonempty r (List.mem_cons_of_mem _ hr),
      fun r hr => hreads.fits r (List.mem_cons_of_mem _ hr)⟩
    have hwhole := hreads.whole
    rw [List.flatten_cons, ← hrest, List.append_assoc, List.append_cancel_left_eq] at hwhole
    rw [hwhole, List.flatten_append, hflat]
    rfl
  rw [syncOnce, syncLoop_sent cfg E (List.rel_append hsent (sent_encodeAll hfit)) hsplits,
    items_append, List.foldl_append, hquiet, items_argv]

/-- **A replica links up.** The primary, not over TLS, serves the replica's `AUTH`, if it sends
one, and its `SYNC`, and then sends it the writes of `log`; the replica's password and the
commands of the snapshot and of `log` are within the parser's limits. What the replica reads is
cut anyhow; with a password its first read takes a part of the answer to `AUTH` and does not end
between the CR and the LF. Then, whatever the passwords are, it applies the commands of the
snapshot and those of `log`, and no others. -/
theorem link_exact (cap cap' : Nat) (srv : Server) (hraw : srv.raw = true) (E : Surroundings)
    (id : Nat) {n : Node σ} (hr : n.sys.world.store.Routed)
    (hdump : ∀ a ∈ snapshotCmds (E n.sys.tick) n.sys.world.store, a.Fits) {cfg : Config}
    (hpass : ∀ pass ∈ cfg.masterauth, (pass.length : Int) ≤ MAX_BULK_LEN) {sent₁ sent₂ : List Bytes}
    (h₁ : Splits cap (authRequest cfg) sent₁) (h₂ : Splits cap syncRequest sent₂) {log : List Argv}
    (hlog : ∀ a ∈ log, a.Fits) {reads : List Bytes}
    (hreads : Splits cap'
      (((Conn.accept srv id n).run srv E (sent₁ ++ sent₂) []).out ++ encodeAll log) reads)
    (hfirst : cfg.masterauth.isSome = true →
      ∀ first ∈ reads.head?, first <+: ((Conn.accept srv id n).run srv E sent₁ []).out ∧
      first ≠ ((Conn.accept srv id n).run srv E sent₁ []).out.dropLast)
    (E' : Surroundings) (s : Sys σ) :
    syncSession cfg E' reads s =
      (Sys.applyAll cfg E' (snapshotCmds (E n.sys.tick) n.sys.world.store ++ log)
        (ConnState.internal, s)).2 := by
  have hfit : ∀ a ∈ snapshotCmds (E n.sys.tick) n.sys.world.store ++ log, a.Fits :=
    List.forall_mem_append.2 ⟨hdump, hlog⟩
  have hcmds : n.sys.world.store.dumpCommands (E n.sys.tick) ++ encodeAll log =
      encodeAll (snapshotCmds (E n.sys.tick) n.sys.world.store ++ log) := by
    rw [dumpCommands_eq hr, encodeAll_append]
  unfold syncSession
  cases hm : cfg.masterauth with
  | none =>
    have hnone : sent₁ = [] := by
      have hwhole : sent₁.flatten = [] := by rw [h₁.whole, authRequest, hm]; rfl
      exact List.eq_nil_iff_forall_not_mem.2 fun r hr =>
        h₁.nonempty r hr (List.flatten_eq_nil_iff.1 hwhole r hr)
    have hout : ((Conn.accept srv id n).run srv E (sent₁ ++ sent₂) []).out =
        n.sys.world.store.dumpCommands (E n.sys.tick) := by
      have hframes : Splits cap [syncRequest].flatten sent₂ := by
        rwa [List.flatten_cons, List.flatten_nil, List.append_nil]
      rw [hnone, List.nil_append, run_sent srv E id n (.cons sent_sync .nil) hframes]
      show (Conn.item srv E (Conn.accept srv id n) (.cmd (lit "SYNC") [])).out = _
      rw [sync_item hraw E rfl]
      rfl
    rw [hout, hcmds] at hreads
    exact syncOnce_frames cfg E' reads _ s hfit hreads.whole
  | some pass =>
    rw [authRequest_some hm] at h₁
    obtain ⟨hout₁, hout₂⟩ := linked_out hraw E id n (hpass pass hm) h₁ h₂
    rw [hout₂, List.append_assoc, hcmds] at hreads
    rw [hout₁] at hfirst
    cases reads with
    | nil =>
      have hwhole := hreads.whole
      simp [crlf] at hwhole
    | cons first reads =>
      obtain ⟨hpre, hcut⟩ := hfirst (by rw [hm]; rfl) first rfl
      show syncOnce cfg E' reads s = _
      exact link_applies (authAnswer_mem srv.cfg pass) hfit hreads hpre hcut cfg E' s

end

/-- A primary with a password. -/
def guardedPrimary : Server :=
  { cfg := { loggingConfig with requirepass := some (lit "pw") }, raw := true }

/-- Its replica. -/
def linkConfig : Config :=
  { loggingConfig with replicaof := some (lit "primary", 6380), masterauth := some (lit "pw") }

def primaryDump : Bytes := onePrimary.sys.world.store.dumpCommands (Env.plain 0)

/-- The answer comes in three parts, and the snapshot in two. -/
def linkReads : List Bytes :=
  [lit "+O", lit "K\r", lit "\n" ++ primaryDump.take 7,
    primaryDump.drop 7 ++ encodeAll [(lit "INCR", [lit "n"])]]

theorem link_exact_parts :
    syncSession linkConfig (fun _ => Env.plain 9) linkReads
      (Sys.empty linkConfig (fun _ => 0) (fun _ _ _ => 0) none : Sys Int) =
      (Sys.applyAll linkConfig (fun _ => Env.plain 9)
        (snapshotCmds (Env.plain 0) onePrimary.sys.world.store ++ [(lit "INCR", [lit "n"])])
        (ConnState.internal, Sys.empty linkConfig (fun _ => 0) (fun _ _ _ => 0) none)).2 := by
  obtain ⟨data, h⟩ := onePrimary_synced
  have hdump : Dumpable (Env.plain 0) onePrimary.sys.world.store :=
    (dumpable_iff h.good.routed).2 (by decide +kernel)
  have h₁ : Splits READ_CHUNK (authRequest linkConfig)
      [lit "*2\r\n$4\r\nAU", lit "TH\r\n$2\r\npw\r\n"] :=
    ⟨by decide, by decide, by decide⟩
  have h₂ : Splits READ_CHUNK syncRequest [syncRequest] := ⟨by decide, by decide, by decide⟩
  refine link_exact READ_CHUNK READ_CHUNK guardedPrimary rfl (fun _ => Env.plain 0) 1 h.good.routed
    (snapshotCmds_fits hdump) (by decide) h₁ h₂ (by decide)
    ⟨?_, ?_, ?_⟩ (fun _ first hf => ?_) _ _
  · decide +kernel
  · decide +kernel
  · decide +kernel
  · cases hf
    exact ⟨by decide +kernel, by decide +kernel⟩

-- a read that ends between the CR and the LF costs the first command of the snapshot
example :
    ((syncSession linkConfig (fun _ => Env.plain 9) [lit "+OK\r", lit "\n" ++ primaryDump]
    (Sys.empty linkConfig (fun _ => 0) (fun _ _ _ => 0) none : Sys Int)).world.store.raw
      (lit "n")).isNone = true := by
  decide +kernel

end Inmem.L4
