import Inmem.L3Store.Refine
import Inmem.L4App.Conn

/-!
# Replay, recovery and the replica's stream

`crates/server/src/persistence.rs`, the recovery in
`crates/server/src/server.rs` and the replica's side of
`crates/server/src/repl.rs`. All three feed a byte stream through
`parse_command` and `dispatch`.

`frames` are the commands that the replay loop reads from a file: it stops at the
first incomplete or malformed one. `replayFile_eq` splits the loop into reading
the frames and applying them; `frames_encode` reads logged commands back.

* `bootstrap`: the append-only file if the server keeps one and it exists, else the
  snapshot; then the append-only file is opened as it stands.
* `syncOnce`: the replica applies whatever the primary sends, chunk by chunk, on top
  of what it holds. `syncOnce_frames`: how the stream is cut into chunks is immaterial.
-/
namespace Inmem.L4

open Inmem.Core Inmem.L1 Inmem.L1.Resp Inmem.L3

/-- A command: its name and its arguments. -/
abbrev Argv := Bytes × List Bytes

/-- The command's frame. -/
def Argv.encode (a : Argv) : Bytes := encodeArgs (a.1 :: a.2)

/-- The command is within the parser's limits. -/
def Argv.Fits (a : Argv) : Prop := Resp.Fits (a.1 :: a.2)

instance (a : Argv) : Decidable a.Fits := inferInstanceAs (Decidable (Resp.Fits _))

/-- The file that a list of commands is logged as. -/
def encodeAll (cmds : List Argv) : Bytes := cmds.flatMap Argv.encode

theorem encodeAll_append (cmds cmds' : List Argv) :
    encodeAll (cmds ++ cmds') = encodeAll cmds ++ encodeAll cmds' :=
  List.flatMap_append

section
variable {σ : Type} [Score σ]

/-- Dispatch one command without a client. -/
def Sys.apply (cfg : Config) (E : Surroundings) (p : ConnState × Sys σ) (a : Argv) :
    ConnState × Sys σ :=
  let r := p.2.exec E (dispatch cfg p.1 a.1 a.2)
  (r.1.2, r.2)

theorem Sys.apply_snd (cfg : Config) (E : Surroundings) (p : ConnState × Sys σ) (a : Argv) :
    (Sys.apply cfg E p a).2 = (p.2.exec E (dispatch cfg p.1 a.1 a.2)).2 := by
  simp only [Sys.apply]

/-- Dispatch a list of commands. -/
def Sys.applyAll (cfg : Config) (E : Surroundings) (cmds : List Argv) (p : ConnState × Sys σ) :
    ConnState × Sys σ :=
  cmds.foldl (Sys.apply cfg E) p

theorem Sys.applyAll_nil (cfg : Config) (E : Surroundings) (p : ConnState × Sys σ) :
    Sys.applyAll cfg E [] p = p := rfl

theorem Sys.applyAll_cons (cfg : Config) (E : Surroundings) (a : Argv) (cmds : List Argv)
    (p : ConnState × Sys σ) :
    Sys.applyAll cfg E (a :: cmds) p = Sys.applyAll cfg E cmds (Sys.apply cfg E p a) := rfl

/-- The loop of `replay_file`: the number of commands applied and the state.
mirrors crates/server/src/persistence.rs:73-90 -/
def replayLoop (cfg : Config) (E : Surroundings) :
    Nat → Bytes → ConnState × Sys σ → Nat × (ConnState × Sys σ)
  | 0, _, p => (0, p)
  | f + 1, data, p =>
    match parseCommand data with
    | .ok (some (argv, consumed)) =>
      match argv with
      | [] => replayLoop cfg E f (data.drop consumed) p
      | name :: args =>
        let q := replayLoop cfg E f (data.drop consumed) (Sys.apply cfg E p (name, args))
        (q.1 + 1, q.2)
    | _ => (0, p)

/-- mirrors crates/server/src/persistence.rs:66-91 -/
def replayFile (cfg : Config) (E : Surroundings) (data : Bytes) (s : Sys σ) : Nat × Sys σ :=
  let r := replayLoop cfg E data.length data (ConnState.internal, s)
  (r.1, r.2.2)

end

/-! ## Frames -/

/-- The commands at the front of a byte stream. -/
def framesLoop : Nat → Bytes → List Argv
  | 0, _ => []
  | f + 1, data =>
    match parseCommand data with
    | .ok (some (argv, consumed)) =>
      match argv with
      | [] => framesLoop f (data.drop consumed)
      | name :: args => (name, args) :: framesLoop f (data.drop consumed)
    | _ => []

/-- The commands that replay reads from a file. -/
def frames (data : Bytes) : List Argv := framesLoop data.length data

theorem replayLoop_eq {σ : Type} [Score σ] (cfg : Config) (E : Surroundings) (f : Nat) :
    ∀ (data : Bytes) (p : ConnState × Sys σ),
      replayLoop cfg E f data p = ((framesLoop f data).length,
        Sys.applyAll cfg E (framesLoop f data) p) := by
  induction f with
  | zero => intro data p; rfl
  | succ f ih =>
    intro data p
    rcases h : parseCommand data with e | _ | ⟨argv, consumed⟩
    · simp only [replayLoop, framesLoop, h]; rfl
    · simp only [replayLoop, framesLoop, h]; rfl
    · cases argv with
      | nil => simp only [replayLoop, framesLoop, h, ih]
      | cons name args =>
        simp only [replayLoop, framesLoop, h, ih, List.length_cons]
        rfl

/-- Replay reads the frames of the file and applies them in order. -/
theorem replayFile_eq {σ : Type} [Score σ] (cfg : Config) (E : Surroundings) (data : Bytes)
    (s : Sys σ) :
    replayFile cfg E data s =
      ((frames data).length, (Sys.applyAll cfg E (frames data) (ConnState.internal, s)).2) := by
  simp only [replayFile, replayLoop_eq, frames]

/-- Fuel beyond the length makes no difference. -/
theorem framesLoop_fuel (n : Nat) : ∀ (f g : Nat) (data : Bytes), data.length ≤ n → n ≤ f → n ≤ g →
    framesLoop f data = framesLoop g data := by
  induction n with
  | zero =>
    intro f g data h _ _
    obtain rfl := List.length_eq_zero_iff.1 (Nat.le_zero.1 h)
    cases f <;> cases g <;> rfl
  | succ n ih =>
    intro f g data h hf hg
    obtain ⟨f, rfl⟩ : ∃ m, f = m + 1 := ⟨f - 1, by omega⟩
    obtain ⟨g, rfl⟩ : ∃ m, g = m + 1 := ⟨g - 1, by omega⟩
    rcases hp : parseCommand data with e | _ | ⟨argv, consumed⟩
    · simp only [framesLoop, hp]
    · simp only [framesLoop, hp]
    · have hb := parseCommand_bounds hp
      have e := ih f g (data.drop consumed) (by rw [List.length_drop]; omega) (by omega) (by omega)
      cases argv <;> simp only [framesLoop, hp, e]

theorem framesLoop_frames {f : Nat} {data : Bytes} (h : data.length ≤ f) :
    framesLoop f data = frames data :=
  framesLoop_fuel data.length f data.length data le_rfl h le_rfl

/-- The first command of a stream. -/
theorem frames_cons {data : Bytes} {name : Bytes} {args : List Bytes} {consumed : Nat}
    (h : parseCommand data = .ok (some (name :: args, consumed))) :
    frames data = (name, args) :: frames (data.drop consumed) := by
  have hb := parseCommand_bounds h
  obtain ⟨m, hm⟩ : ∃ m, data.length = m + 1 := ⟨data.length - 1, by omega⟩
  rw [frames, hm]
  simp only [framesLoop, h]
  rw [framesLoop_frames (by rw [List.length_drop]; omega)]

/-- An empty command is skipped. -/
theorem frames_skip {data : Bytes} {consumed : Nat}
    (h : parseCommand data = .ok (some ([], consumed))) :
    frames data = frames (data.drop consumed) := by
  have hb := parseCommand_bounds h
  obtain ⟨m, hm⟩ : ∃ m, data.length = m + 1 := ⟨data.length - 1, by omega⟩
  rw [frames, hm]
  simp only [framesLoop, h]
  exact framesLoop_frames (by rw [List.length_drop]; omega)

/-- Replay stops where the parser does. -/
theorem frames_stop {data : Bytes} (h : ∀ r, parseCommand data ≠ .ok (some r)) :
    frames data = [] := by
  unfold frames
  cases data with
  | nil => rfl
  | cons b t =>
    rcases hp : parseCommand (b :: t) with e | _ | r
    · simp only [List.length_cons, framesLoop, hp]
    · simp only [List.length_cons, framesLoop, hp]
    · exact absurd hp (h r)

theorem Argv.encode_ne_nil (a : Argv) : a.encode ≠ [] := by
  rw [Argv.encode, encodeArgs_eq]; simp

theorem parseCommand_encode {a : Argv} (h : a.Fits) (rest : Bytes) :
    parseCommand (a.encode ++ rest) = .ok (some (a.1 :: a.2, a.encode.length)) :=
  parseCommand_encodeArgs _ h rest

/-- Logged commands are read back, whatever follows them. -/
theorem frames_encode (cmds : List Argv) (h : ∀ a ∈ cmds, a.Fits) (rest : Bytes) :
    frames (encodeAll cmds ++ rest) = cmds ++ frames rest := by
  induction cmds with
  | nil => rfl
  | cons a cmds ih =>
    have ha := parseCommand_encode (h a List.mem_cons_self) (encodeAll cmds ++ rest)
    have e : encodeAll (a :: cmds) ++ rest = a.encode ++ (encodeAll cmds ++ rest) := by
      simp [encodeAll]
    rw [e, frames_cons ha, List.drop_left, ih fun b hb => h b (List.mem_cons_of_mem _ hb)]
    rfl

theorem frames_encodeAll (cmds : List Argv) (h : ∀ a ∈ cmds, a.Fits) :
    frames (encodeAll cmds) = cmds := by
  have := frames_encode cmds h []
  rwa [List.append_nil, show frames [] = [] from rfl, List.append_nil] at this

/-! ## Recovery -/

/-- The files a server finds at its start. -/
structure Disk where
  aof : Option Bytes
  snapshot : Option Bytes

section
variable {σ : Type} [Score σ]

/-- The state before recovery: an empty store next to the snapshot file. -/
def Sys.empty (cfg : Config) (router : Bytes → UInt64) (hasher : Nat → Nat → Bytes → UInt64)
    (snapshot : Option Bytes) : Sys σ :=
  { world := { store := Store.new cfg.shards cfg.maxmemory router hasher, snapshot }, tick := 0 }

theorem Sys.empty_good {cfg : Config} (h : cfg.maxmemory = 0) (router : Bytes → UInt64)
    (hasher : Nat → Nat → Bytes → UInt64) (snapshot : Option Bytes) :
    (Sys.empty cfg router hasher snapshot : Sys σ).world.store.Good := by
  simp only [Sys.empty, h]; exact new_good ..

theorem Sys.empty_raw (cfg : Config) (router : Bytes → UInt64) (hasher : Nat → Nat → Bytes → UInt64)
    (snapshot : Option Bytes) :
    (Sys.empty cfg router hasher snapshot : Sys σ).world.store.raw = fun _ => none :=
  new_raw ..

/-- The file a start reads, mirrors crates/server/src/server.rs:31-45 -/
def Disk.source (cfg : Config) (d : Disk) : Option Bytes :=
  (if cfg.appendonly then d.aof else none).or d.snapshot

/-- A start of the server, mirrors crates/server/src/server.rs:28-53; opening the
append-only file creates it if needed and does not change what is in it. -/
def bootstrap (cfg : Config) (router : Bytes → UInt64) (hasher : Nat → Nat → Bytes → UInt64)
    (E : Surroundings) (d : Disk) : Node σ :=
  let s := Sys.empty cfg router hasher d.snapshot
  { sys := match d.source cfg with
      | some data => (replayFile cfg E data s).2
      | none => s
    aof := if cfg.appendonly then some (d.aof.getD []) else none
    replicas := [] }

/-- A server that keeps an append-only file. -/
def loggingConfig : Config :=
  { shards := 1, maxmemory := 0, appendonly := true, requirepass := none, replicaof := none,
    masterauth := none }

/-- The commands that a start applies. -/
def recovered (cfg : Config) (d : Disk) : List Argv := frames ((d.source cfg).getD [])

theorem bootstrap_sys (cfg : Config) (router : Bytes → UInt64) (hasher : Nat → Nat → Bytes → UInt64)
    (E : Surroundings) (d : Disk) :
    (bootstrap cfg router hasher E d : Node σ).sys =
      (Sys.applyAll cfg E (recovered cfg d)
        (ConnState.internal, Sys.empty cfg router hasher d.snapshot)).2 := by
  unfold bootstrap recovered
  cases d.source cfg with
  | none => rfl
  | some data => simp only [replayFile_eq, Option.getD_some]

/-- Without files a start finds nothing. -/
theorem bootstrap_fresh (cfg : Config) (router : Bytes → UInt64)
    (hasher : Nat → Nat → Bytes → UInt64) (E : Surroundings) :
    (bootstrap cfg router hasher E ⟨none, none⟩ : Node σ).sys =
      Sys.empty cfg router hasher none := by
  rw [bootstrap_sys]
  have : recovered cfg ⟨none, none⟩ = [] := by
    cases h : cfg.appendonly <;> simp [recovered, Disk.source, h] <;> rfl
  rw [this]; rfl

/-- The files a server leaves: a server without an append-only file does not
touch the one on disk. -/
def Node.disk (n : Node σ) (before : Disk) : Disk :=
  { aof := n.aof.or before.aof, snapshot := n.sys.world.snapshot }

end

/-! ## The replica's stream -/

section
variable {σ : Type} [Score σ]

/-- The replica's loop over the buffered bytes: the state, and the bytes left
(`none` after a malformed command, on which the replica disconnects).
mirrors crates/server/src/repl.rs:114-131 -/
def syncDrain (cfg : Config) (E : Surroundings) :
    Nat → Bytes → ConnState × Sys σ → (ConnState × Sys σ) × Option Bytes
  | 0, buf, p => (p, some buf)
  | f + 1, buf, p =>
    match parseCommand buf with
    | .ok (some (argv, consumed)) =>
      match argv with
      | [] => syncDrain cfg E f (buf.drop consumed) p
      | name :: args => syncDrain cfg E f (buf.drop consumed) (Sys.apply cfg E p (name, args))
    | .ok none => (p, some buf)
    | .error _ => (p, none)

/-- The chunks that the socket delivers.
mirrors crates/server/src/repl.rs:108-131 -/
def syncLoop (cfg : Config) (E : Surroundings) :
    List Bytes → Bytes → ConnState × Sys σ → ConnState × Sys σ
  | [], _, p => p
  | chunk :: chunks, buf, p =>
    let r := syncDrain cfg E (buf ++ chunk).length (buf ++ chunk) p
    match r.2 with
    | some buf => syncLoop cfg E chunks buf r.1
    | none => r.1

/-- The replica's side of a connection to its primary, after `SYNC` was sent.
mirrors crates/server/src/repl.rs:105-131 -/
def syncOnce (cfg : Config) (E : Surroundings) (chunks : List Bytes) (s : Sys σ) : Sys σ :=
  (syncLoop cfg E chunks [] (ConnState.internal, s)).2

/-- The buffer holds no complete command of what is still to come. -/
def Short (buf : Bytes) : List Argv → Prop
  | [] => buf = []
  | a :: _ => buf.length < a.encode.length

/-- One pass over the buffer: some commands are applied, and what is left is the
beginning of the rest. -/
theorem syncDrain_frames (cfg : Config) (E : Surroundings) (f : Nat) :
    ∀ (buf later : Bytes) (cmds : List Argv) (p : ConnState × Sys σ), buf.length ≤ f →
      (∀ a ∈ cmds, a.Fits) →
      buf ++ later = encodeAll cmds →
      ∃ now rest buf', cmds = now ++ rest ∧
      syncDrain cfg E f buf p = (Sys.applyAll cfg E now p, some buf') ∧
        buf' ++ later = encodeAll rest ∧ Short buf' rest := by
  induction f with
  | zero =>
    intro buf later cmds p hf hfit he
    obtain rfl := List.length_eq_zero_iff.1 (Nat.le_zero.1 hf)
    refine ⟨[], cmds, [], rfl, rfl, he, ?_⟩
    cases cmds with
    | nil => rfl
    | cons a cmds => exact List.length_pos_iff.2 a.encode_ne_nil
  | succ f ih =>
    intro buf later cmds p hf hfit he
    cases cmds with
    | nil =>
      obtain ⟨rfl, rfl⟩ := List.append_eq_nil_iff.1 he
      exact ⟨[], [], [], rfl, rfl, rfl, rfl⟩
    | cons a cmds =>
      have hfit' : ∀ b ∈ cmds, b.Fits := fun b hb => hfit b (List.mem_cons_of_mem _ hb)
      have he' : buf ++ later = a.encode ++ encodeAll cmds := he
      have h1 : a.encode <+: buf ++ later := ⟨_, he'.symm⟩
      have h2 : buf <+: buf ++ later := List.prefix_append _ _
      by_cases hlt : buf.length < a.encode.length
      · obtain ⟨r, hr⟩ := List.prefix_of_prefix_length_le h2 h1 hlt.le
        have hne : r ≠ [] := by rintro rfl; rw [List.append_nil] at hr; rw [hr] at hlt; omega
        have hn : parseCommand buf = .ok none :=
          encode_prefix_incomplete _ (hfit a List.mem_cons_self) buf r hne hr.symm
        refine ⟨[], a :: cmds, buf, rfl, ?_, he, hlt⟩
        simp only [syncDrain, hn]; rfl
      · obtain ⟨buf', hb⟩ := List.prefix_of_prefix_length_le h1 h2 (by omega)
        have hp := parseCommand_encode (hfit a List.mem_cons_self) buf'
        rw [hb] at hp
        have hd : buf.drop a.encode.length = buf' := by rw [← hb, List.drop_left]
        have hpos := List.length_pos_iff.2 a.encode_ne_nil
        obtain ⟨now, rest, buf'', e1, e2, e3, e4⟩ := ih buf' later cmds (Sys.apply cfg E p a)
          (by rw [← hb, List.length_append] at hf; omega) hfit'
          (by rw [← hb, List.append_assoc] at he'; exact List.append_cancel_left he')
        refine ⟨a :: now, rest, buf'', by rw [e1]; rfl, ?_, e3, e4⟩
        simp only [syncDrain, hp, hd]
        exact e2

theorem syncLoop_frames (cfg : Config) (E : Surroundings) (chunks : List Bytes) :
    ∀ (buf : Bytes) (cmds : List Argv) (p : ConnState × Sys σ), (∀ a ∈ cmds, a.Fits) →
      buf ++ chunks.flatten = encodeAll cmds → Short buf cmds →
      syncLoop cfg E chunks buf p = Sys.applyAll cfg E cmds p := by
  induction chunks with
  | nil =>
    intro buf cmds p _ he hs
    cases cmds with
    | nil => rfl
    | cons a cmds =>
      have h : buf = a.encode ++ encodeAll cmds := (List.append_nil buf).symm.trans he
      have : buf.length < a.encode.length := hs
      rw [h, List.length_append] at this; omega
  | cons chunk chunks ih =>
    intro buf cmds p hfit he hs
    rw [List.flatten_cons, ← List.append_assoc] at he
    obtain ⟨now, rest, buf', rfl, e2, e3, e4⟩ :=
      syncDrain_frames cfg E _ (buf ++ chunk) chunks.flatten cmds p le_rfl hfit he
    simp only [syncLoop, e2]
    rw [ih buf' rest _ (fun a ha => hfit a (List.mem_append_right _ ha)) e3 e4]
    simp only [Sys.applyAll, List.foldl_append]

/-- The replica applies the commands of the stream in order, however the stream
is cut into chunks. -/
theorem syncOnce_frames (cfg : Config) (E : Surroundings) (chunks : List Bytes) (cmds : List Argv)
    (s : Sys σ) (hfit : ∀ a ∈ cmds, a.Fits) (he : chunks.flatten = encodeAll cmds) :
    syncOnce cfg E chunks s = (Sys.applyAll cfg E cmds (ConnState.internal, s)).2 := by
  rw [syncOnce, syncLoop_frames cfg E chunks [] cmds _ hfit he]
  cases cmds with
  | nil => rfl
  | cons a cmds => exact List.length_pos_iff.2 a.encode_ne_nil

end

end Inmem.L4
