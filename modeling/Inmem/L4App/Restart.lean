import Inmem.L4App.Timeless

/-!
# Restarts

A server that keeps an append-only file is started and stopped again and again.
At each start it reads the append-only file if there is one, and the snapshot
only if there is none; opening the append-only file creates it. No command sets
a deadline.

* `Synced`: the keyspace is what the commands in the append-only file add up to.
  `request_synced`: one request keeps it; `start_synced`: the next start finds it.
* `recovery_across_restarts`: when the first start finds an append-only file, every
  start recovers what the lifetime before it left. Without one, this holds if and only if
  the first start loads nothing: what it loads from the snapshot is never logged, and
  from then on there is an append-only file.
-/
namespace Inmem.L4

open Inmem.Core Inmem.L1 Inmem.L1.Resp Inmem.L3

/-! ## Files that end with a complete command -/

/-- The replay loop reaches the end of the file. -/
inductive Whole : Bytes → Prop
  | nil : Whole []
  | step {data : Bytes} {argv : List Bytes} {consumed : Nat} :
    parseCommand data = .ok (some (argv, consumed)) → Whole (data.drop consumed) → Whole data

theorem Whole.append {data rest : Bytes} (h : Whole data) (hr : Whole rest) :
    Whole (data ++ rest) := by
  induction h with
  | nil => exact hr
  | @step data argv consumed hp _ ih =>
    refine .step (parseCommand_append rest hp) ?_
    rwa [List.drop_append_of_le_length (parseCommand_bounds hp).2]

theorem Whole.frames_append {data : Bytes} (h : Whole data) (rest : Bytes) :
    frames (data ++ rest) = frames data ++ frames rest := by
  induction h with
  | nil => rfl
  | @step data argv consumed hp _ ih =>
    have hp' := parseCommand_append rest hp
    have hd : (data ++ rest).drop consumed = data.drop consumed ++ rest :=
      List.drop_append_of_le_length (parseCommand_bounds hp).2
    cases argv with
    | nil => rw [frames_skip hp', frames_skip hp, hd, ih]
    | cons name args => rw [frames_cons hp', frames_cons hp, hd, ih]; rfl

theorem Argv.Fits.whole {a : Argv} (h : a.Fits) : Whole a.encode := by
  have hp := parseCommand_encode h []
  rw [List.append_nil] at hp
  refine .step hp ?_
  rw [List.drop_length]
  exact .nil

theorem whole_encodeAll {cmds : List Argv} (h : ∀ a ∈ cmds, a.Fits) : Whole (encodeAll cmds) := by
  induction cmds with
  | nil => exact .nil
  | cons a cmds ih =>
    exact (h a List.mem_cons_self).whole.append (ih fun b hb => h b (List.mem_cons_of_mem _ hb))

theorem Argv.Fits.frames {a : Argv} (h : a.Fits) : Inmem.L4.frames a.encode = [a] := by
  have := frames_encodeAll [a] (by simpa using h)
  simpa [encodeAll] using this

section
variable {σ : Type} [Score σ]

/-! ## Lifetimes -/

/-- One request, on a connection in whatever state. -/
def Node.request (srv : Server) (E : Surroundings) (n : Node σ) (r : ConnState × Argv) : Node σ :=
  (Conn.item srv E { st := r.1, node := n, out := [], status := .open } (.cmd r.2.1 r.2.2)).node

/-- A server from its start to its stop: the requests of all its clients, in the
order they are served. -/
structure Lifetime where
  srv : Server
  router : Bytes → UInt64
  hasher : Nat → Nat → Bytes → UInt64
  E : Surroundings
  requests : List (ConnState × Argv)

namespace Lifetime

/-- The server after its start. -/
def start (l : Lifetime) (d : Disk) : Node σ := bootstrap l.srv.cfg l.router l.hasher l.E d

/-- The server before its stop. -/
def stop (l : Lifetime) (d : Disk) : Node σ := l.requests.foldl (Node.request l.srv l.E) (l.start d)

variable (σ) in
/-- The files that the server leaves. -/
def files (l : Lifetime) (d : Disk) : Disk := (l.stop d : Node σ).disk d

variable (σ) in
/-- An unbounded server with an append-only file, without I/O errors, whose clients
set no deadlines. -/
structure Legal (l : Lifetime) : Prop where
  appendonly : l.srv.cfg.appendonly = true
  unbounded : l.srv.cfg.maxmemory = 0
  noError : ∀ i, (l.E i).ioError = none
  fits : ∀ r ∈ l.requests, r.2.Fits
  ttlFree : ∀ r ∈ l.requests, r.2.ttlFree σ

end Lifetime

variable (σ) in
/-- Each start after the first recovers the keyspace that the lifetime before it left. -/
def Recovers : Disk → List Lifetime → Prop
  | d, l :: m :: rest =>
    (m.start (l.files σ d) : Node σ).sys.world.store.raw = (l.stop d : Node σ).sys.world.store.raw ∧
      Recovers (l.files σ d) (m :: rest)
  | _, _ => True

/-! ## The file and the keyspace -/

variable (σ) in
/-- A file of complete commands that set no deadline. -/
structure Replayable (data : Bytes) : Prop where
  whole : Whole data
  ttlFree : ∀ a ∈ frames data, a.ttlFree σ

theorem Replayable.snoc {data : Bytes} (h : Replayable σ data) {a : Argv} (hf : a.Fits)
    (ha : a.ttlFree σ) : Replayable σ (data ++ a.encode) := by
  refine ⟨h.whole.append hf.whole, fun b hb => ?_⟩
  rw [h.whole.frames_append, hf.frames, List.mem_append, List.mem_singleton] at hb
  rcases hb with hb | rfl
  · exact h.ttlFree b hb
  · exact ha

/-- The keyspace is what the commands in the append-only file add up to. -/
structure Synced (n : Node σ) (data : Bytes) : Prop where
  good : n.sys.world.store.Good
  aof : n.aof = some data
  file : Replayable σ data
  raw : n.sys.world.store.raw = viewOf (frames data)
  timeless : n.sys.world.store.raw.Timeless

/-- A request keeps file and keyspace in step. -/
theorem request_synced (srv : Server) {E : Surroundings} (hio : ∀ i, (E i).ioError = none)
    {n : Node σ} {data : Bytes} (h : Synced n data) (st : ConnState) {a : Argv} (hf : a.Fits)
    (ha : a.ttlFree σ) : ∃ data', Synced (n.request srv E (st, a)) data' := by
  rcases item_cases srv hio { st, node := n, out := [], status := .open } a.1 a.2 with hs | hd
  · refine ⟨data, ?_, hs.aof.trans h.aof, h.file, ?_, ?_⟩
    all_goals rw [Node.request, hs.world]
    exacts [h.good, h.raw, h.timeless]
  · obtain ⟨h1, h2, h3⟩ := serve_timeless ha srv.cfg st E h.good h.timeless
    have haof := hd.aof
    rw [h.aof] at haof
    have hsys : (n.request srv E (st, a)).sys = (n.sys.exec E (serveCmd srv.cfg st a.1 a.2)).2 :=
      hd.sys
    cases hl : (n.sys.exec E (serveCmd srv.cfg st a.1 a.2)).1.write with
    | true =>
      rw [hl, if_pos rfl] at haof h3
      refine ⟨data ++ a.encode, hsys ▸ h1, haof, h.file.snoc hf ha, ?_, hsys ▸ h2⟩
      rw [hsys, h3, h.file.whole.frames_append, hf.frames, viewOf_snoc, ← h.raw]
    | false =>
      rw [hl, if_neg (by simp)] at haof h3
      exact ⟨data, hsys ▸ h1, haof, h.file, hsys ▸ h3.trans h.raw, hsys ▸ h2⟩

theorem requests_synced {srv : Server} {E : Surroundings} (hio : ∀ i, (E i).ioError = none)
    (reqs : List (ConnState × Argv)) : ∀ {n : Node σ} {data : Bytes}, (∀ r ∈ reqs, r.2.Fits) →
      (∀ r ∈ reqs, r.2.ttlFree σ) → Synced n data →
      ∃ data', Synced (reqs.foldl (Node.request srv E) n) data' := by
  induction reqs with
  | nil => intro n data _ _ h; exact ⟨data, h⟩
  | cons r reqs ih =>
    intro n data hf ha h
    obtain ⟨data', h'⟩ :=
      request_synced srv hio h r.1 (hf r List.mem_cons_self) (ha r List.mem_cons_self)
    exact ih (fun x hx => hf x (List.mem_cons_of_mem _ hx))
      (fun x hx => ha x (List.mem_cons_of_mem _ hx)) h'

/-- A start from a replayable append-only file is in step with it. -/
theorem start_synced {l : Lifetime} (hl : l.Legal σ) {data : Bytes} (h : Replayable σ data)
    (snapshot : Option Bytes) : Synced (l.start ⟨some data, snapshot⟩ : Node σ) data := by
  have hrec : recovered l.srv.cfg ⟨some data, snapshot⟩ = frames data := by
    simp [recovered, Disk.source, hl.appendonly]
  obtain ⟨h1, h2, h3⟩ := applyAll_empty hl.unbounded l.router l.hasher snapshot l.E h.ttlFree
  have hsys : (l.start ⟨some data, snapshot⟩ : Node σ).sys = _ := bootstrap_sys ..
  rw [hrec] at hsys
  exact ⟨hsys ▸ h1, by simp [Lifetime.start, bootstrap, hl.appendonly], h, hsys ▸ h2,
    hsys ▸ h2 ▸ h3⟩

/-- Without an append-only file, a start that loads nothing is in step with the
one it creates. -/
theorem start_created {l : Lifetime} (hl : l.Legal σ) {d : Disk} (hd : d.aof = none)
    (hg : (l.start d : Node σ).sys.world.store.Good)
    (h : (l.start d : Node σ).sys.world.store.raw = fun _ => none) :
    Synced (l.start d : Node σ) [] :=
  ⟨hg, by simp [Lifetime.start, bootstrap, hl.appendonly, hd], ⟨.nil, fun a ha => by cases ha⟩, h,
    by rw [h]; exact View.timeless_none⟩

theorem files_synced {l : Lifetime} {d : Disk} {data : Bytes}
    (h : Synced (l.stop d : Node σ) data) :
    l.files σ d = ⟨some data, (l.stop d : Node σ).sys.world.snapshot⟩ := by
  simp [Lifetime.files, Node.disk, h.aof]

/-- From a start that is in step with its file on, every start recovers what there was. -/
theorem recovers_synced (lives : List Lifetime) :
    ∀ {l : Lifetime} {d : Disk} {data : Bytes}, l.Legal σ →
    (∀ m ∈ lives, m.Legal σ) → Synced (l.start d : Node σ) data → Recovers σ d (l :: lives) := by
  induction lives with
  | nil => intro l d data _ _ _; trivial
  | cons m lives ih =>
    intro l d data hl hm h
    obtain ⟨data', h'⟩ : ∃ data', Synced (l.stop d : Node σ) data' :=
      requests_synced hl.noError l.requests hl.fits hl.ttlFree h
    have hnext :=
      start_synced (hm m List.mem_cons_self) h'.file (l.stop d : Node σ).sys.world.snapshot
    rw [← files_synced h'] at hnext
    exact ⟨hnext.raw.trans h'.raw.symm,
      ih (hm m List.mem_cons_self) (fun x hx => hm x (List.mem_cons_of_mem _ hx)) hnext⟩

theorem applyAll_good (cfg : Config) (E : Surroundings) (cmds : List Argv) :
    ∀ {p : ConnState × Sys σ},
    p.2.world.store.Good → (Sys.applyAll cfg E cmds p).2.world.store.Good := by
  induction cmds with
  | nil => exact fun h => h
  | cons a cmds ih => exact fun h => ih (p := Sys.apply cfg E _ a) (exec_keeps_good E _ h)

theorem start_good {l : Lifetime} (hl : l.Legal σ) (d : Disk) :
    (l.start d : Node σ).sys.world.store.Good := by
  have hsys : (l.start d : Node σ).sys = _ := bootstrap_sys ..
  rw [hsys]
  exact applyAll_good _ _ _ (Sys.empty_good hl.unbounded ..)

/-- **Recovery across restarts.** If there is an append-only file at the first start, it
ends with a complete command and sets no deadline. Then in every sequence of
lifetimes every start recovers the keyspace that the lifetime before it left, if
and only if there is an append-only file at the first start or that start loads
nothing. -/
theorem recovery_across_restarts (d : Disk) (haof : ∀ data ∈ d.aof, Replayable σ data) :
    (∀ lives : List Lifetime, (∀ l ∈ lives, l.Legal σ) → Recovers σ d lives) ↔
      (d.aof.isSome = true ∨
        ∀ l : Lifetime, l.Legal σ → (l.start d : Node σ).sys.world.store.raw = fun _ => none) := by
  obtain ⟨aof, snapshot⟩ := d
  constructor
  · intro h
    cases aof with
    | some data => exact .inl rfl
    | none =>
      refine .inr fun l hl => ?_
      -- the same server twice, without any request
      have hl' : ({ l with requests := [] } : Lifetime).Legal σ :=
        { hl with fits := fun r hr => (by cases hr), ttlFree := fun r hr => (by cases hr) }
      obtain ⟨h1, -⟩ :=
        h [{ l with requests := [] }, { l with requests := [] }] (by simpa using hl')
      have hfiles : ({ l with requests := [] } : Lifetime).files σ ⟨none, snapshot⟩ =
          ⟨some [], (l.start ⟨none, snapshot⟩ : Node σ).sys.world.snapshot⟩ := by
        simp [Lifetime.files, Node.disk, Lifetime.stop, Lifetime.start, bootstrap, hl.appendonly]
      rw [hfiles] at h1
      exact h1.symm.trans (start_synced hl' ⟨.nil, fun a ha => by cases ha⟩ _).raw
  · intro h lives hl
    cases lives with
    | nil => trivial
    | cons l lives =>
      have hl1 := hl l List.mem_cons_self
      have hls : ∀ m ∈ lives, m.Legal σ := fun m hm => hl m (List.mem_cons_of_mem _ hm)
      cases aof with
      | some data => exact recovers_synced lives hl1 hls (start_synced hl1 (haof data rfl) snapshot)
      | none =>
        have hnone := (h.resolve_left (by simp)) l hl1
        exact recovers_synced lives hl1 hls (start_created hl1 rfl (start_good hl1 _) hnone)

end

/-- A lifetime of a server with these requests. -/
def plainLife (requests : List (ConnState × Argv)) : Lifetime :=
  { srv := aofServer, router := fun _ => 0, hasher := fun _ _ _ => 0, E := fun _ => Env.plain 0,
    requests }

theorem plainLife_legal {requests : List (ConnState × Argv)} (hf : ∀ r ∈ requests, r.2.Fits)
    (ht : ∀ r ∈ requests, r.2.ttlFree Int) : (plainLife requests).Legal Int :=
  ⟨rfl, rfl, fun _ => rfl, hf, ht⟩

/-- The files of a server that has only ever saved a snapshot of one key. -/
def snapshotOnly : Disk := ⟨none, some (encodeAll [(lit "SET", [lit "k", lit "v"])])⟩

/-- With an append-only file, the next start finds what was written. -/
theorem recovery_counts :
    Recovers Int ⟨some (encodeAll [(lit "INCR", [lit "n"])]), none⟩
      [plainLife [(ConnState.new 1 true, (lit "INCR", [lit "n"])),
        (ConnState.new 1 true, (lit "SAVE", []))],
       plainLife []] :=
  (recovery_across_restarts _ fun data h => by
    obtain rfl := Option.some.inj h
    refine ⟨whole_encodeAll (by decide), fun a ha => ?_⟩
    rw [frames_encodeAll _ (by decide), List.mem_singleton] at ha
    rw [ha]
    decide).2 (.inl rfl) _ (by
      intro l hl
      simp only [List.mem_cons, List.not_mem_nil, or_false] at hl
      rcases hl with rfl | rfl <;> exact plainLife_legal (by decide) (by decide))

/-- With only a snapshot, the first start loads the key and the second one does not. -/
theorem restart_forgets_snapshot :
    (((plainLife []).start snapshotOnly : Node Int).sys.world.store.raw (lit "k")).isSome = true ∧
      (((plainLife []).stop snapshotOnly : Node Int).sys.world.store.raw (lit "k")).isSome = true ∧
      (((plainLife []).start ((plainLife []).files Int snapshotOnly) : Node Int).sys.world.store.raw
        (lit "k")).isSome = false := by
  decide +kernel

end Inmem.L4
