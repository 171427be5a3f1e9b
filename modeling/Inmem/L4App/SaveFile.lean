import Inmem.Core.Files
import Inmem.L4App.Restart
import Inmem.L4App.Snapshot

/-!
# How a snapshot gets onto the disk

`save_snapshot` writes the dump into a file beside the snapshot and then renames it, with one
system call after the other: each may fail, a write may take a part, and the server may crash
between any two. `Call.save` is the whole of it in one step.

* `save_refines`: a `SAVE` that has come to its end is that one step.
* `snapshot_durable`: clients use the store while a `SAVE` makes its calls, and the server
  crashes and starts again at any time. A start then finds the keyspace that the last
  `SAVE` which ended well has dumped.
* `overlapping_saves`: two `SAVE`s at a time can be answered with `OK` and lose everything.

The dump is taken in one step (`PointInTime` is about that), and a crash is one of the server, not
of the machine: what was written is there.
-/
namespace Inmem.L4

open Inmem.Core Inmem.Core.Serial Inmem.Core.Crash Inmem.Core.Files Inmem.L1 Inmem.L1.Resp Inmem.L3

/-! ## Names -/

/-- A file name at its last dot. -/
def rsplitDot (name : Bytes) : Option (Bytes × Bytes) :=
  match name.reverse.span (· != 46) with
  | (after, _ :: before) => some (before.reverse, after.reverse)
  | (_, []) => none

/-- A name that starts with its only dot has no extension. -/
def extension (name : Bytes) : Option Bytes :=
  match rsplitDot name with
  | some (before, after) => if before = [] ∨ name = lit ".." then none else some after
  | none => none

def fileStem (name : Bytes) : Bytes :=
  match rsplitDot name with
  | some (before, _) => if before = [] ∨ name = lit ".." then name else before
  | none => name

/-- `..` is not the name of a file, and stays. -/
def withExtension (name ext : Bytes) : Bytes :=
  if name = lit ".." then name else fileStem name ++ 46 :: ext

theorem rsplitDot_dot (stem : Bytes) {ext : Bytes} (h : (46 : UInt8) ∉ ext) :
    rsplitDot (stem ++ 46 :: ext) = some (stem, ext) := by
  have hext : ∀ b ∈ ext.reverse, (b != 46) = true :=
    fun b hb => bne_iff_ne.2 fun he => h (he ▸ List.mem_reverse.1 hb)
  have hspan : (stem ++ 46 :: ext).reverse.span (· != 46) = (ext.reverse, 46 :: stem.reverse) := by
    rw [List.reverse_append, List.reverse_cons, List.append_assoc, List.singleton_append,
      List.span_eq_takeWhile_dropWhile, List.takeWhile_append_of_pos hext,
      List.dropWhile_append_of_pos hext, List.takeWhile_cons_of_neg (by simp),
      List.dropWhile_cons_of_neg (by simp), List.append_nil]
  rw [rsplitDot, hspan]
  simp only [List.reverse_reverse]

/-- The file beside the snapshot is another one, unless the snapshot has its extension. -/
theorem withExtension_ne {name ext : Bytes} (hext : (46 : UInt8) ∉ ext) (hdots : name ≠ lit "..")
    (h : extension name ≠ some ext) : name ≠ withExtension name ext := by
  intro he
  rw [withExtension, if_neg hdots] at he
  have hsplit := rsplitDot_dot (fileStem name) hext
  rw [← he] at hsplit
  have hstem : fileStem name ≠ [] := by
    intro h0
    have hname : fileStem name = name := by
      conv_lhs => rw [fileStem, hsplit]
      exact if_pos (.inl h0)
    rw [← hname, h0] at he
    cases he
  refine h ?_
  rw [extension, hsplit]
  exact if_neg (by simp [hstem, hdots])

example : withExtension (lit "inmem.snapshot") (lit "tmp") = lit "inmem.tmp" := by decide

-- a snapshot that is named like this is written in place
example : withExtension (lit "dump.tmp") (lit "tmp") = lit "dump.tmp" := by decide

/-! ## `save_snapshot` -/

/-- The size of a `BufWriter`'s buffer. -/
def BUF_SIZE : Nat := 8 * 1024

abbrev SaveProg := FileProg Bytes UInt8 Bytes (Except (Failure Bytes) Unit)

/-- The file beside the snapshot, mirrors crates/server/src/persistence.rs:99 -/
def tmpPath (path : Bytes) : Bytes := withExtension path (lit "tmp")

/-- mirrors crates/server/src/persistence.rs:98-106; names are those in the directory of the
snapshot. -/
def saveSnapshot (path : Bytes) : SaveProg := replace BUF_SIZE (tmpPath path) path

theorem tmpPath_ne {path : Bytes} (hdots : path ≠ lit "..")
    (hext : extension path ≠ some (lit "tmp")) : path ≠ tmpPath path :=
  withExtension_ne (by decide) hdots hext

/-- The text of an `io::Error`. -/
def failureText : Failure Bytes → Bytes
  | .missing => lit "No such file or directory (os error 2)"
  | .zero true => lit "failed to write the buffered data"
  | .zero false => lit "failed to write whole buffer"
  | .other e => e

/-! ## A store with one key -/

def oneKey : Store Int :=
  (runCalls [(Env.plain 0, .key (lit "k") (.set (lit "v") {}))]
    ⟨Store.new 1 0 (fun _ => 0) (fun _ _ _ => 0), none⟩).store

theorem oneKey_good : oneKey.Good := runCalls_good _ (new_good ..)

/-- An empty directory. -/
def noFiles : Fs Bytes UInt8 :=
  ⟨fun _ => none, fun _ => [], 0, (fun _ _ h => by cases h), (fun _ _ _ h => by cases h)⟩

section
variable {σ : Type} [Score σ]

/-- A store and the surroundings it is dumped in. -/
abbrev Moment (σ : Type) [Score σ] := Store σ × Env

def Moment.dump (d : Moment σ) : Bytes := d.1.dumpCommands d.2

/-- The directory of the snapshot, and what the last dump was of. -/
abbrev DiskSite (σ : Type) [Score σ] := Site Bytes UInt8 (Moment σ)

/-- One system call of a `SAVE`, or its dump. -/
def diskCall :
    Fate Bytes × Moment σ → (c : Files.Call Bytes UInt8) → DiskSite σ → Res Bytes c × DiskSite σ :=
  exec Moment.dump

variable {path : Bytes}

/-- What is certain of a `SAVE` that dumps a moment with `P`. -/
theorem saveSnapshot_spec (hpath : path ≠ tmpPath path) (P : Moment σ → Prop) (site : DiskSite σ) :
    Guarded diskCall (fun e => P e.2) (Kept (tmpPath path) site.fs)
      (Replaced Moment.dump P (tmpPath path) path site.fs) (saveSnapshot path) site :=
  replace_spec BUF_SIZE hpath site

/-- The error that the step of the whole is given for it. -/
def saveError : Except (Failure Bytes) Unit → Option Bytes
  | .ok () => none
  | .error e => some (failureText e)

/-- **Refinement.** A `SAVE` on its own, of a snapshot that is not itself named like the file
beside it, comes to its end, whatever becomes of its system calls: it answers like `Call.save`,
and leaves the same snapshot. -/
theorem save_refines (hpath : path ≠ tmpPath path) (env : Env) (w : World σ) {site : DiskSite σ}
    (hw : site.fs.read path = w.snapshot) (fates : List (Fate Bytes))
    (hlen : 2 * (w.store.dumpCommands env).length + 3 ≤ fates.length) :
    let ended := alone diskCall (fates.map fun f => (f, (w.store, env))) (saveSnapshot path) site
    ∃ r, result ended.1 = some r ∧
      (L3.Call.save : L3.Call σ).exec { env with ioError := saveError r } w =
      (r.mapError failureText, { w with snapshot := ended.2.fs.read path }) := by
  intro ended
  have hall : ∀ e ∈ fates.map fun f => (f, (w.store, env)), e.2 = (w.store, env) := by simp
  have hends : Ends diskCall (fun e => e.2 = (w.store, env)) _ (saveSnapshot path) site :=
    replace_ends BUF_SIZE (P := (· = (w.store, env))) (by rintro d rfl; exact Nat.le_refl _) site
  obtain ⟨r, hr⟩ := hends.alone _ hall (by rwa [List.length_map])
  have hg := ((saveSnapshot_spec hpath (· = (w.store, env)) site).alone _ hall).result hr
  refine ⟨r, hr, ?_⟩
  cases r with
  | error e =>
    have hkept : ended.2.fs.read path = site.fs.read path := hg path hpath
    rw [hkept, hw]
    rfl
  | ok u =>
    obtain ⟨d, rfl, -, hread, -⟩ := hg
    rw [show ended.2.fs.read path = _ from hread]
    rfl

/-- The disk is full when a part of the dump has been written. -/
theorem save_refines_full :
    let fates : List (Fate Bytes) :=
      [.takes 0, .takes 0, .takes 9] ++ List.replicate 60 (.fails (lit "disk full"))
    let ended :=
      alone diskCall (fates.map fun f => (f, (oneKey, Env.plain 1)))
        (saveSnapshot (lit "inmem.snapshot"))
      ⟨noFiles, none⟩
    ∃ r, result ended.1 = some r ∧
      (L3.Call.save : L3.Call Int).exec { Env.plain 1 with ioError := saveError r } ⟨oneKey, none⟩ =
      (r.mapError failureText, ⟨oneKey, ended.2.fs.read (lit "inmem.snapshot")⟩) :=
  save_refines (by decide) (Env.plain 1) ⟨oneKey, none⟩ rfl _ (by decide +kernel)

/-! ## Crashes -/

/-- A server that keeps no append-only file, and the directory. One `SAVE` runs at a time. -/
structure Host (σ : Type) [Score σ] where
  store : Store σ
  site : DiskSite σ
  saver : Option SaveProg
  /-- ghost: what the last `SAVE` that ended well has dumped -/
  saved : Option (Moment σ)

inductive HostEvent (σ : Type)
  /-- a client makes a call on the store -/
  | call (env : Env) (c : L3.Call σ)
  /-- a client sends a `SAVE` -/
  | save
  /-- the `SAVE` makes its next call -/
  | next (env : Env) (fate : Fate Bytes)
  /-- the server crashes and is started again -/
  | restart (cfg : Config) (router : Bytes → UInt64) (hasher : Nat → Nat → Bytes → UInt64)
    (E : Surroundings)

/-- The files that a start finds. -/
def Host.disk (path : Bytes) (h : Host σ) : Disk := ⟨none, h.site.fs.read path⟩

/-- The `SAVE` that is running makes its next call. -/
def Host.next (h : Host σ) (e : Fate Bytes × Moment σ) (p : SaveProg) :
    Host σ :=
  let r := advance diskCall e p h.site
  match r.1 with
  | .pure (.ok ()) => { h with site := r.2, saver := none, saved := r.2.made }
  | .pure (.error _) => { h with site := r.2, saver := none }
  | .call c k => { h with site := r.2, saver := some (.call c k) }

def Host.step (path : Bytes) (h : Host σ) : HostEvent σ → Host σ
  | .call env c => { h with store := (c.exec env ⟨h.store, h.site.fs.read path⟩).2.store }
  | .save => { h with saver := h.saver.or (some (saveSnapshot path)) }
  | .next env fate => h.saver.elim h (h.next (fate, (h.store, env)))
  | .restart cfg router hasher E =>
    { h with store := (bootstrap cfg router hasher E (h.disk path) : Node σ).sys.world.store,
             saver := none }

def Host.run (path : Bytes) (events : List (HostEvent σ)) (h : Host σ) : Host σ :=
  events.foldl (Host.step path) h

/-- Every start is one of an unbounded server. -/
def HostEvent.unbounded : HostEvent σ → Prop
  | .restart cfg _ _ _ => cfg.maxmemory = 0
  | _ => True

/-- A `SAVE` is running that started beside the snapshot of `saved`. -/
def Running (path : Bytes) (site : DiskSite σ) (saved : Option (Moment σ))
    (p : SaveProg) : Prop :=
  ∃ fs₀ : Fs Bytes UInt8, fs₀.read path = saved.map Moment.dump ∧
    Guarded diskCall (fun e => e.2.1.Good) (Kept (tmpPath path) fs₀)
      (Replaced Moment.dump (·.1.Good) (tmpPath path) path fs₀) p site

/-- At every moment the snapshot is the dump of the last `SAVE` that ended well. -/
structure Durable (path : Bytes) (h : Host σ) : Prop where
  file : h.site.fs.read path = h.saved.map Moment.dump
  good : h.store.Good
  savedGood : ∀ d ∈ h.saved, d.1.Good
  running : ∀ p ∈ h.saver, Running path h.site h.saved p

theorem Durable.next (hpath : path ≠ tmpPath path) {h : Host σ} (hd : Durable path h) (env : Env)
    (fate : Fate Bytes) {p : SaveProg} (hp : h.saver = some p) :
    Durable path (h.next (fate, (h.store, env)) p) := by
  obtain ⟨fs₀, hfs, hguard⟩ := hd.running p hp
  have hnext := hguard.advance (e := (fate, (h.store, env))) hd.good
  unfold Host.next
  generalize advance diskCall (fate, (h.store, env)) p h.site = r at hnext
  obtain ⟨q, site⟩ := r
  rcases q with ⟨e | u⟩ | ⟨c, k⟩
  · exact ⟨(hnext path hpath).trans hfs, hd.good, hd.savedGood, fun _ h => by cases h⟩
  · obtain ⟨d, hgood, hmade, hread, -⟩ := hnext
    refine ⟨?_, hd.good, ?_, fun _ h => by cases h⟩
    · show site.fs.read path = site.made.map Moment.dump
      rw [hmade, hread]
      rfl
    · show ∀ d ∈ site.made, d.1.Good
      rw [hmade]
      intro d' hd'
      cases hd'
      exact hgood
  · refine ⟨(hnext.1 path hpath).trans hfs, hd.good, hd.savedGood, fun p' hp' => ?_⟩
    cases hp'
    exact ⟨fs₀, hfs, hnext⟩

theorem Durable.step (hpath : path ≠ tmpPath path) {h : Host σ} (hd : Durable path h)
    {e : HostEvent σ} (he : e.unbounded) : Durable path (h.step path e) := by
  cases e with
  | call env c => exact ⟨hd.file, exec_good env c hd.good, hd.savedGood, hd.running⟩
  | save =>
    refine ⟨hd.file, hd.good, hd.savedGood, fun p hp => ?_⟩
    cases hs : h.saver with
    | some p' =>
      have hpp : p' = p := by simpa [Host.step, hs] using hp
      exact hpp ▸ hd.running p' hs
    | none =>
      have hpp : saveSnapshot path = p := by simpa [Host.step, hs] using hp
      exact hpp ▸ ⟨h.site.fs, hd.file, saveSnapshot_spec hpath (·.1.Good) h.site⟩
  | next env fate =>
    cases hs : h.saver with
    | none => simpa [Host.step, hs] using hd
    | some p => simpa [Host.step, hs] using hd.next hpath env fate hs
  | restart cfg router hasher E =>
    refine ⟨hd.file, ?_, hd.savedGood, fun _ h => by cases h⟩
    show (bootstrap cfg router hasher E (h.disk path) : Node σ).sys.world.store.Good
    rw [bootstrap_sys]
    exact applyAll_good _ _ _ (Sys.empty_good he ..)

theorem durable_run (hpath : path ≠ tmpPath path) (events : List (HostEvent σ))
    (hun : ∀ e ∈ events, e.unbounded) {h : Host σ} (hd : Durable path h) :
    Durable path (h.run path events) := by
  induction events generalizing h with
  | nil => exact hd
  | cons e events ih =>
    exact ih (fun x hx => hun x (List.mem_cons_of_mem _ hx))
      (hd.step hpath (hun e List.mem_cons_self))

/-- A start from the dump of a store, when it can be read back. -/
theorem bootstrap_dump {cfg : Config} (hmem : cfg.maxmemory = 0) (haof : cfg.appendonly = false)
    (router : Bytes → UInt64) (hasher : Nat → Nat → Bytes → UInt64) (E : Surroundings)
    {d : Moment σ} (hg : d.1.Good) (hload : Dumpable d.2 d.1) :
    (bootstrap cfg router hasher E ⟨none, some d.dump⟩ : Node σ).sys.world.store.raw =
      d.1.raw.at d.2.now := by
  have hcmds : recovered cfg ⟨none, some d.dump⟩ = snapshotCmds d.2 d.1 := by
    rw [recovered, Disk.source, haof]
    show frames (d.1.dumpCommands d.2) = _
    rw [dumpCommands_eq hg.routed, frames_encodeAll _ (snapshotCmds_fits hload)]
  rw [bootstrap_sys, hcmds]
  exact (apply_dump cfg E hg d.2 hload.legible _ (Sys.empty_good hmem ..)).raw_eq (Sys.empty_raw ..)
    (fun k hk => (Store.mem_keys hg.routed _).2 hk) fun k r hr => (hload k r hr).sent

/-- **Snapshots are durable.** Clients use an unbounded store and send `SAVE`s, one at a time;
each system call may fail or be cut short, and the server may crash at any time and start again.
There is no snapshot at first, and its name is not that of the file beside it. Then a start
without an append-only file, with any layout, finds, from the time of the dump on, the keyspace
that the last `SAVE` which ended well has dumped (if that can be read back); and nothing, if
there was none. -/
theorem snapshot_durable (hdots : path ≠ lit "..") (hext : extension path ≠ some (lit "tmp"))
    (s : Store σ) (hs : s.Good) (fs : Fs Bytes UInt8) (hfs : fs.read path = none)
    (events : List (HostEvent σ)) (hun : ∀ e ∈ events, e.unbounded) {cfg : Config}
    (hmem : cfg.maxmemory = 0) (haof : cfg.appendonly = false) (router : Bytes → UInt64)
    (hasher : Nat → Nat → Bytes → UInt64) (E : Surroundings) :
    let h := Host.run path events ⟨s, ⟨fs, none⟩, none, none⟩
    let started : Node σ := bootstrap cfg router hasher E (h.disk path)
    (h.saved = none → started.sys.world.store.raw = fun _ => none) ∧
      ∀ d, h.saved = some d → Dumpable d.2 d.1 →
        ∀ T, d.2.now ≤ T → started.sys.world.store.raw.at T = d.1.raw.at T := by
  intro h started
  have hpath := tmpPath_ne hdots hext
  have hd : Durable path h :=
    durable_run hpath events hun ⟨hfs, hs, (fun _ hx => by cases hx), (fun _ hx => by cases hx)⟩
  refine ⟨fun hnone => ?_, fun d hsome hload T hT => ?_⟩
  · have hdisk : h.disk path = ⟨none, none⟩ := by rw [Host.disk, hd.file, hnone]; rfl
    show (bootstrap cfg router hasher E (h.disk path) : Node σ).sys.world.store.raw = _
    rw [hdisk, bootstrap_fresh, Sys.empty_raw]
  · have hdisk : h.disk path = ⟨none, some d.dump⟩ := by rw [Host.disk, hd.file, hsome]; rfl
    show (bootstrap cfg router hasher E (h.disk path) : Node σ).sys.world.store.raw.at T = _
    rw [hdisk, bootstrap_dump hmem haof router hasher E (hd.savedGood d hsome) hload, View.at_at hT]

/-- The key is dumped and deleted before the `SAVE` has ended; the server crashes in the
middle of the next one. -/
def savedThenCrashed : List (HostEvent Int) :=
  [.save, .next (Env.plain 1) (.takes 0), .next (Env.plain 1) (.takes 0),
    .next (Env.plain 1) (.takes 9), .call (Env.plain 2) (.key (lit "k") .del),
    .next (Env.plain 2) (.takes 99), .next (Env.plain 2) (.takes 0), .save,
    .next (Env.plain 3) (.takes 0), .next (Env.plain 3) (.takes 0)]

def crashedHost : Host Int :=
  Host.run (lit "inmem.snapshot") savedThenCrashed ⟨oneKey, ⟨noFiles, none⟩, none, none⟩

theorem crashedHost_saved : crashedHost.saved.isSome = true := by decide +kernel

theorem snapshot_durable_crashed :
    let d := crashedHost.saved.get crashedHost_saved
    let started : Node Int := bootstrap { loggingConfig with appendonly := false, shards := 2 }
      (fun k => if k = [] then 0 else 1) (fun _ _ _ => 0) (fun i => Env.plain (7 * i))
        (crashedHost.disk (lit "inmem.snapshot"))
    (d.1.raw.at 9 (lit "k")).isSome = true ∧ started.sys.world.store.raw.at 9 = d.1.raw.at 9 := by
  intro d started
  have hun : ∀ e ∈ savedThenCrashed, e.unbounded := by simp [savedThenCrashed, HostEvent.unbounded]
  have hd : Durable (lit "inmem.snapshot") crashedHost :=
    durable_run (by decide) savedThenCrashed hun
      ⟨rfl, oneKey_good, (fun _ hx => by cases hx), (fun _ hx => by cases hx)⟩
  have hsaved : crashedHost.saved = some d := (Option.some_get _).symm
  have hload : Dumpable d.2 d.1 :=
    (dumpable_iff (hd.savedGood d hsaved).routed).2 (by decide +kernel)
  refine ⟨by decide +kernel, ?_⟩
  exact (snapshot_durable (by decide)
    (by decide) oneKey oneKey_good noFiles rfl savedThenCrashed hun rfl rfl _ _ _).2 d
    hsaved hload 9 (by decide +kernel)

/-- **Overlapping `SAVE`s.** For every store with something to dump, two `SAVE`s can run side by
side, without any error, such that the first is answered with `OK`, the snapshot is empty and a
start finds nothing. -/
theorem overlapping_saves (hdots : path ≠ lit "..") (hext : extension path ≠ some (lit "tmp"))
    (fs : Fs Bytes UInt8) {d : Moment σ} (hd : d.dump ≠ []) :
    ∃ sched : List (Bool × Fate Bytes × Moment σ),
      (∀ x ∈ sched, x.2.2 = d ∧ ∀ e, x.2.1 ≠ .fails e) ∧
      let m := interleave diskCall sched (fun _ => saveSnapshot path, ⟨fs, none⟩)
      m.1 true = .pure (.ok ()) ∧ m.2.fs.read path = some [] ∧
        ∀ (cfg : Config) (router : Bytes → UInt64) (hasher : Nat → Nat → Bytes → UInt64)
          (E : Surroundings),
          (bootstrap cfg router hasher E ⟨none, m.2.fs.read path⟩ : Node σ).sys.world.store.raw =
            fun _ => none := by
  have hpath := tmpPath_ne hdots hext
  obtain ⟨hok, hread⟩ := replace_overlap (X := Bytes) BUF_SIZE hpath ⟨fs, none⟩ hd
  refine ⟨_, ?_, hok, hread, fun cfg router hasher E => ?_⟩
  · simp
  · show (bootstrap cfg router hasher E ⟨none, _⟩ : Node σ).sys.world.store.raw = _
    have hnothing : recovered cfg ⟨none, some []⟩ = [] := by
      cases h : cfg.appendonly <;> simp [recovered, Disk.source, h] <;> rfl
    rw [show (interleave diskCall _
      (fun _ => saveSnapshot path, (⟨fs, none⟩ : DiskSite σ))).2.fs.read path = some [] from hread,
      bootstrap_sys, hnothing]
    exact Sys.empty_raw ..

theorem overlapping_saves_one :
    ∃ sched : List (Bool × Fate Bytes × Moment Int),
      (∀ x ∈ sched, x.2.2 = (oneKey, Env.plain 1) ∧ ∀ e, x.2.1 ≠ .fails e) ∧
      let m :=
        interleave diskCall sched (fun _ => saveSnapshot (lit "inmem.snapshot"), ⟨noFiles, none⟩)
      m.1 true = .pure (.ok ()) ∧ m.2.fs.read (lit "inmem.snapshot") = some [] ∧
        ∀ (cfg : Config) (router : Bytes → UInt64) (hasher : Nat → Nat → Bytes → UInt64)
          (E : Surroundings),
          (bootstrap cfg router hasher E
            ⟨none, m.2.fs.read (lit "inmem.snapshot")⟩ : Node Int).sys.world.store.raw =
            fun _ => none :=
  overlapping_saves (by decide) (by decide) noFiles (d := (oneKey, Env.plain 1)) (by decide +kernel)

end

end Inmem.L4
