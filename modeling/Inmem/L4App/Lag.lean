import Inmem.Core.Journal
import Inmem.L4App.Registry
import Inmem.L4App.Restart
import Inmem.L4App.Snapshot

/-!
# What a crash and a replica see

The append-only file and the feed of a replica are journals of the same run. Whoever has read a
front part of one sees the keyspace as the server had it after some of its requests: the
next start after a crash that cut the file, and a replica that is behind. No command sets a
deadline, and the server serves one request at a time.

* `request_logs`: what one request appends to the file and to every feed, and that the
  keyspace changes by it alone;
* `crash_consistent`: the next start has every request whose record was on disk, and
  no other;
* `replica_consistent`: a replica has every request that it has been sent completely, and
  no other.
-/
namespace Inmem.L4

open Inmem.Core Inmem.L1 Inmem.L1.Resp Inmem.L3

variable {σ : Type} [Score σ]

/-! ## One request -/

/-- The gates before a command: it is no `SYNC`, may run unauthenticated, and is not a
client's write to a replica. -/
def Server.admits (srv : Server) (st : ConnState) (name : Bytes) : Bool :=
  !(isSync name || (!st.authenticated && !isPreauthOk (upperName name)) ||
    (srv.cfg.replicaof.isSome && isWriteCommand (upperName name)))

/-- The record of a request: the command, if it was served and flagged as a write. -/
def Node.records (srv : Server) (E : Surroundings) (n : Node σ) (r : ConnState × Argv) :
    List Argv :=
  if srv.admits r.1 r.2.1 && (n.sys.exec E (serveCmd srv.cfg r.1 r.2.1 r.2.2)).1.write then [r.2]
  else []

/-- `log` is what was appended between `n` and `n'`. -/
structure Logged (n n' : Node σ) (log : List Argv) : Prop where
  aof : n'.aof = n.aof.map (· ++ encodeAll log)
  feeds : ∃ new, n'.replicas = n.replicas.map (· ++ encodeAll log) ++ new

theorem Logged.refl (n : Node σ) : Logged n n [] := by
  refine ⟨?_, [], ?_⟩ <;> simp [encodeAll]

theorem Logged.trans {n₁ n₂ n₃ : Node σ} {log log' : List Argv} (h : Logged n₁ n₂ log)
    (h' : Logged n₂ n₃ log') : Logged n₁ n₃ (log ++ log') := by
  obtain ⟨new, hnew⟩ := h.feeds
  obtain ⟨new', hnew'⟩ := h'.feeds
  refine ⟨?_, new.map (· ++ encodeAll log') ++ new', ?_⟩
  · rw [h'.aof, h.aof, Option.map_map]
    simp only [Function.comp_def, List.append_assoc, encodeAll_append]
  · rw [hnew', hnew, List.map_append, List.map_map, List.append_assoc]
    simp only [Function.comp_def, List.append_assoc, encodeAll_append]

theorem command_admitted {srv : Server} {c : Conn σ} {name : Bytes}
    (h : srv.admits c.st name = true) (E : Surroundings) (args : List Bytes) :
    c.command srv E name args = c.perform srv E name args := by
  simp only [Server.admits, Bool.not_eq_true', Bool.or_eq_false_iff] at h
  obtain ⟨⟨hsync, hauth⟩, hwrite⟩ := h
  unfold Conn.command
  rw [hsync, hauth, hwrite]
  rfl

/-- A command that is turned away changes no record and appends nothing; a `SYNC` adds a feed. -/
theorem command_refused {srv : Server} {c : Conn σ} {name : Bytes}
    (h : srv.admits c.st name = false) (E : Surroundings) (args : List Bytes) :
    Logged c.node (c.command srv E name args).node [] ∧
      (c.command srv E name args).node.sys.world = c.node.sys.world := by
  unfold Conn.command
  split
  · split
    · exact ⟨⟨by simp [encodeAll], _, by simp [encodeAll]; rfl⟩, rfl⟩
    · exact ⟨.refl _, rfl⟩
  · rename_i hsync
    split
    · exact ⟨.refl _, rfl⟩
    · rename_i hauth
      split
      · exact ⟨.refl _, rfl⟩
      · rename_i hwrite
        simp only [Server.admits, Bool.not_eq_false', Bool.or_eq_true, or_assoc] at h
        rcases h with h | h | h
        exacts [absurd h hsync, absurd h hauth, absurd h hwrite]

/-- A command past the gates. -/
theorem perform_logs (srv : Server) {E : Surroundings} (hio : ∀ i, (E i).ioError = none)
    (c : Conn σ) (name : Bytes) (args : List Bytes) :
    Logged c.node (c.perform srv E name args).node
        (if (c.node.sys.exec E (serveCmd srv.cfg c.st name args)).1.write then [(name, args)]
          else []) ∧
      (c.perform srv E name args).node.sys =
        (c.node.sys.exec E (serveCmd srv.cfg c.st name args)).2 := by
  unfold Conn.perform
  dsimp only
  have hexec : (c.node.exec E (serveCmd srv.cfg c.st name args)).1 =
      (c.node.sys.exec E (serveCmd srv.cfg c.st name args)).1 := rfl
  rw [hexec]
  by_cases hw : (c.node.sys.exec E (serveCmd srv.cfg c.st name args)).1.write = true
  · rw [if_pos hw, if_pos hw, Node.logWrite_eq hio]
    exact ⟨⟨by simp [Node.propagate, Node.append, Node.exec, encodeAll, Argv.encode], [],
      by simp [Node.propagate, Node.append, Node.exec, encodeAll, Argv.encode]⟩, rfl⟩
  · rw [if_neg hw, if_neg hw]
    exact ⟨⟨by simp [Node.exec, encodeAll], [], by simp [Node.exec, encodeAll]⟩, rfl⟩

/-- What a request appends to the file and to every feed. -/
theorem request_logs (srv : Server) {E : Surroundings} (hio : ∀ i, (E i).ioError = none)
    (n : Node σ) (r : ConnState × Argv) : Logged n (n.request srv E r) (n.records srv E r) := by
  let c : Conn σ := { st := r.1, node := n, out := [], status := .open }
  show Logged n (c.command srv E r.2.1 r.2.2).node _
  unfold Node.records
  cases h : srv.admits r.1 r.2.1 with
  | false => exact (command_refused (c := c) h E r.2.2).1
  | true =>
    rw [command_admitted (c := c) h, Bool.true_and]
    exact (perform_logs srv hio c r.2.1 r.2.2).1

/-- The keyspace is without deadlines, and so is the next one; it changes by what is logged. -/
theorem request_view (srv : Server) {E : Surroundings} (hio : ∀ i, (E i).ioError = none)
    {n : Node σ} {r : ConnState × Argv} (hg : n.sys.world.store.Good)
    (ht : n.sys.world.store.raw.Timeless) (ha : r.2.ttlFree σ) :
    (n.request srv E r).sys.world.store.Good ∧ (n.request srv E r).sys.world.store.raw.Timeless ∧
      (n.request srv E r).sys.world.store.raw =
        (n.records srv E r).foldl afterCmd n.sys.world.store.raw := by
  let c : Conn σ := { st := r.1, node := n, out := [], status := .open }
  have hreq : (n.request srv E r) = (c.command srv E r.2.1 r.2.2).node := rfl
  unfold Node.records
  rw [hreq]
  cases h : srv.admits r.1 r.2.1 with
  | false =>
    rw [(command_refused (c := c) h E r.2.2).2]
    exact ⟨hg, ht, rfl⟩
  | true =>
    obtain ⟨h1, h2, h3⟩ := serve_timeless ha srv.cfg r.1 E hg ht
    rw [command_admitted (c := c) h, (perform_logs srv hio c r.2.1 r.2.2).2, Bool.true_and]
    refine ⟨h1, h2, h3.trans ?_⟩
    split <;> rfl

/-! ## A run -/

/-- The server as a machine that keeps a journal of its writes. -/
def Node.journal (srv : Server) (E : Surroundings) :
    Journal (Node σ) (ConnState × Argv) Argv (View σ) where
  step := Node.request srv E
  entries := Node.records srv E
  view n := n.sys.world.store.raw
  apply := afterCmd

theorem journal_sound (srv : Server) {E : Surroundings} (hio : ∀ i, (E i).ioError = none) :
    (Node.journal srv E).Sound (fun n : Node σ => n.sys.world.store.Good ∧
      n.sys.world.store.raw.Timeless)
      fun r => r.2.ttlFree σ where
  keeps _ _ h ha := ⟨(request_view srv hio h.1 h.2 ha).1, (request_view srv hio h.1 h.2 ha).2.1⟩
  view _ _ h ha := (request_view srv hio h.1 h.2 ha).2.2
  single n r := by
    show (n.records srv E r).length ≤ 1
    unfold Node.records
    split <;> simp

theorem requests_log (srv : Server) {E : Surroundings} (hio : ∀ i, (E i).ioError = none)
    (reqs : List (ConnState × Argv)) :
    ∀ n : Node σ, Logged n (reqs.foldl (Node.request srv E) n)
      ((Node.journal srv E).log n reqs) := by
  induction reqs with
  | nil => exact Logged.refl
  | cons r reqs ih => exact fun n => (request_logs srv hio n r).trans (ih _)

theorem records_mem {srv : Server} {E : Surroundings} {n : Node σ} {r : ConnState × Argv} {a : Argv}
    (h : a ∈ n.records srv E r) : a = r.2 := by
  unfold Node.records at h
  split at h
  · exact List.mem_singleton.1 h
  · cases h

theorem log_of_requests (srv : Server) (E : Surroundings) {P : Argv → Prop}
    {reqs : List (ConnState × Argv)} (h : ∀ r ∈ reqs, P r.2) (n : Node σ) :
    ∀ a ∈ (Node.journal srv E).log n reqs, P a := by
  intro a ha
  obtain ⟨r, hr, s, hs⟩ := Journal.exists_of_mem_log reqs n ha
  exact records_mem hs ▸ h r hr

/-- The records that are complete in the first `k` bytes of a run's journal are those of its first
`i` requests, and lead to the keyspace after them. -/
theorem journal_cut (srv : Server) {E : Surroundings} (hio : ∀ i, (E i).ioError = none) {n : Node σ}
    {reqs : List (ConnState × Argv)} (hg : n.sys.world.store.Good)
    (ht : n.sys.world.store.raw.Timeless) (ha : ∀ r ∈ reqs, r.2.ttlFree σ) (k : Nat) :
    ∃ i ≤ reqs.length,
      (complete ((Node.journal srv E).log n reqs) k).foldl afterCmd n.sys.world.store.raw =
        ((reqs.take i).foldl (Node.request srv E) n).sys.world.store.raw ∧
      ∀ j ≤ reqs.length, (encodeAll ((Node.journal srv E).log n (reqs.take j))).length ≤ k ↔
      j ≤ i := by
  obtain ⟨m, hm, hcomplete, hbytes⟩ := complete_eq_take ((Node.journal srv E).log n reqs) k
  obtain ⟨i, hi, hview, hiff⟩ := (journal_sound srv hio).cut (s := n) ⟨hg, ht⟩ ha hm
  refine ⟨i, hi, hcomplete ▸ hview, fun j hj => ?_⟩
  have hpre := Journal.log_take_isPrefix (J := Node.journal srv E) reqs n j
  rw [← hiff j hj, hbytes _ hpre.length_le, ← List.prefix_iff_eq_take.1 hpre]

/-! ## A crash -/

theorem replayable_encodeAll {cmds : List Argv} (hfit : ∀ a ∈ cmds, a.Fits)
    (hfree : ∀ a ∈ cmds, a.ttlFree σ) : Replayable σ (encodeAll cmds) :=
  ⟨whole_encodeAll hfit, by rwa [frames_encodeAll _ hfit]⟩

namespace Lifetime

/-- The server after its first `i` requests. -/
def after (l : Lifetime) (d : Disk) (i : Nat) : Node σ :=
  (l.requests.take i).foldl (Node.request l.srv l.E) (l.start d)

theorem stop_eq_after (l : Lifetime) (d : Disk) :
    (l.stop d : Node σ) = l.after d l.requests.length := by
  rw [after, List.take_length, stop]

end Lifetime

/-- Two increments and a read. -/
def counting : List (ConnState × Argv) :=
  [(ConnState.new 1 true, lit "INCR", [lit "n"]), (ConnState.new 1 true, lit "GET", [lit "n"]),
    (ConnState.new 2 true, lit "INCR", [lit "n"])]

/-- The file after the first `j` requests. -/
theorem after_aof {l : Lifetime} (hl : l.Legal σ) {data : Bytes} (hdata : Replayable σ data)
    (snapshot : Option Bytes) (j : Nat) :
    (l.after ⟨some data, snapshot⟩ j : Node σ).aof =
      some (data ++ encodeAll
        ((Node.journal l.srv l.E).log (l.start ⟨some data, snapshot⟩ : Node σ)
          (l.requests.take j))) := by
  rw [Lifetime.after, (requests_log l.srv hl.noError _ _).aof, (start_synced hl hdata snapshot).aof,
    Option.map_some]

/-- A start from a front part of what the file holds after all requests. -/
theorem start_prefix {l m : Lifetime} (hl : l.Legal σ) (hm : m.Legal σ) {data : Bytes}
    (hdata : Replayable σ data) (snapshot snapshot' : Option Bytes) {file : Bytes}
    (hfrom : data <+: file)
    (hfile : file <+: data ++ encodeAll
      ((Node.journal l.srv l.E).log (l.start ⟨some data, snapshot⟩ : Node σ) l.requests)) :
    ∃ i ≤ l.requests.length,
      (∀ j ≤ l.requests.length,
        (data ++ encodeAll ((Node.journal l.srv l.E).log (l.start ⟨some data, snapshot⟩ : Node σ)
        (l.requests.take j))).length ≤ file.length ↔ j ≤ i) ∧
      (m.start ⟨some file, snapshot'⟩ : Node σ).sys.world.store.raw =
        (l.after ⟨some data, snapshot⟩ i : Node σ).sys.world.store.raw := by
  have hstart := start_synced hl hdata snapshot
  obtain ⟨rest, rfl⟩ := hfrom
  rw [List.prefix_append_right_inj] at hfile
  obtain ⟨i, hi, hview, hiff⟩ :=
    journal_cut l.srv hl.noError hstart.good hstart.timeless hl.ttlFree rest.length
  refine ⟨i, hi, fun j hj => ?_, ?_⟩
  · rw [← hiff j hj, List.length_append, List.length_append]
    omega
  · have hfits := log_of_requests l.srv l.E hl.fits (l.start ⟨some data, snapshot⟩ : Node σ)
    have hfree := log_of_requests l.srv l.E hl.ttlFree (l.start ⟨some data, snapshot⟩ : Node σ)
    generalize (Node.journal l.srv l.E).log (l.start ⟨some data, snapshot⟩ : Node σ) l.requests =
      log at hfile hfits hfree hview
    have hrec : recovered m.srv.cfg ⟨some (data ++ rest), snapshot'⟩ =
        frames data ++ complete log rest.length := by
      simp only [recovered, Disk.source, hm.appendonly, if_true, Option.some_or, Option.getD_some]
      rw [hdata.whole.frames_append, List.prefix_iff_eq_take.1 hfile, frames_take _ hfits,
        ← List.prefix_iff_eq_take.1 hfile]
    have hcmds : ∀ a ∈ frames data ++ complete log rest.length, a.ttlFree σ := by
      intro a ha
      rcases List.mem_append.1 ha with ha | ha
      · exact hdata.ttlFree a ha
      · exact hfree a ((complete_sublist ..).subset ha)
    rw [Lifetime.start, bootstrap_sys, hrec, (applyAll_empty hm.unbounded _ _ _ _ hcmds).2.1,
      viewOf, List.foldl_append, ← viewOf, ← hstart.raw, hview, Lifetime.after]

/-- **A crash.** A server without a memory limit that started from a whole append-only file
without deadlines serves requests that set none, without I/O errors, and crashes, and of the
file only the first `cut` bytes are left, among them those it started from. Then for some `i`
the next start, without a memory limit either, has the keyspace that the server had after `i`
requests; and a request is among those exactly if all that was in the file when it had been
served is left. -/
theorem crash_consistent {l m : Lifetime} (hl : l.Legal σ) (hm : m.Legal σ) {data : Bytes}
    (hdata : Replayable σ data) (snapshot snapshot' : Option Bytes) {cut : Nat}
    (hcut : data.length ≤ cut) :
    ∃ i ≤ l.requests.length,
      (∀ j ≤ l.requests.length,
        (∃ file, (l.after ⟨some data, snapshot⟩ j : Node σ).aof = some file ∧ file.length ≤ cut) ↔
        j ≤ i) ∧
      (m.start ⟨(l.stop ⟨some data, snapshot⟩ : Node σ).aof.map (List.take cut), snapshot'⟩ :
        Node σ).sys.world.store.raw =
        (l.after ⟨some data, snapshot⟩ i : Node σ).sys.world.store.raw := by
  have hlog := after_aof hl hdata snapshot
  have hstop := hlog l.requests.length
  rw [List.take_length, ← l.stop_eq_after] at hstop
  obtain ⟨i, hi, hiff, hraw⟩ := start_prefix hl hm hdata snapshot snapshot'
    (by rw [List.take_append, List.take_of_length_le hcut]; exact List.prefix_append ..)
      (List.take_prefix cut _)
  refine ⟨i, hi, fun j hj => ?_, by rw [hstop, Option.map_some, hraw]⟩
  -- what was in the file then is a front part of what is in it at the end
  have hgrow :
      (data ++ encodeAll ((Node.journal l.srv l.E).log (l.start ⟨some data, snapshot⟩ : Node σ)
      (l.requests.take j))).length ≤ (data ++ encodeAll ((Node.journal l.srv l.E).log
        (l.start ⟨some data, snapshot⟩ : Node σ) l.requests)).length := by
    obtain ⟨rest, hrest⟩ :=
      Journal.log_take_isPrefix (J := Node.journal l.srv l.E) l.requests
        (l.start ⟨some data, snapshot⟩ : Node σ) j
    rw [← hrest, encodeAll_append]
    simp only [List.length_append]
    omega
  rw [← hiff j hj, hlog, List.length_take]
  simp only [Option.some.injEq, exists_eq_left']
  omega

/-- Crashed inside the last record, the server comes back without the last of its requests. -/
theorem crash_consistent_counter :
    ∃ i ≤ 3,
      (∀ j ≤ 3,
        (∃ file,
          ((plainLife counting).after ⟨some (encodeAll [(lit "INCR", [lit "n"])]), none⟩ j :
            Node Int).aof =
          some file ∧ file.length ≤ 50) ↔ j ≤ i) ∧
      ((plainLife []).start
        ⟨((plainLife counting).stop ⟨some (encodeAll [(lit "INCR", [lit "n"])]), none⟩ :
          Node Int).aof.map
          (List.take 50), none⟩ : Node Int).sys.world.store.raw =
        ((plainLife counting).after ⟨some (encodeAll [(lit "INCR", [lit "n"])]), none⟩ i :
          Node Int).sys.world.store.raw :=
  crash_consistent (l := plainLife counting) (m := plainLife [])
    (plainLife_legal (by decide) (by decide))
    (plainLife_legal (by decide) (by decide))
      (replayable_encodeAll (by decide) (by decide)) none none (by decide)

/-! ## A replica -/

/-- What the replica registered as number `q` has been sent. -/
def Node.feed (n : Node σ) (q : Nat) : Bytes := n.replicas.getD q []

theorem Logged.feed {n n' : Node σ} {log : List Argv} (h : Logged n n' log) {q : Nat}
    (hq : q < n.replicas.length) : n'.feed q = n.feed q ++ encodeAll log := by
  obtain ⟨new, hnew⟩ := h.feeds
  have hq' : q < (n.replicas.map (· ++ encodeAll log)).length := by simpa using hq
  simp [Node.feed, hnew, List.getElem?_append_left hq', List.getElem?_eq_getElem hq]

theorem sync_request {srv : Server} (hraw : srv.raw = true) (E : Surroundings) (n : Node σ)
    (st : ConnState) {a : Argv} (ha : isSync a.1 = true) :
    (n.request srv E (st, a)).sys.world = n.sys.world ∧
      (n.request srv E (st, a)).replicas =
        n.replicas ++ [n.sys.world.store.dumpCommands (E n.sys.tick)] := by
  simp [Node.request, Conn.item, Loop.item, Conn.command, ha, hraw]

/-- A fresh store that is given a snapshot of `s` and then commands. -/
theorem load_then_apply {cfg : Config} (hmem : cfg.maxmemory = 0) (router : Bytes → UInt64)
    (hasher : Nat → Nat → Bytes → UInt64) (file : Option Bytes) (E : Surroundings) {s : Store σ}
    (hs : s.Good) (ht : s.raw.Timeless) {D : Env} (hdump : Dumpable D s) {cmds : List Argv}
    (hfree : ∀ a ∈ cmds, a.ttlFree σ) :
    (Sys.applyAll cfg E (snapshotCmds D s ++ cmds)
      (ConnState.internal, (Sys.empty cfg router hasher file : Sys σ))).2.world.store.raw =
        cmds.foldl afterCmd s.raw := by
  have hload :=
    apply_dump cfg E hs D hdump.legible
      (ConnState.internal, (Sys.empty cfg router hasher file : Sys σ))
    (Sys.empty_good hmem ..)
  have hraw :
      (Sys.applyAll cfg E (snapshotCmds D s)
        (ConnState.internal, Sys.empty cfg router hasher file)).2.world.store.raw =
      s.raw := by
    rw [hload.raw_eq (Sys.empty_raw ..)
      (fun k hk => (Store.mem_keys hs.routed _).2 hk) fun k r hr => (hdump k r hr).sent, ht.at]
  have happly := (applyAll_timeless cfg E cmds hfree hload.good (hraw ▸ ht)).2.1
  rwa [hraw, Sys.applyAll, Sys.applyAll, ← List.foldl_append] at happly

/-- **A replica that is behind.** A primary without deadlines registers a replica with its
snapshot and then serves requests. The replica, empty at first and with a layout of its own, has
read the snapshot and some more of what it was sent, in any chunks. Then for some `i` it has the
keyspace that the primary had after `i` of the requests; and a request is among those exactly if
all that had been sent when it had been served has arrived. -/
theorem replica_consistent {srv : Server} (hraw : srv.raw = true) {E : Surroundings}
    (hio : ∀ i, (E i).ioError = none) {n : Node σ} (hg : n.sys.world.store.Good)
    (ht : n.sys.world.store.raw.Timeless) (hdump : Dumpable (E n.sys.tick) n.sys.world.store)
    (st : ConnState) {sync : Argv} (hsync : isSync sync.1 = true) {reqs : List (ConnState × Argv)}
    (hfit : ∀ r ∈ reqs, r.2.Fits) (hfree : ∀ r ∈ reqs, r.2.ttlFree σ) {cfg : Config}
    (hmem : cfg.maxmemory = 0) (router : Bytes → UInt64) (hasher : Nat → Nat → Bytes → UInt64)
    (file : Option Bytes) (E' : Surroundings) {chunks : List Bytes}
    (hsnapshot : ((n.request srv E (st, sync)).feed n.replicas.length).length ≤
      chunks.flatten.length)
    (hchunks : chunks.flatten <+:
      (reqs.foldl (Node.request srv E) (n.request srv E (st, sync))).feed n.replicas.length) :
    ∃ i ≤ reqs.length,
      (∀ j ≤ reqs.length,
        (((reqs.take j).foldl (Node.request srv E) (n.request srv E (st, sync))).feed
          n.replicas.length).length ≤
          chunks.flatten.length ↔ j ≤ i) ∧
      (syncOnce cfg E' chunks (Sys.empty cfg router hasher file : Sys σ)).world.store.raw =
        ((reqs.take i).foldl (Node.request srv E)
          (n.request srv E (st, sync))).sys.world.store.raw := by
  obtain ⟨hworld, hfeeds⟩ := sync_request hraw E n st hsync
  generalize n.request srv E (st, sync) = p at *
  have hstart : p.feed n.replicas.length =
      encodeAll (snapshotCmds (E n.sys.tick) n.sys.world.store) := by
    simp [Node.feed, hfeeds, dumpCommands_eq hg.routed]
  have hlt : n.replicas.length < p.replicas.length := by simp [hfeeds]
  rw [← hworld] at hg ht
  obtain ⟨i, hi, hview, hiff⟩ := journal_cut srv hio hg ht hfree
    (chunks.flatten.length - (p.feed n.replicas.length).length)
  refine ⟨i, hi, fun j hj => ?_, ?_⟩
  · rw [← hiff j hj, (requests_log srv hio _ p).feed hlt, List.length_append]
    omega
  · have hfits := log_of_requests srv E hfit p
    have hfrees := log_of_requests srv E hfree p
    rw [(requests_log srv hio _ p).feed hlt, hstart, ← encodeAll_append] at hchunks
    rw [hstart] at hsnapshot hview
    rw [syncOnce_cut cfg E' chunks _ _
      (List.forall_mem_append.2 ⟨snapshotCmds_fits hdump, hfits⟩) hchunks,
      complete_append _ _ _ hsnapshot, ← hview]
    exact (load_then_apply hmem router hasher file E' (hworld ▸ hg) (hworld ▸ ht) hdump
      fun a ha => hfrees a ((complete_sublist ..).subset ha)).trans (by rw [hworld])

/-- A primary that holds one key. -/
def onePrimary : Node Int :=
  (plainLife [(ConnState.new 1 true, lit "SET", [lit "n", lit "4"])]).stop ⟨some [], none⟩

theorem onePrimary_synced : ∃ data, Synced onePrimary data :=
  requests_synced (fun _ => rfl) _ (by decide) (by decide)
    (start_synced (plainLife_legal (by decide) (by decide)) ⟨.nil, fun a ha => by cases ha⟩ none)

/-- What the primary sends while it counts. -/
def countingFeed : Bytes :=
  (counting.foldl (Node.request aofServer fun _ => Env.plain 0)
    (onePrimary.request aofServer (fun _ => Env.plain 0)
      (ConnState.new 3 true, lit "SYNC", []))).feed 0

/-- A replica that has read a part of the second increment. -/
theorem replica_consistent_counter :
    ∃ i ≤ 3,
      (∀ j ≤ 3, (((counting.take j).foldl (Node.request aofServer fun _ => Env.plain 0)
          (onePrimary.request aofServer (fun _ => Env.plain 0)
            (ConnState.new 3 true, lit "SYNC", []))).feed 0).length ≤
            [countingFeed.take 20, (countingFeed.drop 20).take 40].flatten.length ↔ j ≤ i) ∧
      (syncOnce { loggingConfig with shards := 2 } (fun i => Env.plain (7 * i))
          [countingFeed.take 20, (countingFeed.drop 20).take 40]
          (Sys.empty { loggingConfig with shards := 2 } (fun k => if k = [] then 0 else 1)
            (fun _ _ _ => 0) none : Sys Int)
        ).world.store.raw =
        ((counting.take i).foldl (Node.request aofServer fun _ => Env.plain 0)
          (onePrimary.request aofServer (fun _ => Env.plain 0)
            (ConnState.new 3 true, lit "SYNC", []))).sys.world.store.raw := by
  obtain ⟨data, h⟩ := onePrimary_synced
  have hchunks :
      [countingFeed.take 20, (countingFeed.drop 20).take 40].flatten <+: countingFeed := by
    decide +kernel
  exact replica_consistent rfl (fun _ => rfl) h.good h.timeless
    ((dumpable_iff h.good.routed).2 (by decide +kernel)) _ rfl (by decide) (by decide) rfl _ _ _ _
      (by decide +kernel) hchunks

end Inmem.L4
