import Inmem.Core.Buffered
import Inmem.L4App.Lag
import Inmem.L4App.SaveFile

/-!
# How a command gets into the append-only file

`Aof::append` hands the encoded command to a `BufWriter` and flushes it. `Node.append` is the whole
of
it in one step; here each system call may fail or take a part, and the server may crash between any
two.
What could not be written stays in the buffer for the next append, if it fits there.

* `log_durable`: while every record has room in the buffer, no failure does harm. After a crash
  at any time the next start finds the keyspace as it was after some of the requests, and
  every request that was acknowledged is among them, with all before it.
* `record_kept_iff`: that it has room is needed.
* `torn_record_loses`: the part of a large record that was written before a failure stays in the
  file, and swallows what is acknowledged after it.
-/
namespace Inmem.L4

open Inmem.Core Inmem.Core.Decimal Inmem.Core.Serial Inmem.Core.Crash Inmem.Core.Files
  Inmem.Core.Buffered
open Inmem.L1 Inmem.L1.Resp Inmem.L3

/-- Log a command; the answer says what is in the buffer then.
mirrors crates/server/src/persistence.rs:35-41 -/
def aofAppend (buf : Bytes) (argv : List Bytes) : SinkProg UInt8 Bytes (Answer UInt8 Bytes) :=
  append BUF_SIZE buf (encodeArgs argv)

/-! ## Records -/

/-- **Which records are kept.** A log of whole commands is partly still in the buffer, and a
command is logged. Whatever becomes of the system calls, the append comes to its end and, when
the buffer has been written, the log holds this command behind the others: exactly if there is
room for it. -/
theorem record_kept_iff {file buf : Bytes} (hwhole : Whole (file ++ buf))
    (hbuf : buf.length ≤ BUF_SIZE) {a : Argv} (ha : a.Fits) :
    (∀ fates : List (Fate Bytes), buf.length + a.encode.length ≤ fates.length →
      let ended := alone put fates (aofAppend buf (a.1 :: a.2)) file
      ∃ r, result ended.1 = some r ∧ frames (ended.2 ++ r.2) = frames (file ++ buf) ++ [a]) ↔
      Room BUF_SIZE buf a.encode := by
  constructor
  · intro h
    by_contra hroom
    have hkept {fates : List (Fate Bytes)} {r : Answer UInt8 Bytes} {file' : Bytes}
        (hrun : alone put fates (aofAppend buf (a.1 :: a.2)) file = (.pure r, file')) :
        frames (file' ++ r.2) = frames (file ++ buf) ++ [a] := by
      let more : List (Fate Bytes) := List.replicate (buf.length + a.encode.length) (.takes 0)
      have hlonger := alone_longer hrun more
      obtain ⟨r', hr', hframes⟩ := h (fates ++ more) (by simp [more])
      rw [hlonger] at hr' hframes
      cases hr'
      exact hframes
    have hlost : frames (file ++ buf) ≠ frames (file ++ buf) ++ [a] := by simp
    obtain ⟨t, ht⟩ : ∃ t, a.encode = 42 :: t := ⟨_, encodeArgs_eq _⟩
    have hlen : 1 < a.encode.length := by
      rw [Argv.encode, encodeArgs_eq]
      simp [crlf]
    rcases not_room hroom with ⟨rfl, hlarge⟩ | ⟨hne, hno⟩
    · -- the first byte of the record stays in the file
      have hframes := hkept (append_tears hlarge Nat.one_pos hlen [] file)
      have htorn : frames (a.encode.take 1) = [] := by
        refine frames_torn ha (r := t) ?_ (by rw [ht]; rfl)
        rintro rfl
        simp [ht] at hlen
      rw [List.append_nil] at hwhole hframes hlost
      rw [List.append_nil, hwhole.frames_append, htorn, List.append_nil] at hframes
      exact hlost hframes
    · exact hlost (hkept (append_refuses hbuf hne hno [] file))
  · intro hroom fates hlen ended
    obtain ⟨r, hr⟩ :=
      (append_ends hroom file).alone fates (fun _ _ => trivial) (by rwa [List.length_append])
    refine ⟨r, hr, ?_⟩
    have hlog := (((append_spec hroom file).alone fates fun _ _ => trivial).result hr).2.1
    rw [show ended.2 ++ r.2 = file ++ (buf ++ a.encode) from hlog, ← List.append_assoc,
      hwhole.frames_append, ha.frames]

/-- An `INCR` is logged when the one before it is on the disk with five bytes only. -/
theorem record_kept_counter :
    let incr : Argv := (lit "INCR", [lit "n"])
    ∀ fates : List (Fate Bytes), (incr.encode.drop 5).length + incr.encode.length ≤ fates.length →
      let ended :=
        alone put fates (aofAppend (incr.encode.drop 5) (incr.1 :: incr.2)) (incr.encode.take 5)
      ∃ r, result ended.1 = some r ∧
        frames (ended.2 ++ r.2) = frames (incr.encode.take 5 ++ incr.encode.drop 5) ++ [incr] := by
  intro incr
  have hwhole : Whole (incr.encode.take 5 ++ incr.encode.drop 5) := by
    rw [List.take_append_drop]
    exact Argv.Fits.whole (by decide)
  exact (record_kept_iff hwhole (by decide) (by decide)).2 (by decide)

section
variable {σ : Type} [Score σ]

/-! ## The server -/

/-- A server and its append-only file. -/
structure LogHost (σ : Type) [Score σ] where
  /-- the server as `Node.request` has it: here `aof` is the log as it is without failures -/
  node : Node σ
  /-- what is on the disk -/
  file : Bytes
  /-- what is in the writer's buffer; `none` when the server has crashed inside an append -/
  writer : Option Bytes

/-- A request, and what becomes of the system calls of its append. -/
abbrev Attempt := (ConnState × Argv) × List (Fate Bytes)

namespace LogHost

/-- mirrors crates/server/src/persistence.rs:27-32 -/
def opened (n : Node σ) (data : Bytes) : LogHost σ := ⟨n, data, some []⟩

variable (srv : Server) (E : Surroundings)

/-- The append of a request, as far as its system calls have been made. -/
def logging (h : LogHost σ) (buf : Bytes) (x : Attempt) :
    SinkProg UInt8 Bytes (Answer UInt8 Bytes) × Bytes :=
  alone put x.2 (aofAppend buf (x.1.2.1 :: x.1.2.2)) h.file

/-- A request. Too few calls for its append are a crash. -/
def request (h : LogHost σ) (x : Attempt) : LogHost σ :=
  match h.writer with
  | none => h
  | some buf =>
    if h.node.records srv E x.1 = [] then { h with node := h.node.request srv E x.1 }
    else
      { node := h.node.request srv E x.1
        file := (h.logging buf x).2
        writer := (result (h.logging buf x).1).map Prod.snd }

def run (xs : List Attempt) (h : LogHost σ) : LogHost σ := xs.foldl (request srv E) h

/-- What the append of a request returned, if the request was logged. -/
def answer (h : LogHost σ) (x : Attempt) : Option (Except (Failure Bytes) Unit) :=
  if h.node.records srv E x.1 = [] then none
  else h.writer.bind fun buf => (result (h.logging buf x).1).map Prod.fst

/-- The server is up, and there is room for the record of the request, if it has one. -/
def HasRoom (h : LogHost σ) (x : Attempt) : Prop :=
  ∃ buf ∈ h.writer, h.node.records srv E x.1 ≠ [] → Room BUF_SIZE buf x.1.2.encode

/-- So it is for one request after the other. -/
def Roomy : LogHost σ → List Attempt → Prop
  | _, [] => True
  | h, x :: xs => h.HasRoom srv E x ∧ Roomy (h.request srv E x) xs

instance (h : LogHost σ) (x : Attempt) : Decidable (h.HasRoom srv E x) :=
  inferInstanceAs (Decidable (∃ buf ∈ h.writer, _ → _))

instance decidableRoomy : ∀ (h : LogHost σ) (xs : List Attempt), Decidable (Roomy srv E h xs)
  | _, [] => inferInstanceAs (Decidable True)
  | h, x :: xs =>
    have := decidableRoomy (h.request srv E x) xs
    inferInstanceAs (Decidable (_ ∧ _))

variable {srv E}

/-- The file and the buffer make up `log`. -/
structure KeepsLog (lo log : Bytes) (h : LogHost σ) : Prop where
  within : Between lo log h.file
  buffer : ∀ buf ∈ h.writer, h.file ++ buf = log

variable {h : LogHost σ} {x : Attempt} {lo log : Bytes}

theorem records_cases (n : Node σ) (r : ConnState × Argv) :
    n.records srv E r = [] ∨ n.records srv E r = [r.2] := by
  unfold Node.records
  split
  · exact .inr rfl
  · exact .inl rfl

theorem request_quiet {buf : Bytes} (hw : h.writer = some buf)
    (hrec : h.node.records srv E x.1 = []) :
    h.request srv E x = { h with node := h.node.request srv E x.1 } := by
  rw [request, hw]
  exact if_pos hrec

theorem request_logged {buf : Bytes} (hw : h.writer = some buf)
    (hrec : h.node.records srv E x.1 ≠ []) :
    h.request srv E x =
      ⟨h.node.request srv E x.1, (h.logging buf x).2,
        (result (h.logging buf x).1).map Prod.snd⟩ := by
  rw [request, hw]
  exact if_neg hrec

theorem answer_logged {buf : Bytes} (hw : h.writer = some buf)
    (hrec : h.node.records srv E x.1 ≠ []) :
    h.answer srv E x = (result (h.logging buf x).1).map Prod.fst := by
  rw [answer, if_neg hrec, hw]
  rfl

theorem request_node (hroom : h.HasRoom srv E x) :
    (h.request srv E x).node = h.node.request srv E x.1 := by
  obtain ⟨buf, hw, -⟩ := hroom
  by_cases hrec : h.node.records srv E x.1 = []
  · rw [request_quiet hw hrec]
  · rw [request_logged hw hrec]

/-- What is certain of an append that has room. -/
theorem logging_spec {buf : Bytes} (hroom : Room BUF_SIZE buf x.1.2.encode) :
    Guarded put (fun _ : Fate Bytes => True) (Between h.file (h.file ++ (buf ++ x.1.2.encode)))
      (Flushed h.file (h.file ++ (buf ++ x.1.2.encode))) (h.logging buf x).1 (h.logging buf x).2 :=
  (append_spec hroom h.file).alone x.2 fun _ _ => trivial

theorem KeepsLog.request (ht : KeepsLog lo log h) (hroom : h.HasRoom srv E x) :
    KeepsLog lo (log ++ encodeAll (h.node.records srv E x.1)) (h.request srv E x) := by
  obtain ⟨buf, hw, hroom⟩ := hroom
  rcases records_cases h.node x.1 with hrec | hrec
  · rw [request_quiet hw hrec, hrec, show log ++ encodeAll [] = log from List.append_nil log]
    exact ⟨ht.within, ht.buffer⟩
  · have hne : h.node.records srv E x.1 ≠ [] := by rw [hrec]; simp
    have hspec := logging_spec (h := h) (hroom hne)
    rw [← List.append_assoc, ht.buffer buf hw] at hspec
    rw [request_logged hw hne, hrec, show encodeAll [x.1.2] = x.1.2.encode from List.append_nil _]
    cases hres : result (h.logging buf x).1 with
    | none =>
      obtain ⟨hlo, hhi⟩ := hspec.running hres
      exact ⟨⟨ht.within.1.trans hlo, hhi⟩, fun _ hx => by cases hx⟩
    | some r =>
      obtain ⟨hlo, hall, -⟩ := hspec.result hres
      refine ⟨⟨ht.within.1.trans hlo, ⟨_, hall⟩⟩, fun buf' hbuf' => ?_⟩
      cases hbuf'
      exact hall

theorem KeepsLog.run (xs : List Attempt) :
    ∀ {h : LogHost σ} {log : Bytes}, KeepsLog lo log h → Roomy srv E h xs →
    KeepsLog lo (log ++ encodeAll ((Node.journal srv E).log h.node (xs.map Prod.fst)))
      (run srv E xs h) := by
  induction xs with
  | nil =>
    intro h log ht _
    rwa [show log ++ encodeAll ((Node.journal srv E).log h.node ([].map Prod.fst)) =
      log from List.append_nil log]
  | cons x xs ih =>
    intro h log ht hroom
    have := ih (ht.request hroom.1) hroom.2
    rwa [request_node hroom.1, List.append_assoc, ← encodeAll_append] at this

theorem KeepsLog.grows (ht : KeepsLog lo log h) (xs : List Attempt) (hroom : Roomy srv E h xs) :
    h.file <+: (LogHost.run srv E xs h).file :=
  (KeepsLog.run xs ⟨⟨List.prefix_rfl, ht.within.2⟩, ht.buffer⟩ hroom).within.1

theorem run_node (xs : List Attempt) : ∀ {h : LogHost σ}, Roomy srv E h xs →
    (run srv E xs h).node = (xs.map Prod.fst).foldl (Node.request srv E) h.node := by
  induction xs with
  | nil => exact fun _ => rfl
  | cons x xs ih =>
    intro h hroom
    have := ih hroom.2
    rwa [request_node hroom.1] at this

/-- An append that went well has emptied the buffer. -/
theorem writer_acknowledged (hroom : h.HasRoom srv E x) (hok : h.answer srv E x = some (.ok ())) :
    (h.request srv E x).writer = some [] := by
  obtain ⟨buf, hw, hroom⟩ := hroom
  have hne : h.node.records srv E x.1 ≠ [] := by
    intro hrec
    rw [answer, if_pos hrec] at hok
    cases hok
  rw [answer_logged hw hne] at hok
  rw [request_logged hw hne]
  obtain ⟨r, hres, hr⟩ := Option.map_eq_some_iff.1 hok
  rw [hres]
  exact congrArg some (((logging_spec (hroom hne)).result hres).2.2 hr)

theorem run_append (xs ys : List Attempt) (h : LogHost σ) :
    run srv E (xs ++ ys) h = run srv E ys (run srv E xs h) :=
  List.foldl_append

theorem roomy_append (xs ys : List Attempt) : ∀ {h : LogHost σ}, Roomy srv E h (xs ++ ys) →
    Roomy srv E h xs ∧ Roomy srv E (run srv E xs h) ys := by
  induction xs with
  | nil => exact fun hroom => ⟨trivial, hroom⟩
  | cons x xs ih => exact fun hroom => ⟨⟨hroom.1, (ih hroom.2).1⟩, (ih hroom.2).2⟩

end LogHost

/-! ## Durability -/

/-- **The log is durable.** A server starts from a whole append-only file and serves requests;
the system calls of its appends may fail or be cut short, and it may crash inside the last
append. Whenever a request comes there is room in the buffer for its record. Then for some `i`
the next start has the keyspace that the server had after `i` requests, and every request that
was acknowledged is among them. -/
theorem log_durable {l m : Lifetime} (hl : l.Legal σ) (hm : m.Legal σ) {data : Bytes}
    (hdata : Replayable σ data) (snapshot snapshot' : Option Bytes) {attempts : List Attempt}
    (hreqs : attempts.map Prod.fst = l.requests)
    (hroom : LogHost.Roomy l.srv l.E
      (.opened (l.start ⟨some data, snapshot⟩ : Node σ) data) attempts) :
    let after j :=
      LogHost.run l.srv l.E (attempts.take j)
        (.opened (l.start ⟨some data, snapshot⟩ : Node σ) data)
    ∃ i ≤ attempts.length,
      (∀ j x, attempts[j]? = some x → (after j).answer l.srv l.E x = some (.ok ()) → j < i) ∧
      (m.start ⟨some (after attempts.length).file, snapshot'⟩ : Node σ).sys.world.store.raw =
        (after i).node.sys.world.store.raw := by
  intro after
  have hrooms (j : Nat) : LogHost.Roomy l.srv l.E _ (attempts.take j) ∧
      LogHost.Roomy l.srv l.E (after j) (attempts.drop j) :=
    LogHost.roomy_append _ _ (by rwa [List.take_append_drop])
  have hnode (j : Nat) : (after j).node = l.after ⟨some data, snapshot⟩ j := by
    rw [LogHost.run_node _ (hrooms j).1, List.map_take, hreqs]
    rfl
  have hkeeps (j : Nat) : LogHost.KeepsLog data (data ++ encodeAll ((Node.journal l.srv l.E).log
      (l.start ⟨some data, snapshot⟩ : Node σ) (l.requests.take j))) (after j) := by
    have hopened : LogHost.KeepsLog data data
        (.opened (l.start ⟨some data, snapshot⟩ : Node σ) data) :=
      ⟨⟨List.prefix_rfl, List.prefix_rfl⟩,
        fun buf hbuf => by cases hbuf; exact List.append_nil data⟩
    have := hopened.run _ (hrooms j).1
    rwa [List.map_take, hreqs] at this
  have hlen : attempts.length = l.requests.length := by rw [← hreqs, List.length_map]
  have hwithin := (hkeeps attempts.length).within
  rw [hlen, List.take_length, ← hlen] at hwithin
  obtain ⟨i, hi, hiff, hraw⟩ := start_prefix hl hm hdata snapshot snapshot' hwithin.1 hwithin.2
  refine ⟨i, hlen ▸ hi, fun j x hx hok => ?_, ?_⟩
  · have hj : j < attempts.length := (List.getElem?_eq_some_iff.1 hx).1
    have hnext : after (j + 1) = (after j).request l.srv l.E x := by
      show LogHost.run l.srv l.E (attempts.take (j + 1)) _ = _
      rw [List.take_add_one, hx, LogHost.run_append]
      rfl
    have hwriter : (after (j + 1)).writer = some [] := by
      have hrest := (hrooms j).2
      rw [List.drop_eq_getElem_cons hj, (List.getElem_eq_iff hj).2 hx] at hrest
      rw [hnext]
      exact LogHost.writer_acknowledged hrest.1 hok
    -- the whole log was in the file then, and the file has only grown
    have hfile : (after (j + 1)).file = _ :=
      (List.append_nil _).symm.trans ((hkeeps (j + 1)).buffer [] hwriter)
    have hgrown : (after (j + 1)).file <+: (after attempts.length).file := by
      have hend : LogHost.run l.srv l.E (attempts.drop (j + 1)) (after (j + 1)) =
          after attempts.length := by
        rw [← LogHost.run_append, List.take_append_drop]
        exact (congrArg (LogHost.run l.srv l.E · _) List.take_length).symm
      exact hend ▸ (hkeeps (j + 1)).grows _ (hrooms (j + 1)).2
    exact (hiff (j + 1) (hlen ▸ hj)).1 (hfile ▸ hgrown.length_le)
  · rw [hnode i, ← hraw]

/-- The first `INCR` fails when five bytes of it have been written; the rest goes with the
second. -/
def failedOnce : List Attempt :=
  [((ConnState.new 1 true, lit "INCR", [lit "n"]), [.takes 5, .fails (lit "disk full")]),
    ((ConnState.new 1 true, lit "GET", [lit "n"]), []),
    ((ConnState.new 2 true, lit "INCR", [lit "n"]), [.takes 30, .takes 30])]

/-- Both are there at the next start. -/
theorem log_durable_failed :
    let l := plainLife counting
    let after j :=
      LogHost.run l.srv l.E (failedOnce.take j) (.opened (l.start ⟨some [], none⟩ : Node Int) [])
    ((plainLife []).start ⟨some (after 3).file, none⟩ : Node Int).sys.world.store.raw =
      (after 3).node.sys.world.store.raw := by
  intro l after
  have hroom : LogHost.Roomy l.srv l.E
      (.opened (l.start ⟨some [], none⟩ : Node Int) []) failedOnce := by decide +kernel
  obtain ⟨i, hi, hacked, hraw⟩ :=
    log_durable (l := l) (m := plainLife []) (plainLife_legal (by decide) (by decide))
    (plainLife_legal (by decide) (by decide)) ⟨.nil, fun _ h => by cases h⟩ none none rfl hroom
  have h3 : i = 3 := Nat.le_antisymm hi (hacked 2 _ rfl (by decide +kernel))
  rwa [h3] at hraw

/-! ## A torn record -/

/-- A command up to its last argument. -/
def encodeHead (name : Bytes) (args : List Bytes) (n : Nat) : Bytes :=
  42 :: natText (args.length + 2) ++ crlf ++ (name :: args).flatMap encBulk ++ 36 :: natText n ++
    crlf

theorem encode_last (name : Bytes) (args : List Bytes) (v : Bytes) :
    Argv.encode (name, args ++ [v]) = encodeHead name args v.length ++ (v ++ crlf) := by
  rw [Argv.encode, encodeArgs_eq]
  simp [encodeHead, encBulk]

/-- The last argument of a command is followed by other bytes before it is complete. -/
theorem frames_swallowed {name : Bytes} {args : List Bytes} {v : Bytes}
    (hfit : Argv.Fits (name, args ++ [v])) (k : Nat) {t : Bytes} (ht : t.length ≤ v.length - k) :
    frames (encodeHead name args v.length ++ v.take k ++ t) = [] := by
  -- the bytes begin another command with a last argument of this length
  let v' : Bytes := v.take k ++ t ++ List.replicate (v.length - (v.take k ++ t).length) 0
  have hlen : v'.length = v.length := by
    simp [v']
    omega
  have hfit' : Argv.Fits (name, args ++ [v']) := by
    obtain ⟨hcount, hsize⟩ := hfit
    refine ⟨by simpa using hcount, fun a ha => ?_⟩
    rcases List.mem_append.1 (show a ∈ (name :: args) ++ [v'] from ha) with ha | ha
    · exact hsize a (List.mem_append_left [v] ha)
    · rw [List.mem_singleton.1 ha, hlen]
      exact hsize v (by simp)
  refine frames_torn hfit' (r := List.replicate (v.length - (v.take k ++ t).length) 0 ++ crlf)
    (by simp [crlf]) ?_
  rw [encode_last, hlen]
  simp [v']

/-- A request whose record is written up to the `k`-th byte of its last argument, when a write
fails. -/
def tornWrite (st : ConnState) (name : Bytes) (args : List Bytes) (v : Bytes) (k : Nat)
    (e : Bytes) : Attempt :=
  ((st, name, args ++ [v]), [.takes ((encodeHead name args v.length).length + k), .fails e])

/-- **A torn record.** A server whose keyspace and file are in step logs a record too large for
the buffer, and a write fails within its last argument. Whatever it serves after that, as long
as this logs no more bytes than the argument lacks, the next start finds the keyspace as it was
before the torn record, without anything that was acknowledged since. -/
theorem torn_record_loses {srv : Server} {E : Surroundings} {h : LogHost σ}
    (hs : Synced h.node h.file) (hw : h.writer = some []) {st : ConnState} {name : Bytes}
    {args : List Bytes} {v : Bytes} (hfit : Argv.Fits (name, args ++ [v]))
    (hrec : h.node.records srv E (st, name, args ++ [v]) ≠ [])
    (hlarge : BUF_SIZE ≤ (Argv.encode (name, args ++ [v])).length) {k : Nat} (hk : k ≤ v.length)
    (e : Bytes) {later : List Attempt}
    (hroom : LogHost.Roomy srv E (h.request srv E (tornWrite st name args v k e)) later)
    (hgap : (encodeAll
      ((Node.journal srv E).log (h.request srv E (tornWrite st name args v k e)).node
        (later.map Prod.fst))).length ≤ v.length - k)
    {m : Lifetime} (hm : m.Legal σ) (snapshot : Option Bytes) :
    h.answer srv E (tornWrite st name args v k e) = some (.error (.other e)) ∧
      (m.start
        ⟨some (LogHost.run srv E later (h.request srv E (tornWrite st name args v k e))).file,
          snapshot⟩ :
        Node σ).sys.world.store.raw = h.node.sys.world.store.raw := by
  have hhead : 0 < (encodeHead name args v.length).length := by simp [encodeHead]
  have hlen : (Argv.encode (name, args ++ [v])).length =
      (encodeHead name args v.length).length + v.length + 2 := by
    rw [encode_last]
    simp [crlf]
    omega
  have htake : (Argv.encode (name, args ++ [v])).take ((encodeHead name args v.length).length + k) =
      encodeHead name args v.length ++ v.take k := by
    rw [encode_last, List.take_length_add_append, List.take_append_of_le_length hk]
  have htears : h.logging [] (tornWrite st name args v k e) = _ :=
    append_tears hlarge (n := (encodeHead name args v.length).length + k) (by omega)
      (Nat.lt_of_lt_of_eq (by omega) hlen.symm) e h.file
  have hrequest : h.request srv E (tornWrite st name args v k e) =
      ⟨h.node.request srv E (st, name, args ++ [v]),
        h.file ++ (encodeHead name args v.length ++ v.take k), some []⟩ := by
    rw [LogHost.request_logged (x := tornWrite st name args v k e) hw hrec, htears, ← htake]
    rfl
  refine ⟨by rw [LogHost.answer_logged (x := tornWrite st name args v k e) hw hrec, htears]; rfl,
    ?_⟩
  -- behind the torn record the file holds a part of what was logged since
  rw [hrequest] at hroom hgap ⊢
  have hkeeps := LogHost.KeepsLog.run later ⟨⟨List.prefix_rfl, List.prefix_rfl⟩,
    fun buf hbuf => by cases hbuf; exact List.append_nil _⟩ hroom
  obtain ⟨⟨t, ht⟩, hlog⟩ := hkeeps.within
  have hlost : frames (encodeHead name args v.length ++ v.take k ++ t) = [] := by
    rw [← ht] at hlog
    exact frames_swallowed hfit k (((List.prefix_append_right_inj _).1 hlog).length_le.trans hgap)
  have hrec : recovered m.srv.cfg
      ⟨some (h.file ++ (encodeHead name args v.length ++ v.take k ++ t)), snapshot⟩ =
        frames h.file := by
    simp only [recovered, Disk.source, hm.appendonly, if_true, Option.some_or, Option.getD_some]
    rw [hs.file.whole.frames_append, hlost, List.append_nil]
  rw [← ht, List.append_assoc, Lifetime.start, bootstrap_sys, hrec,
    (applyAll_empty hm.unbounded _ _ _ _ hs.file.ttlFree).2.1, hs.raw]

/-- A value of the size of the buffer. -/
def largeValue : Bytes := List.replicate BUF_SIZE 120

def freshHost : LogHost Int := .opened ((plainLife []).start ⟨some [], none⟩) []

def calm : Surroundings := fun _ => Env.plain 0

/-- The disk is full when the first byte of the value has been written. -/
def tornSet : Attempt :=
  tornWrite (ConnState.new 1 true) (lit "SET") [lit "k"] largeValue 1 (lit "disk full")

def nextIncr : Attempt := ((ConnState.new 2 true, lit "INCR", [lit "n"]), [.takes 30])

def tornHost : LogHost Int := freshHost.request aofServer calm tornSet

/-- The `INCR` is acknowledged, and the next start finds nothing. -/
theorem torn_record_loses_counter :
    (tornHost.answer aofServer calm nextIncr = some (.ok ()) ∧
      ((LogHost.run aofServer calm [nextIncr] tornHost).node.sys.world.store.raw (lit "n")).isSome =
        true) ∧
    freshHost.answer aofServer calm tornSet = some (.error (.other (lit "disk full"))) ∧
      ((plainLife []).start ⟨some (LogHost.run aofServer calm [nextIncr] tornHost).file, none⟩ :
        Node Int).sys.world.store.raw =
        freshHost.node.sys.world.store.raw := by
  have hm : (plainLife []).Legal Int := plainLife_legal (by decide) (by decide)
  have hs : Synced freshHost.node freshHost.file :=
    start_synced hm ⟨.nil, fun _ h => by cases h⟩ none
  have hlen : largeValue.length = BUF_SIZE := List.length_replicate
  have hfit : Argv.Fits (lit "SET", [lit "k"] ++ [largeValue]) := by
    refine ⟨by decide, fun a ha => ?_⟩
    rcases List.mem_append.1 (show a ∈ [lit "SET", lit "k"] ++ [largeValue] from ha) with ha | ha
    · exact (show ∀ a ∈ [lit "SET", lit "k"], (a.length : Int) ≤ MAX_BULK_LEN by decide) a ha
    · rw [List.mem_singleton.1 ha, hlen]
      decide
  have hlarge : BUF_SIZE ≤ (Argv.encode (lit "SET", [lit "k"] ++ [largeValue])).length := by
    rw [encode_last, List.length_append, List.length_append, hlen]
    omega
  have hlogged : freshHost.node.records aofServer calm
      (ConnState.new 1 true, lit "SET", [lit "k"] ++ [largeValue]) ≠ [] := by
    decide +kernel
  have hk : 1 ≤ largeValue.length := by rw [hlen]; decide
  have hroom : LogHost.Roomy aofServer calm tornHost [nextIncr] := by decide +kernel
  have hgap :
      (encodeAll
        ((Node.journal aofServer calm).log tornHost.node ([nextIncr].map Prod.fst))).length ≤
      largeValue.length - 1 := by decide +kernel
  have hlost := torn_record_loses hs rfl hfit hlogged hlarge hk (lit "disk full") hroom hgap hm none
  refine ⟨⟨by decide +kernel, by decide +kernel⟩, ?_⟩
  rw [tornHost, tornSet]
  exact hlost

end

end Inmem.L4
