import Inmem.L3Store.Keyspace
import Inmem.L4App.Persistence

/-!
# A torn tail

A crash can cut the append-only file anywhere. The next start applies the
commands that are complete, and then opens the file for appending without
removing the torn one.

* `replay_stops`: replay dispatches the commands before the cut and no others;
* `torn_tail`: whatever is logged after that start is recovered by the one after it
  exactly when the file was not torn inside a command. Otherwise the next logged
  command is read as the rest of the torn one, or stops the replay.
-/
namespace Inmem.L4

open Inmem.Core Inmem.L1 Inmem.L1.Resp Inmem.L3

/-- The commands that are complete in the first `n` bytes. -/
def complete : List Argv → Nat → List Argv
  | [], _ => []
  | a :: cs, n => if a.encode.length ≤ n then a :: complete cs (n - a.encode.length) else []

/-- The torn command's bytes in the first `n` bytes. -/
def torn : List Argv → Nat → Bytes
  | [], _ => []
  | a :: cs, n => if a.encode.length ≤ n then torn cs (n - a.encode.length) else a.encode.take n

theorem take_encodeAll (cs : List Argv) :
    ∀ n, (encodeAll cs).take n = encodeAll (complete cs n) ++ torn cs n := by
  induction cs with
  | nil => intro n; simp [encodeAll, complete, torn]
  | cons a cs ih =>
    intro n
    have e : encodeAll (a :: cs) = a.encode ++ encodeAll cs := rfl
    rw [e, List.take_append]
    by_cases h : a.encode.length ≤ n
    · simp only [complete, torn, if_pos h, List.take_of_length_le h, ih]
      simp [encodeAll]
    · simp only [complete, torn, if_neg h]
      rw [Nat.sub_eq_zero_of_le (by omega)]
      simp [encodeAll]

theorem complete_sublist (cs : List Argv) : ∀ n, (complete cs n).Sublist cs := by
  induction cs with
  | nil => intro n; exact .slnil
  | cons a cs ih =>
    intro n
    unfold complete
    split
    · exact (ih _).cons_cons a
    · exact List.nil_sublist _

/-- What is left of a torn command is a proper, non-empty beginning of it. -/
theorem torn_prefix (cs : List Argv) : ∀ n, torn cs n ≠ [] →
    ∃ a ∈ cs, ∃ r, r ≠ [] ∧ a.encode = torn cs n ++ r := by
  induction cs with
  | nil => intro n h; exact absurd rfl h
  | cons a cs ih =>
    intro n h
    unfold torn at h ⊢
    by_cases hn : a.encode.length ≤ n
    · rw [if_pos hn] at h ⊢
      obtain ⟨b, hb, r, hr, e⟩ := ih _ h
      exact ⟨b, List.mem_cons_of_mem _ hb, r, hr, e⟩
    · rw [if_neg hn]
      refine ⟨a, List.mem_cons_self, a.encode.drop n, ?_, (List.take_append_drop ..).symm⟩
      intro hd
      have := congrArg List.length hd
      simp at this; omega

theorem frames_torn {a : Argv} (ha : a.Fits) {q r : Bytes} (hr : r ≠ []) (e : a.encode = q ++ r) :
    frames q = [] :=
  frames_stop fun x hx => by
    rw [encode_prefix_incomplete _ ha q r hr e] at hx; cases hx

/-- What the first start reads from the torn file. -/
theorem frames_take (cs : List Argv) (hfit : ∀ a ∈ cs, a.Fits) (n : Nat) :
    frames ((encodeAll cs).take n) = complete cs n := by
  have hc : ∀ a ∈ complete cs n, a.Fits := fun a ha => hfit a ((complete_sublist cs n).subset ha)
  rw [take_encodeAll, frames_encode _ hc]
  by_cases ht : torn cs n = []
  · rw [ht, show frames [] = [] from rfl, List.append_nil]
  · obtain ⟨a, ha, r, hr, e⟩ := torn_prefix cs n ht
    rw [frames_torn (hfit a ha) hr e, List.append_nil]

/-- The complete commands are the first `m`: those whose frames end at or before
byte `n`. -/
theorem complete_eq_take (cs : List Argv) : ∀ n, ∃ m ≤ cs.length, complete cs n = cs.take m ∧
    ∀ i ≤ cs.length, i ≤ m ↔ (encodeAll (cs.take i)).length ≤ n := by
  induction cs with
  | nil => intro n; exact ⟨0, le_rfl, rfl, fun i hi => by simp [encodeAll, Nat.le_zero.1 hi]⟩
  | cons a cs ih =>
    intro n
    have hlen : ∀ i, (encodeAll ((a :: cs).take (i + 1))).length =
        a.encode.length + (encodeAll (cs.take i)).length := by
      intro i; simp [encodeAll]
    by_cases h : a.encode.length ≤ n
    · obtain ⟨m, hm, e, hi⟩ := ih (n - a.encode.length)
      refine ⟨m + 1, by simpa using hm, by simp only [complete, if_pos h, e, List.take_succ_cons],
        ?_⟩
      rintro (_ | i) hle
      · simp [encodeAll]
      · rw [hlen, Nat.add_le_add_iff_right, hi i (by simpa using hle)]
        omega
    · refine ⟨0, Nat.zero_le _, by simp only [complete, if_neg h, List.take_zero], ?_⟩
      rintro (_ | i) _
      · simp [encodeAll]
      · rw [hlen]; omega

/-- A command appended after a torn one is not read back as it was logged, if its
number of arguments is another. -/
theorem frames_after_torn {a d : Argv} (ha : a.Fits) {q r : Bytes} (hq : q ≠ [])
    (e : a.encode = q ++ r) (hl : d.2.length ≠ a.2.length) : frames (q ++ d.encode) ≠ [d] := by
  intro h
  have hd : q ++ d.encode = q ++ 42 :: d.encode.tail := by rw [Argv.encode, encodeArgs_eq]; rfl
  rcases hp : parseCommand (q ++ d.encode) with er | _ | ⟨argv, c⟩
  · rw [frames_stop (by simp [hp])] at h; cases h
  · rw [frames_stop (by simp [hp])] at h; cases h
  · have hlen := parseCommand_torn ha hq e (hd ▸ hp)
    cases argv with
    | nil => cases hlen
    | cons name args =>
      rw [frames_cons hp] at h
      obtain ⟨rfl, -⟩ := List.cons_eq_cons.1 h
      exact hl (by simpa using hlen)

section
variable {σ : Type} [Score σ]

/-- **Where replay stops.** Of a file of logged commands cut after `n` bytes, replay
reads and dispatches the first `m`, in order and with their arguments, and
returns `m`: exactly those whose frames lie before the cut. -/
theorem replay_stops (cfg : Config) (E : Surroundings) (s : Sys σ) (cs : List Argv)
    (hfit : ∀ a ∈ cs, a.Fits) (n : Nat) :
    ∃ m ≤ cs.length, (∀ i ≤ cs.length, i ≤ m ↔ (encodeAll (cs.take i)).length ≤ n) ∧
      frames ((encodeAll cs).take n) = cs.take m ∧
      replayFile cfg E ((encodeAll cs).take n) s =
        (m, (Sys.applyAll cfg E (cs.take m) (ConnState.internal, s)).2) := by
  obtain ⟨m, hm, e, hi⟩ := complete_eq_take cs n
  have hf : frames ((encodeAll cs).take n) = cs.take m := (frames_take cs hfit n).trans e
  refine ⟨m, hm, hi, hf, ?_⟩
  rw [replayFile_eq, hf, List.length_take, Nat.min_eq_left hm]

/-- Log a list of commands. -/
def Node.appendAll (n : Node σ) (ds : List Argv) : Node σ :=
  ds.foldl (fun n d => n.append (d.1 :: d.2)) n

theorem Node.appendAll_aof (ds : List Argv) : ∀ (n : Node σ) (log : Bytes), n.aof = some log →
    (n.appendAll ds).aof = some (log ++ encodeAll ds) := by
  induction ds with
  | nil => intro n log h; simp [appendAll, encodeAll, h]
  | cons d ds ih =>
    intro n log h
    have := ih (n.append (d.1 :: d.2)) (log ++ d.encode) (by simp [append, h, Argv.encode])
    simpa [appendAll, encodeAll] using this

/-- The files after the server has started from the file `data`, logged `ds` and
stopped. -/
def reopened (cfg : Config) (router : Bytes → UInt64) (hasher : Nat → Nat → Bytes → UInt64)
    (E : Surroundings) (before : Disk) (ds : List Argv) : Disk :=
  ((bootstrap cfg router hasher E before : Node σ).appendAll ds).disk before

theorem recovered_reopened {cfg : Config} (hcfg : cfg.appendonly = true) (router : Bytes → UInt64)
    (hasher : Nat → Nat → Bytes → UInt64) (E : Surroundings) (data : Bytes)
    (snapshot : Option Bytes) (ds : List Argv) :
    recovered cfg (reopened (σ := σ) cfg router hasher E ⟨some data, snapshot⟩ ds) =
      frames (data ++ encodeAll ds) := by
  have h : (bootstrap cfg router hasher E ⟨some data, snapshot⟩ : Node σ).aof = some data := by
    simp [bootstrap, hcfg]
  simp [recovered, reopened, Node.disk, Disk.source, hcfg, Node.appendAll_aof ds _ _ h]

/-- **Durability after a torn tail.** The append-only file of the commands `cs` is
cut after `n` bytes, a start recovers from it, logs `ds` and stops. The next
start applies the complete commands of `cs` and then `ds`, for every `ds`, if and
only if the cut left no torn command behind. -/
theorem torn_tail {cfg : Config} (hcfg : cfg.appendonly = true) (router : Bytes → UInt64)
    (hasher : Nat → Nat → Bytes → UInt64) (E : Surroundings) (snapshot : Option Bytes)
    (cs : List Argv) (hfit : ∀ a ∈ cs, a.Fits) (n : Nat) :
    (∀ ds : List Argv, (∀ d ∈ ds, d.Fits) →
      recovered cfg
        (reopened (σ := σ) cfg router hasher E ⟨some ((encodeAll cs).take n), snapshot⟩ ds) =
        complete cs n ++ ds) ↔ torn cs n = [] := by
  have hc : ∀ a ∈ complete cs n, a.Fits := fun a ha => hfit a ((complete_sublist cs n).subset ha)
  constructor
  · intro h
    by_contra ht
    obtain ⟨a, ha, r, hr, e⟩ := torn_prefix cs n ht
    -- a command whose number of arguments is not that of the torn one
    obtain ⟨d, hd, hl⟩ : ∃ d : Argv, d.Fits ∧ d.2.length ≠ a.2.length := by
      by_cases h0 : a.2.length = 0
      · exact ⟨(lit "INCR", [lit "k"]), by decide, by rw [h0]; decide⟩
      · exact ⟨(lit "FLUSHALL", []), by decide, fun hh => h0 hh.symm⟩
    have := h [d] fun x hx => by rw [List.mem_singleton.1 hx]; exact hd
    rw [recovered_reopened hcfg, take_encodeAll, List.append_assoc, frames_encode _ hc,
      List.append_cancel_left_eq] at this
    refine frames_after_torn (hfit a ha) ht e hl ?_
    simpa [encodeAll] using this
  · intro ht ds hds
    rw [recovered_reopened hcfg, take_encodeAll, ht, List.append_nil, frames_encode _ hc,
      frames_encodeAll ds hds]

end

/-- A log of three commands, one with a line break in its argument. -/
def threeCommands : List Argv :=
  [(lit "INCR", [lit "n"]), (lit "SET", [lit "k", [13, 10]]), (lit "FLUSHALL", [])]

/-- Cut inside the second command. -/
theorem replay_stops_inside :
    ∃ m ≤ threeCommands.length,
      (∀ i ≤ threeCommands.length, i ≤ m ↔ (encodeAll (threeCommands.take i)).length ≤ 50) ∧
      frames ((encodeAll threeCommands).take 50) = threeCommands.take m ∧
      replayFile loggingConfig (fun _ => Env.plain 0) ((encodeAll threeCommands).take 50)
          (Sys.empty loggingConfig (fun _ => 0) (fun _ _ _ => 0) none : Sys Int) =
        (m, (Sys.applyAll loggingConfig (fun _ => Env.plain 0) (threeCommands.take m)
          (ConnState.internal, Sys.empty loggingConfig (fun _ => 0) (fun _ _ _ => 0) none)).2) :=
  replay_stops loggingConfig _ _ threeCommands (by decide) 50

/-- Cut between two commands, nothing is lost. -/
theorem torn_tail_between :
    recovered loggingConfig
      (reopened (σ := Int) loggingConfig (fun _ => 0) (fun _ _ _ => 0) (fun _ => Env.plain 0)
        ⟨some ((encodeAll [(lit "INCR", [lit "n"]), (lit "FLUSHALL", [])]).take 21), none⟩
          [(lit "INCR", [lit "m"])]) =
      complete [(lit "INCR", [lit "n"]), (lit "FLUSHALL", [])] 21 ++ [(lit "INCR", [lit "m"])] :=
  (torn_tail rfl _ _ _ none _ (by decide) 21).2 (by decide +kernel) _ (by decide)

/-- Cut before the value of a `SET`, the file takes no further command: the `INCR`
logged after the restart is gone at the next one. -/
theorem torn_tail_loses :
    recovered loggingConfig
      (reopened (σ := Int) loggingConfig (fun _ => 0) (fun _ _ _ => 0) (fun _ => Env.plain 0)
        ⟨some ((encodeAll [(lit "SET", [lit "k", lit "v"])]).take 24), none⟩
          [(lit "INCR", [lit "n"])]) = [] ∧
      complete [(lit "SET", [lit "k", lit "v"])] 24 ++ [(lit "INCR", [lit "n"])] =
        [(lit "INCR", [lit "n"])] := by
  decide +kernel

end Inmem.L4
