import Inmem.L4App.Classify
import Inmem.L4App.Replies

/-!
# Failed commands

Every error exit of the dispatcher comes without the persist flag, and a command
that ends without it has made no call that changed anything. So a command that
fails, at whichever point of its argument loop, has at most looked at keys, and a
look drops what has expired and nothing else.

* `exec_lapses`: a program that ends without the flag leaves every entry in place, up
  to what has expired by one of its readings;
* `failure_changes_nothing`: what an error leaves as it was.
-/
namespace Inmem.L4

open Inmem.Core Inmem.L1 Inmem.L1.Resp Inmem.L3

variable {σ : Type} [Score σ]

/-- The clock readings between two ticks. -/
def Surroundings.Readings (E : Surroundings) (i j : Nat) (t : Nat) : Prop :=
  ∃ n, i ≤ n ∧ n < j ∧ t = E.clock n

/-- A program that announces its changes and ends without the flag has dropped
nothing but what had expired. -/
theorem exec_lapses {α : Type} {p : Cmd σ α} {flag : α → Bool} (hp : p.Announces Call.changed flag)
    (E : Surroundings) {b : Nat} {s : Sys σ} (hs : s.world.store.Whole b)
    (hf : flag (s.exec E p).1 = false) :
    (s.exec E p).2.world.store.Whole b ∧
      Store.Lapse (E.Readings s.tick (s.exec E p).2.tick) s.world.store
        (s.exec E p).2.world.store := by
  have hrun :=
    Prog.announces_run (Sys.call E) (fun s' => s'.world.store.Whole b ∧ s.tick ≤ s'.tick ∧
    Store.Lapse (E.Readings s.tick s'.tick) s.world.store s'.world.store) ?_ hp
      ⟨hs, le_rfl, .refl⟩ hf
  · exact ⟨hrun.1, hrun.2.2⟩
  · rintro c s' hc ⟨hw, ht, hl⟩
    refine ⟨exec_whole _ c hw, Nat.le_succ_of_le ht, ?_⟩
    have hbefore : Store.Lapse (E.Readings s.tick (s'.tick + 1)) s.world.store s'.world.store :=
      hl.mono fun t ⟨n, h1, h2, e⟩ => ⟨n, h1, Nat.lt_succ_of_lt h2, e⟩
    have hstep : Store.Lapse (E.Readings s.tick (s'.tick + 1)) s'.world.store
        (s'.call E c).2.world.store :=
      (exec_lapse _ c hw hc).mono fun t e => ⟨s'.tick, ht, Nat.lt_succ_self _, e⟩
    exact hbefore.trans hstep

/-- **A failed command changes nothing.** On every store that calls can lead to,
bounded or not, for every configuration, connection state and argument vector: if
the dispatcher answers with an error, the persist and quit flags are off and the
connection state is as it was; every key has the value and the deadline it had, seen
at any time `u` that no reading of the command is after; and the byte count of each
shard has fallen by the footprints of the entries it lost, all of which had expired
by a reading of the command. -/
theorem failure_changes_nothing (shards maxmemory : Nat) (router : Bytes → UInt64)
    (hasher : Nat → Nat → Bytes → UInt64) (file : Option Bytes) (run : List (Env × Call σ))
    (tick : Nat) (cfg : Config) (st : ConnState) (E : Surroundings) (name : Bytes)
    (args : List Bytes) :
    let s : Sys σ := ⟨runCalls run ⟨Store.new shards maxmemory router hasher, file⟩, tick⟩
    let r := s.exec E (dispatch cfg st name args)
    let readings := E.Readings tick r.2.tick
    ∀ msg, r.1.1.reply = .error msg →
      r.1.1.persist = false ∧ r.1.1.quit = false ∧ r.1.2 = st ∧
        (∀ u, (∀ t, readings t → t ≤ u) → r.2.world.store.raw.at u = s.world.store.raw.at u) ∧
        r.2.world.store.shards.length = s.world.store.shards.length ∧
        ∀ (j : Nat) (sh sh' : Shard σ), s.world.store.shards[j]? = some sh →
        r.2.world.store.shards[j]? = some sh' →
          sh'.bytes + ((sh.lost sh').map fun p => Shard.footprint p.1 p.2).sum = sh.bytes ∧
            ∀ k e, (k, e) ∈ sh.lost sh' → ∃ t, readings t ∧ expired t e.expireAt = true := by
  intro s r readings msg herr
  have hs : s.world.store.Whole _ := runCalls_whole shards maxmemory router hasher file run
  have hp := (dispatch_runs (σ := σ) cfg st name args).announces
  have hreply : isError r.1.1.reply = true := isError_iff.2 ⟨msg, herr⟩
  obtain ⟨⟨hshaped, hstate⟩, -⟩ :=
    Prog.all_run (Sys.call E) (fun _ => True) (fun _ _ _ _ => trivial)
    (dispatch_shaped cfg st name args) (s := s) trivial
  obtain ⟨hpersist, hquit⟩ := hshaped.sober hreply
  obtain ⟨hwhole, hlapse⟩ := exec_lapses hp E hs hpersist
  refine ⟨hpersist, hquit, hstate hreply, fun u hu => ?_, hlapse.length, fun j sh sh' hj hj' => ?_⟩
  · exact exec_unflagged hp E hs hpersist fun i h1 h2 => hu _ ⟨i, h1, h2, rfl⟩
  · have hsh := hlapse.shards j sh sh' hj hj'
    exact ⟨hsh.bytes (hs.kept _ (List.mem_of_getElem? hj))
      (hwhole.kept _ (List.mem_of_getElem? hj')), fun k e he => hsh.expired he⟩

/-- `INCR` on a string that is no number, in a store of at most a thousand bytes. -/
theorem failure_changes_nothing_incr :
    let r := boundedConn.node.sys.exec (fun _ => Env.plain 2)
      (dispatch ⟨1, 1000, true, none, none, none⟩ ConnState.internal (lit "incr") [lit "k"])
    isError r.1.1.reply = true ∧ r.2.world.store.raw.at 2 =
      boundedConn.node.sys.world.store.raw.at 2 := by
  intro r
  have herr : isError r.1.1.reply = true := by decide +kernel
  obtain ⟨msg, hmsg⟩ := isError_iff.1 herr
  obtain ⟨-, -, -, hsame, -⟩ :=
    failure_changes_nothing 1 1000 (fun _ => 0) (fun _ _ _ => 0) none _ 0
    ⟨1, 1000, true, none, none, none⟩ ConnState.internal (fun _ => Env.plain 2) (lit "incr")
      [lit "k"] msg hmsg
  refine ⟨herr, hsame 2 fun t ht => ?_⟩
  obtain ⟨n, -, -, rfl⟩ := ht
  exact le_rfl

end Inmem.L4
