import Inmem.Core.Scan
import Inmem.L4App.Snapshot
import Inmem.L4App.Timeless
import Inmem.L5Concurrency.Handshake

/-!
# Snapshots while others write

`dump_commands` takes the lock of one shard at a time (`crates/core/src/store.rs`
812-828), so that other clients' operations can fall between the dumps of two shards.

`Encodes D out v`: the bytes are a dump of the keyspace `v`, its records written one
after another; loading them gives `v` back (`Encodes.loads`). `dumping` is the scan of
the shards; with nothing in between it gives `dump_commands` (`dump_undisturbed`).

* `snapshot_point_in_time`: what the dump encodes is the keyspace of one moment, if up
  to then clients write to shards that are yet to be dumped only, and from then on to
  shards that have been.
* `snapshot_tears`: a write to a shard that has been dumped, and then one to a shard that
  has not: the dump has the second and lacks the first.
-/
namespace Inmem.L5

open Inmem.Core Inmem.L1 Inmem.L1.Resp Inmem.L3 Inmem.L4

section
variable {σ : Type} [Score σ]

/-! ## What a dump encodes -/

/-- The bytes are the commands that recreate the records of `v`, each record once. -/
def Encodes (D : Env) (out : Bytes) (v : View σ) : Prop :=
  ∃ ks : List Bytes, ks.Nodup ∧ (∀ k, k ∈ ks ↔ (v k).isSome = true) ∧
    out = encodeAll (viewCmds D v ks)

/-- A dump of a store that nobody writes to encodes its keyspace. -/
theorem dumpCommands_encodes {s : Store σ} (hr : s.Routed) (D : Env) :
    Encodes D (s.dumpCommands D) (s.raw.at D.now) :=
  ⟨s.keys D, Store.keys_nodup hr D, fun _ => Store.mem_keys hr D, dumpCommands_eq hr D⟩

/-- Loaded into an empty store, the bytes give the keyspace they encode, if its records can
be read back. -/
theorem Encodes.loads {D : Env} {out : Bytes} {v : View σ} (h : Encodes D out v)
    (hfull : ∀ k, RecFull (v k)) (hload : ∀ k r, v k = some r → Loadable D k r) (cfg : Config)
    (hmem : cfg.maxmemory = 0) (E : Surroundings) (router : Bytes → UInt64)
    (hasher : Nat → Nat → Bytes → UInt64) (file : Option Bytes) :
    (replayFile cfg E out (Sys.empty cfg router hasher file)).2.world.store.raw = v := by
  obtain ⟨ks, hnd, hmem', rfl⟩ := h
  have hfits : ∀ a ∈ viewCmds D v ks, a.Fits := by
    intro a ha
    obtain ⟨k, -, ha⟩ := List.mem_flatMap.1 ha
    cases hr : v k with
    | none => rw [hr] at ha; cases ha
    | some r => rw [hr] at ha; exact (hload k r hr).fits_all a ha
  rw [replayFile_eq, frames_encodeAll _ hfits]
  exact (apply_snapshot cfg E D hfull (fun k r hr => (hload k r hr).scores.legible) ks hnd
    (Sys.empty_good hmem router hasher file)).raw_eq (Sys.empty_raw ..) (fun k => (hmem' k).2)
    fun k r hr => (hload k r hr).sent

theorem viewCmds_congr {D : Env} {v v' : View σ} {ks : List Bytes} (h : ∀ k ∈ ks, v k = v' k) :
    viewCmds D v ks = viewCmds D v' ks :=
  List.flatMap_congr fun k hk => by rw [h k hk]

/-- The records of one shard. -/
def shardView (index : Bytes → Nat) (v : View σ) (i : Nat) : View σ :=
  fun k => if index k = i then v k else none

omit [Score σ] in
theorem shardView_isSome {index : Bytes → Nat} {v : View σ} {i : Nat} {k : Bytes} :
    (shardView index v i k).isSome = true ↔ index k = i ∧ (v k).isSome = true := by
  unfold shardView
  split
  · rename_i h; simp [h]
  · rename_i h; simp [h]

/-- Dumps of all the shards, one after the other, are a dump of the keyspace. -/
theorem encodes_flatten {D : Env} {index : Bytes → Nat} {v : View σ} {outs : List Bytes}
    (hindex : ∀ k, index k < outs.length)
    (h : ∀ i o, outs[i]? = some o → Encodes D o (shardView index v i)) :
    Encodes D outs.flatten v := by
  -- the shards up to `n`, by induction on `n`
  have key : ∀ n ≤ outs.length, ∃ ks : List Bytes,
      ks.Nodup ∧ (∀ k, k ∈ ks ↔ index k < n ∧ (v k).isSome = true) ∧
      (outs.take n).flatten = encodeAll (viewCmds D v ks) := by
    intro n
    induction n with
    | zero => exact fun _ => ⟨[], List.nodup_nil, fun k => by simp, rfl⟩
    | succ n ih =>
      intro hn
      obtain ⟨ks, hnd, hmem, hout⟩ := ih (by omega)
      obtain ⟨ks', hnd', hmem', hout'⟩ := h n outs[n] (List.getElem?_eq_getElem hn)
      have hmem' : ∀ k, k ∈ ks' ↔ index k = n ∧ (v k).isSome = true :=
        fun k => (hmem' k).trans shardView_isSome
      refine ⟨ks ++ ks', ?_, fun k => ?_, ?_⟩
      · refine hnd.append hnd' fun k hk hk' => ?_
        have h1 := ((hmem k).1 hk).1
        have h2 := ((hmem' k).1 hk').1
        omega
      · rw [List.mem_append, hmem, hmem', ← or_and_right, Nat.lt_succ_iff_lt_or_eq]
      · have hview : viewCmds D (shardView index v n) ks' = viewCmds D v ks' :=
          viewCmds_congr fun k hk => if_pos ((hmem' k).1 hk).1
        rw [List.take_succ_eq_append_getElem hn, List.flatten_append, hout, hout', hview, viewCmds,
          viewCmds, viewCmds, List.flatMap_append, encodeAll_append]
        simp
  obtain ⟨ks, hnd, hmem, hout⟩ := key outs.length le_rfl
  rw [List.take_length] at hout
  exact ⟨ks, hnd, fun k => (hmem k).trans (and_iff_right (hindex k)), hout⟩

/-! ## The scan -/

/-- The shards are dumped one by one, with the surroundings of the dump; the others act
by calls of the store. -/
def dumping (D : Env) (shards : Nat) : Scan.System (World σ) (Env × Call σ) Bytes where
  size := shards
  act w p := (p.2.exec p.1 w).2
  look i w := (w.store.shards[i]?.map fun sh => (sh.dumpArgs D).flatMap encodeArgs).getD []

/-- With nothing in between, the dump is that of the store. -/
theorem dump_undisturbed (D : Env) (w : World σ) :
    ∃ c, Lts.run (Scan.step (dumping D w.store.shards.length)) ⟨w, []⟩
        (List.replicate w.store.shards.length .look) = some c ∧
        c.seen.flatten = w.store.dumpCommands D := by
  refine ⟨_, Scan.scan_alone w _ le_rfl, ?_⟩
  rw [Store.dumpCommands, Store.dumpArgs, List.flatMap_assoc, List.flatMap_def]
  congr 1
  refine List.ext_getElem (by simp) fun i h1 h2 => ?_
  have hi : i < w.store.shards.length := by simpa using h1
  simp [dumping, hi]

/-- The dump of one shard. -/
theorem shard_encodes {s : Store σ} (hr : s.Routed) (D : Env) {i : Nat} {sh : Shard σ}
    (hi : s.shards[i]? = some sh) :
    Encodes D ((sh.dumpArgs D).flatMap encodeArgs) (shardView s.index (s.raw.at D.now) i) := by
  obtain ⟨hlt, rfl⟩ := List.getElem?_eq_some_iff.1 hi
  -- the shard holds what the store holds under the keys that belong to it
  have hraw : ∀ k, s.index k = i → s.raw k = s.shards[i].raw k := by
    rintro k rfl; rfl
  refine ⟨s.shards[i].keys D.now, s.shards[i].keys_nodup _, fun k => ?_, ?_⟩
  · rw [shardView_isSome, View.at]
    constructor
    · intro hk
      have hidx := Store.index_of_mem_keys hr hlt hk
      exact ⟨hidx, by rw [hraw k hidx]; exact Shard.mem_keys_iff.1 hk⟩
    · rintro ⟨hidx, hlive⟩
      rw [hraw k hidx] at hlive
      exact Shard.mem_keys_iff.2 hlive
  · rw [Shard.dumpArgs_eq, viewCmds, encodeAll, List.flatMap_assoc, List.flatMap_assoc]
    refine List.flatMap_congr fun k hk => ?_
    have hidx := Store.index_of_mem_keys hr hlt hk
    rw [shardView, if_pos hidx, View.at, hraw k hidx]
    cases liveAt D.now (s.shards[i].raw k) with
    | none => rfl
    | some r =>
      simp only [Option.elim_some, recCmds_eq, List.flatMap_map]
      rfl

/-! ## The other clients -/

/-- The call sets no deadline. -/
def setsNone : Call σ → Bool
  | .key _ (.set _ opts) => opts.expireAt.isNone
  | .key _ (.expireAt deadline) => deadline.isNone
  | _ => true

/-- The call may change the record of the key. -/
def Touches : Call σ → Bytes → Prop
  | .key k op, k' => op.isRead = false ∧ k' = k
  | .flushAll, _ => True
  | _, _ => False

/-- A store without a budget and without deadlines, whose keys belong to shards as
`index` says. -/
structure Limitless (index : Bytes → Nat) (w : World σ) : Prop where
  good : w.store.Good
  timeless : w.store.raw.Timeless
  index : w.store.index = index

variable {index : Bytes → Nat} {w : World σ}

omit [Score σ] in
theorem clockless_of_setsNone {k : Bytes} {op : KeyOp σ} (h : setsNone (.key k op) = true) :
    Clockless (.key k op) := by
  cases op with
  | set v opts => exact Option.isNone_iff_eq_none.1 h
  | expireAt d => exact Option.isNone_iff_eq_none.1 h
  | _ => trivial

/-- What a call that sets no deadline does to such a store. -/
theorem limitless_call (env : Env) {c : Call σ} (hc : setsNone c = true) (h : Limitless index w) :
    Limitless index (c.exec env w).2 ∧ ∀ k, ¬ Touches c k →
      (c.exec env w).2.store.raw k = w.store.raw k := by
  have hgood := exec_good env c h.good
  have hindex : (c.exec env w).2.store.index = index := (exec_index env c w).trans h.index
  cases c with
  | key k op =>
    have hraw := exec_raw env (.key k op) h.good (by simp)
    have hspec := spec_timeless (clockless_of_setsNone hc) (h.timeless k) env.now env.now
    simp only [Call.spec, h.timeless.live] at hraw
    refine ⟨⟨hgood, ?_, hindex⟩, fun k' hk' => ?_⟩
    · rw [hraw]
      exact h.timeless.put k hspec.2
    · rw [hraw]
      by_cases hkk : k' = k
      · subst hkk
        have hread : op.isRead = true := by
          by_contra hr
          exact hk' ⟨Bool.eq_false_iff.2 hr, rfl⟩
        rw [View.put_self, read_spec hread]
      · exact View.put_other _ _ hkk
  | flushAll =>
    refine ⟨⟨hgood, ?_, hindex⟩, fun k hk => absurd trivial hk⟩
    rw [exec_raw env .flushAll h.good (by simp)]
    exact View.timeless_none
  | purgeExpired =>
    have hraw : (Call.purgeExpired.exec env w).2.store.raw = w.store.raw :=
      (Store.purgeExpired_raw env).trans (h.timeless.at env.now)
    exact ⟨⟨hgood, hraw ▸ h.timeless, hindex⟩, fun k _ => congrFun hraw k⟩
  | keys | dbsize | shardCount | nowMs => exact ⟨h, fun _ _ => rfl⟩
  | save =>
    have hstore : (Call.save.exec env w).2.store = w.store := by
      simp only [Call.exec]
      cases env.ioError <;> rfl
    exact ⟨⟨hgood, hstore ▸ h.timeless, hindex⟩, fun k _ => by rw [hstore]⟩

theorem limitless_run {run : List (Env × Call σ)} (hrun : ∀ p ∈ run, setsNone p.2 = true)
    (h : Limitless index w) : Limitless index (runCalls run w) := by
  induction run generalizing w with
  | nil => exact h
  | cons p run ih =>
    exact ih (fun q hq => hrun q (List.mem_cons_of_mem _ hq))
      (limitless_call p.1 (hrun p List.mem_cons_self) h).1

/-! ## One moment -/

/-- Clients write only to shards that are yet to be dumped. -/
def Undumped (c : Scan.Reader (World σ) Bytes) : Scan.Move (Env × Call σ) → Prop
  | .act p => ∀ k, Touches p.2 k → c.seen.length ≤ c.state.store.index k
  | .look => True

/-- Clients write only to shards that have been dumped. -/
def Dumped (c : Scan.Reader (World σ) Bytes) : Scan.Move (Env × Call σ) → Prop
  | .act p => ∀ k, Touches p.2 k → c.state.store.index k < c.seen.length
  | .look => True

/-- The client's call, if it is one, sets no deadline. -/
def moveSetsNone : Scan.Move (Env × Call σ) → Bool
  | .act p => setsNone p.2
  | .look => true

/-- There is a moment up to which clients write only to shards that are yet to be dumped,
and from which on they write only to shards that have been. -/
def OneSided (sys : Scan.System (World σ) (Env × Call σ) Bytes) (c : Scan.Reader (World σ) Bytes)
    (moves : List (Scan.Move (Env × Call σ))) : Prop :=
  ∃ pre post, moves = pre ++ post ∧ Lts.Along (Scan.step sys) Undumped c pre ∧
    ∀ mid, Lts.run (Scan.step sys) c pre = some mid → Lts.Along (Scan.step sys) Dumped mid post

omit [Score σ] in
theorem shardView_congr {v v' : View σ} {i : Nat} (h : ∀ k, index k = i → v' k = v k) :
    shardView index v' i = shardView index v i := by
  funext k
  unfold shardView
  split
  · rename_i hk; exact h k hk
  · rfl

/-- What the dump sees of a shard are the shard's records. -/
theorem look_encodes (D : Env) (shards i : Nat) (h : Limitless index w) :
    Encodes D ((dumping D shards).look i w) (shardView index w.store.raw i) := by
  rw [← h.index]
  cases hi : w.store.shards[i]? with
  | some sh =>
    have hdump := shard_encodes h.good.routed D hi
    rw [h.timeless.at] at hdump
    simpa [dumping, hi] using hdump
  | none =>
    -- there is no such shard, and no key belongs to it
    refine ⟨[], List.nodup_nil, fun k => iff_of_false List.not_mem_nil fun hk => ?_,
      by simp [dumping, hi]; rfl⟩
    have hlt := w.store.index_lt k
    have hle := List.getElem?_eq_none_iff.1 hi
    rw [(shardView_isSome.1 hk).1] at hlt
    omega

/-- A shard with no key that the call may change. -/
theorem part_untouched (env : Env) {c : Call σ} (hc : setsNone c = true) (h : Limitless index w)
    {i : Nat} (hi : ∀ k, Touches c k → index k ≠ i) :
    shardView index (c.exec env w).2.store.raw i = shardView index w.store.raw i :=
  shardView_congr fun k hk => (limitless_call env hc h).2 k fun htouch => hi k htouch hk

theorem ahead_of_undumped {D : Env} {shards : Nat} {c : Scan.Reader (World σ) Bytes}
    {m : Scan.Move (Env × Call σ)} (hc : Limitless index c.state)
    (h : Undumped c m ∧ moveSetsNone m = true) :
    Scan.Ahead (dumping D shards) (fun i w => shardView index w.store.raw i) c m := by
  cases m with
  | look => trivial
  | act p =>
    refine fun i hi => part_untouched p.1 h.2 hc fun k htouch => ?_
    have hle := h.1 k htouch
    rw [hc.index] at hle
    omega

theorem behind_of_dumped {D : Env} {shards : Nat} {c : Scan.Reader (World σ) Bytes}
    {m : Scan.Move (Env × Call σ)} (hc : Limitless index c.state)
    (h : Dumped c m ∧ moveSetsNone m = true) :
    Scan.Behind (dumping D shards) (fun i w => shardView index w.store.raw i) c m := by
  cases m with
  | look => trivial
  | act p =>
    refine fun i hi => part_untouched p.1 h.2 hc fun k htouch => ?_
    have hlt := h.1 k htouch
    rw [hc.index] at hlt
    omega

/-- **A snapshot is the keyspace of one moment**, if clients write on one side of the dump
at a time: any store without a budget that calls without deadlines lead to, and any
interleaving of its dump with such calls, in which after a write to a shard that has
been dumped there is none to a shard that has not. -/
theorem snapshot_point_in_time (shards : Nat) (router : Bytes → UInt64)
    (hasher : Nat → Nat → Bytes → UInt64) (file : Option Bytes) (run : List (Env × Call σ))
    (hrun : ∀ p ∈ run, setsNone p.2 = true) (D : Env) (moves : List (Scan.Move (Env × Call σ)))
    (hmoves : ∀ m ∈ moves, moveSetsNone m = true) {last : Scan.Reader (World σ) Bytes} :
    let w := runCalls run ⟨Store.new shards 0 router hasher, file⟩
    let sys := dumping D w.store.shards.length
    Lts.run (Scan.step sys) ⟨w, []⟩ moves = some last → last.seen.length = sys.size →
      OneSided sys ⟨w, []⟩ moves →
      ∃ pre post mid, moves = pre ++ post ∧ Lts.run (Scan.step sys) ⟨w, []⟩ pre = some mid ∧
        Encodes D last.seen.flatten mid.state.store.raw := by
  intro w sys hall hdone ⟨pre, post, hsplit, hahead, hbehind⟩
  subst hsplit
  rw [Lts.run_append] at hall
  obtain ⟨mid, hpre, hpost⟩ := Option.bind_eq_some_iff.1 hall
  have hstart : Limitless w.store.index w := by
    have hnew : Limitless (Store.new shards 0 router hasher : Store σ).index
        ⟨Store.new shards 0 router hasher, file⟩ :=
      ⟨new_good shards router hasher, by rw [new_raw]; exact View.timeless_none, rfl⟩
    have hw := limitless_run hrun hnew
    exact ⟨hw.good, hw.timeless, rfl⟩
  have hseen :=
    Scan.seen_at (I := Limitless w.store.index)
      (P := fun c m => Undumped c m ∧ moveSetsNone m = true)
    (Q := fun c m => Dumped c m ∧ moveSetsNone m = true) hstart
    (fun c m c' hc hm hs => by
      cases m with
      | act p =>
        rw [Scan.step_act hs]
        exact (limitless_call p.1 (hm.elim And.right And.right) hc).1
      | look =>
        rw [(Scan.step_look hs).2]
        exact hc)
    (fun w' hw' i _ => look_encodes D _ i hw')
    (fun _ _ hc hm => ahead_of_undumped hc hm) (fun _ _ hc hm => behind_of_dumped hc hm) hpre hpost
    (hahead.and_moves fun m hm => hmoves m (List.mem_append_left _ hm))
    ((hbehind mid hpre).and_moves fun m hm => hmoves m (List.mem_append_right _ hm))
  refine ⟨pre, post, mid, rfl, hpre, encodes_flatten (fun k => ?_) hseen⟩
  rw [hdone]
  exact w.store.index_lt k

/-- A dump has the commands of every record of what it encodes. -/
theorem Encodes.mem {D : Env} {out : Bytes} {v : View σ} (h : Encodes D out v) {k : Bytes}
    {r : Rec σ} (hk : v k = some r) {b : UInt8} (hb : b ∈ encodeAll (restoreCmds D k r)) :
    b ∈ out := by
  obtain ⟨ks, -, hmem, rfl⟩ := h
  obtain ⟨a, ha, hb⟩ := List.mem_flatMap.1 hb
  have hkey : k ∈ ks := (hmem k).2 (by rw [hk]; rfl)
  exact List.mem_flatMap.2 ⟨a, List.mem_flatMap.2 ⟨k, hkey, by rw [hk]; exact ha⟩, hb⟩

theorem Encodes.nil {D : Env} {out : Bytes} {v : View σ} (h : Encodes D out v)
    (hv : ∀ k, v k = none) : out = [] := by
  obtain ⟨ks, -, hmem, rfl⟩ := h
  have hks : ks = [] := List.eq_nil_iff_forall_not_mem.2 fun k hk => by
    have hsome := (hmem k).1 hk
    rw [hv] at hsome
    cases hsome
  rw [hks]
  rfl

end

/-- Two shards; `b` belongs to the second. -/
def twoShards : World Int :=
  ⟨Store.new 2 0 (fun k => if k = lit "b" then 1 else 0) (fun _ _ _ => 0), none⟩

/-- A client sets a key. -/
def setMove (k : String) : Scan.Move (Env × Call Int) :=
  .act (Env.plain 0, .key (lit k) (.set (lit "v") {}))

/-- Each key is set before its shard is dumped. -/
def untorn : List (Scan.Move (Env × Call Int)) := [setMove "a", .look, setMove "b", .look]

theorem snapshot_point_in_time_ahead :
    let sys := dumping (Env.plain 0) twoShards.store.shards.length
    ∃ last pre post mid, Lts.run (Scan.step sys) ⟨twoShards, []⟩ untorn = some last ∧
      untorn = pre ++ post ∧
      Lts.run (Scan.step sys) ⟨twoShards, []⟩ pre = some mid ∧
      Encodes (Env.plain 0) last.seen.flatten mid.state.store.raw := by
  intro sys
  obtain ⟨last, hlast, hdone⟩ : ∃ last,
    Lts.run (Scan.step sys) ⟨twoShards, []⟩ untorn = some last ∧ last.seen.length = sys.size := by
    have h : (Lts.run (Scan.step sys) ⟨twoShards, []⟩ untorn).map (fun c => c.seen.length) =
        some sys.size := by decide +kernel
    exact Option.map_eq_some_iff.1 h
  have hside : OneSided sys ⟨twoShards, []⟩ untorn := by
    refine ⟨untorn, [], (List.append_nil _).symm, ?_, fun _ _ => trivial⟩
    refine ⟨fun k _ => Nat.zero_le _,
      fun c₁ h₁ => ⟨trivial, fun c₂ h₂ => ⟨?_, fun _ _ => ⟨trivial, fun _ _ => trivial⟩⟩⟩⟩
    rw [(Scan.step_look h₂).2, Scan.step_act h₁]
    rintro k ⟨-, rfl⟩
    decide +kernel
  obtain ⟨pre, post, mid, h1, h2, h3⟩ :=
    snapshot_point_in_time 2 _ _ none [] (fun _ h => by cases h) (Env.plain 0) untorn
    (by decide) hlast hdone hside
  exact ⟨last, pre, post, mid, hlast, h1, h2, h3⟩

/-- `a` is set after its shard has been dumped, and then `b` before its shard is. -/
def torn : List (Scan.Move (Env × Call Int)) := [.look, setMove "a", setMove "b", .look]

/-- The dump has `b` but not `a`, and at no time did the store. -/
theorem snapshot_tears :
    let sys := dumping (Env.plain 0) twoShards.store.shards.length
    ∃ last, Lts.run (Scan.step sys) ⟨twoShards, []⟩ torn = some last ∧ last.seen.length = sys.size ∧
      last.seen.flatten = encodeAll [(lit "SET", [lit "b", lit "v"])] ∧
      ¬ ∃ pre post mid, torn = pre ++ post ∧
      Lts.run (Scan.step sys) ⟨twoShards, []⟩ pre = some mid ∧
        Encodes (Env.plain 0) last.seen.flatten mid.state.store.raw := by
  intro sys
  obtain ⟨last, hlast, hseen⟩ : ∃ last, Lts.run (Scan.step sys) ⟨twoShards, []⟩ torn = some last ∧
      last.seen = [[], encodeAll [(lit "SET", [lit "b", lit "v"])]] := by
    have h : (Lts.run (Scan.step sys) ⟨twoShards, []⟩ torn).map (fun c => c.seen) =
        some [[], encodeAll [(lit "SET", [lit "b", lit "v"])]] := by decide +kernel
    exact Option.map_eq_some_iff.1 h
  have hout : last.seen.flatten = encodeAll [(lit "SET", [lit "b", lit "v"])] := by rw [hseen]; rfl
  refine ⟨last, hlast, by rw [hseen]; decide +kernel, hout, ?_⟩
  rw [hout]
  rintro ⟨pre, post, mid, hsplit, hmid, henc⟩
  have hpre : pre = torn.take pre.length := by rw [hsplit, List.take_left]
  have hlen : pre.length ≤ 4 := by
    have := congrArg List.length hsplit
    rw [List.length_append] at this
    exact le_trans (Nat.le_add_right _ _) this.ge
  rw [hpre] at hmid
  -- before `a` is set the store is empty, and from then on it has `a`
  have hempty : ∀ k, twoShards.store.raw k = none := fun k => congrFun (new_raw ..) k
  have ha : ∀ n ∈ [2, 3, 4], (Lts.run (Scan.step sys) ⟨twoShards, []⟩ (torn.take n)).map
      (fun c => c.state.store.raw (lit "a")) = some (some ⟨.str (lit "v"), none⟩) := by
    decide +kernel
  rcases Nat.lt_or_ge pre.length 2 with hlt | hge
  · have hstate : mid.state = twoShards := by
      generalize pre.length = n at hmid hlt
      match n, hlt with
      | 0, _ => cases hmid; rfl
      | 1, _ =>
        obtain ⟨c, hc, hrest⟩ := Lts.run_cons hmid
        cases hrest
        rw [(Scan.step_look hc).2]
    rw [hstate] at henc
    cases henc.nil hempty
  · have h := ha pre.length (by simp only [List.mem_cons, List.not_mem_nil, or_false]; omega)
    rw [hmid] at h
    exact absurd (henc.mem (Option.some.inj h) (b := 97) (by decide +kernel)) (by decide +kernel)

end Inmem.L5
