import Inmem.Core.Scan
import Inmem.L3Store.Accounting
import Inmem.L3Store.Cache
import Inmem.L5Concurrency.Handshake
import Inmem.L5Concurrency.Threads

/-!
# Operations that go through the shards one by one

`keys` and `flush_all` lock one shard after the other, while other clients go on. Neither is
atomic, but for every single key both are: they happen when the shard of the key is visited.
`keys` reads the clock once, before the first shard, and a flush reads none.

* `keys_undisturbed`, `flush_undisturbed`: with nothing in between they are `Store.keys` and
  `Store.flushAll`;
* `keys_scan`: no key is listed twice, and a key is listed exactly if it is live when its
  shard is visited;
* `flush_per_key`: for every key, a flush comes to the same as one that flushes the whole store
  when it visits the key's shard, since every call treats a shard without a look at the others
  (`exec_shard`).
-/
namespace Inmem.L5

open Inmem.Core Inmem.L1 Inmem.L3

section
variable {σ : Type} [Score σ]

/-! ## Keys -/

/-- The keys of one shard after the other; the others act by calls of the store.
mirrors crates/core/src/store.rs:795-808 -/
def listing (now shards : Nat) : Scan.System (World σ) (Env × Call σ) (List Bytes) where
  size := shards
  act w p := (p.2.exec p.1 w).2
  look i w := (w.store.shards[i]?.map (Shard.keys now)).getD []

/-- With nothing in between, the keys are those of the store. -/
theorem keys_undisturbed (env : Env) (w : World σ) :
    ∃ c, Lts.run (Scan.step (listing env.now w.store.shards.length)) ⟨w, []⟩
        (List.replicate w.store.shards.length .look) = some c ∧
        c.seen.flatten = w.store.keys env := by
  refine ⟨_, Scan.scan_alone w _ le_rfl, ?_⟩
  rw [Store.keys, List.flatMap_def]
  congr 1
  refine List.ext_getElem (by simp) fun i h1 h2 => ?_
  have hi : i < w.store.shards.length := by simpa using h1
  simp [listing, hi]

/-- The store's keys belong to shards as `index` says. -/
structure Arranged (index : Bytes → Nat) (shards : Nat) (w : World σ) : Prop where
  routed : w.store.Routed
  index : w.store.index = index
  shards : w.store.shards.length = shards

theorem exec_arranged {index : Bytes → Nat} {n : Nat} (env : Env) (c : Call σ) {w : World σ}
    (h : Arranged index n w) : Arranged index n (c.exec env w).2 :=
  ⟨exec_routed env c h.routed, (exec_index env c w).trans h.index,
    (exec_shards_length env c w).trans h.shards⟩

theorem listing_arranged {index : Bytes → Nat} {now n : Nat}
    {moves : List (Scan.Move (Env × Call σ))} {c c' : Scan.Reader (World σ) (List Bytes)}
    (h : Arranged index n c.state) (hrun : Lts.run (Scan.step (listing now n)) c moves = some c') :
    Arranged index n c'.state := by
  refine Lts.run_keeps (I := fun c : Scan.Reader (World σ) (List Bytes) =>
    Arranged index n c.state) ?_ h hrun
  intro c m c' hc hs
  cases m with
  | act p => rw [Scan.step_act hs]; exact exec_arranged p.1 p.2 hc
  | look => rw [(Scan.step_look hs).2]; exact hc

/-- What the visit of a shard lists. -/
theorem mem_look {index : Bytes → Nat} {now n i : Nat} {w : World σ} (h : Arranged index n w)
    (hi : i < n) {k : Bytes} :
    k ∈ (listing now n).look i w ↔ index k = i ∧ (liveAt now (w.store.raw k)).isSome = true := by
  obtain ⟨hr, rfl, rfl⟩ := h
  have hlook : (listing now w.store.shards.length).look i w = w.store.shards[i].keys now := by
    simp [listing, hi]
  rw [hlook]
  constructor
  · intro hk
    obtain rfl := Store.index_of_mem_keys hr hi hk
    exact ⟨rfl, Shard.mem_keys_iff.1 hk⟩
  · rintro ⟨rfl, hk⟩
    exact Shard.mem_keys_iff.2 hk

theorem look_nodup (now n i : Nat) (w : World σ) : ((listing now n).look i w).Nodup := by
  show ((w.store.shards[i]?.map (Shard.keys now)).getD []).Nodup
  cases w.store.shards[i]? with
  | none => exact .nil
  | some sh => exact sh.keys_nodup now

/-- **Listing the keys** while others act on the store by any calls. No key is listed twice; and
every key is listed exactly if, when its shard is visited, it has a record that is live by the
clock reading at the start of the listing. -/
theorem keys_scan (now : Nat) (w : World σ) (hr : w.store.Routed)
    (moves : List (Scan.Move (Env × Call σ))) {c : Scan.Reader (World σ) (List Bytes)}
    (hrun : Lts.run (Scan.step (listing now w.store.shards.length)) ⟨w, []⟩ moves = some c)
    (hend : c.seen.length = w.store.shards.length) :
    c.seen.flatten.Nodup ∧ ∀ k, ∃ pre post mid, moves = pre ++ .look :: post ∧
      Lts.run (Scan.step (listing now w.store.shards.length)) ⟨w, []⟩ pre = some mid ∧
      mid.seen.length = w.store.index k ∧
      (k ∈ c.seen.flatten ↔ (liveAt now (mid.state.store.raw k)).isSome = true) := by
  have hstart : Arranged w.store.index w.store.shards.length w := ⟨hr, rfl, rfl⟩
  -- every part of the list is what one visit listed
  have hpart : ∀ i o, c.seen[i]? = some o → ∃ pre post mid, moves = pre ++ .look :: post ∧
      Lts.run (Scan.step (listing now w.store.shards.length)) ⟨w, []⟩ pre = some mid ∧
      mid.seen.length = i ∧ o.Nodup ∧
      ∀ k, k ∈ o ↔ w.store.index k = i ∧ (liveAt now (mid.state.store.raw k)).isSome = true := by
    intro i o ho
    obtain ⟨pre, post, mid, hsplit, hpre, hturn, rfl⟩ := Scan.seen_moment hrun (Nat.zero_le i) ho
    have hi : i < w.store.shards.length := hend ▸ (List.getElem?_eq_some_iff.1 ho).1
    exact ⟨pre, post, mid, hsplit, hpre, hturn, look_nodup ..,
      fun k => mem_look (listing_arranged hstart hpre) hi⟩
  have hindex : ∀ i (hi : i < c.seen.length), c.seen[i].Nodup ∧ ∀ k ∈ c.seen[i],
      w.store.index k = i := by
    intro i hi
    obtain ⟨pre, post, mid, hsplit, hpre, -, hnd, hmem⟩ := hpart i _ (List.getElem?_eq_getElem hi)
    exact ⟨hnd, fun k hk => ((hmem k).1 hk).1⟩
  refine ⟨?_, fun k => ?_⟩
  · rw [List.nodup_flatten]
    refine ⟨fun o ho => ?_, List.pairwise_iff_getElem.2 fun i j hi hj hij k h1 h2 => ?_⟩
    · obtain ⟨i, hi, rfl⟩ := List.getElem_of_mem ho
      exact (hindex i hi).1
    · have e1 := (hindex i hi).2 k h1
      have e2 := (hindex j hj).2 k h2
      omega
  · have hi : w.store.index k < c.seen.length := hend ▸ w.store.index_lt k
    obtain ⟨pre, post, mid, hsplit, hpre, hturn, -, hmem⟩ := hpart _ _ (List.getElem?_eq_getElem hi)
    refine ⟨pre, post, mid, hsplit, hpre, hturn, ?_⟩
    have hflat : k ∈ c.seen.flatten ↔ k ∈ c.seen[w.store.index k] := by
      constructor
      · intro hk
        obtain ⟨o, ho, hk⟩ := List.mem_flatten.1 hk
        obtain ⟨j, hj, rfl⟩ := List.getElem_of_mem ho
        obtain rfl := (hindex j hj).2 k hk
        exact hk
      · exact fun hk => List.mem_flatten.2 ⟨_, List.getElem_mem hi, hk⟩
    rw [hflat, hmem]
    exact and_iff_right rfl

/-! ## Flushing -/

/-- The flush of one shard, mirrors crates/core/src/store.rs:768-771 -/
def flushShard (env : Env) (s : Store σ) (j : Nat) : Store σ :=
  s.setShards (s.shards.modify j fun sh => Shard.new sh.budget fun i => env.hasher (3 * j + i))
    (List.length_modify ..)

/-- A flush on its way: the store and the shard that is next. -/
structure Flush (σ : Type) [Score σ] where
  world : World σ
  next : Nat

inductive FlushMove (σ : Type)
  | act (p : Env × Call σ)
  | visit (env : Env)

def Flush.step (f : Flush σ) : FlushMove σ → Option (Flush σ)
  | .act p => some { f with world := (p.2.exec p.1 f.world).2 }
  | .visit env =>
    if f.next < f.world.store.shards.length then
      some { world := { f.world with store := flushShard env f.world.store f.next },
             next := f.next + 1 }
    else none

/-- With nothing in between, the store is flushed. -/
theorem flush_undisturbed (env : Env) (w : World σ) :
    Lts.run Flush.step ⟨w, 0⟩ (List.replicate w.store.shards.length (.visit env)) =
      some ⟨{ w with store := w.store.flushAll env }, w.store.shards.length⟩ := by
  have hvisits : ∀ n ≤ w.store.shards.length,
      Lts.run Flush.step ⟨w, 0⟩ (List.replicate n (.visit env)) =
      some ⟨{ w with store := (List.range n).foldl (flushShard env) w.store }, n⟩ := by
    intro n
    induction n with
    | zero => exact fun _ => rfl
    | succ n ih =>
      intro hn
      have hlen : ((List.range n).foldl (flushShard env) w.store).shards.length =
          w.store.shards.length := by
        obtain ⟨h, e⟩ :=
          sweepShards_eq (fun j sh => Shard.new sh.budget fun i => env.hasher (3 * j + i))
            (List.range n) w.store
        exact (congrArg (fun s : Store σ => s.shards.length) e).trans h
      rw [List.replicate_succ', Lts.run_append, ih (by omega), List.range_succ, List.foldl_append]
      simp [Lts.run, Flush.step, hlen, Nat.lt_of_succ_le hn]
  rw [hvisits _ le_rfl]
  exact congrArg (fun s : Store σ =>
    some (⟨{ w with store := s }, w.store.shards.length⟩ : Flush σ))
    (sweep_pass (fun j sh => Shard.new sh.budget fun i => env.hasher (3 * j + i)) w.store)

/-- What the others do. -/
def acts (moves : List (FlushMove σ)) : List (Env × Call σ) :=
  moves.filterMap fun
    | .act p => some p
    | .visit _ => none

/-- What a call leaves of shard number `i`, given how the keys are routed. -/
def shardAfter (index : Bytes → Nat) (i : Nat) (sh : Shard σ) (p : Env × Call σ) : Shard σ :=
  match p.2 with
  | .key k op => if index k = i then (op.exec p.1 k sh).2 else sh
  | .flushAll => Shard.new sh.budget fun j => p.1.hasher (3 * i + j)
  | .purgeExpired => (sh.purgeExpired p.1.now).2
  | _ => sh

/-- A call treats every shard without a look at the others. -/
theorem exec_shard (p : Env × Call σ) (w : World σ) (i : Nat) :
    (p.2.exec p.1 w).2.store.shards[i]? =
      w.store.shards[i]?.map (shardAfter w.store.index i · p) := by
  obtain ⟨env, c⟩ := p
  cases c with
  | key k op =>
    simp only [Call.exec, Store.withShard, Store.setShards, shardAfter, List.getElem?_set]
    by_cases hk : w.store.index k = i
    · subst hk
      simp [Store.shard, w.store.index_lt k]
    · simp [hk]
  | flushAll => simp [Call.exec, Store.flushAll, Store.setShards, shardAfter]
  | purgeExpired => simp [Call.exec, Store.purgeExpired, Store.setShards, shardAfter]
  | save =>
    simp only [Call.exec]
    cases env.ioError <;> simp [shardAfter]
  | _ => simp [Call.exec, shardAfter]

theorem runCalls_index (calls : List (Env × Call σ)) (w : World σ) :
    (runCalls calls w).store.index = w.store.index :=
  runCalls_keeps (I := fun w' => w'.store.index = w.store.index)
    (fun env c w' h => (exec_index env c w').trans h) calls rfl

/-- A shard depends on the calls alone. -/
theorem runCalls_shard (i : Nat) (calls : List (Env × Call σ)) : ∀ w : World σ,
    (runCalls calls w).store.shards[i]? =
      w.store.shards[i]?.map (calls.foldl (shardAfter w.store.index i)) := by
  induction calls with
  | nil => exact fun w => Option.map_id.symm ▸ rfl
  | cons p calls ih =>
    intro w
    have hrest := ih (p.2.exec p.1 w).2
    rw [exec_shard, exec_index, Option.map_map] at hrest
    exact hrest

theorem Flush.step_visit {f f' : Flush σ} {env : Env} (h : f.step (.visit env) = some f') :
    f' = { world := { f.world with store := flushShard env f.world.store f.next },
           next := f.next + 1 } := by
  simp only [Flush.step] at h
  split at h
  · exact (Option.some.inj h).symm
  · cases h

theorem flush_index {moves : List (FlushMove σ)} {f f' : Flush σ}
    (h : Lts.run Flush.step f moves = some f') : f'.world.store.index = f.world.store.index := by
  refine Lts.run_keeps (I := fun g : Flush σ => g.world.store.index = f.world.store.index) ?_ rfl h
  intro g m g' hg hs
  cases m with
  | act p => rw [← Option.some.inj hs]; exact (exec_index p.1 p.2 g.world).trans hg
  | visit env => rw [Flush.step_visit hs]; exact hg

theorem flush_next_mono {moves : List (FlushMove σ)} :
    ∀ {f f' : Flush σ}, Lts.run Flush.step f moves = some f' → f.next ≤ f'.next := by
  induction moves with
  | nil => intro f f' h; exact Option.some.inj h ▸ le_rfl
  | cons m moves ih =>
    intro f f' h
    obtain ⟨t, ht, htail⟩ := Lts.run_cons h
    refine le_trans ?_ (ih htail)
    cases m with
    | act p => rw [← Option.some.inj ht]
    | visit env => rw [Flush.step_visit ht]; exact Nat.le_succ _

/-- What a flush leaves of the shard that it visits is what a flush of the whole store leaves. -/
theorem flushShard_shard (env : Env) (s : Store σ) (i j : Nat) : (flushShard env s j).shards[i]? =
    if j = i then s.shards[i]?.map (shardAfter s.index i · (env, .flushAll)) else s.shards[i]? := by
  simp only [flushShard, Store.setShards, shardAfter, List.getElem?_modify]
  by_cases hj : j = i
  · subst hj
    simp
  · simp [hj]

/-- A shard in a part of the run: its visit counts as a flush, the other visits as nothing. -/
theorem flush_shard (i : Nat) {moves : List (FlushMove σ)} :
    ∀ {f f' : Flush σ}, Lts.run Flush.step f moves = some f' →
    (f.next ≤ i → i < f'.next → ∃ pre env post mid, moves = pre ++ .visit env :: post ∧
      Lts.run Flush.step f pre = some mid ∧ mid.next = i ∧
      f'.world.store.shards[i]? = f.world.store.shards[i]?.map
        ((acts pre ++ (env, .flushAll) :: acts post).foldl (shardAfter f.world.store.index i))) ∧
    (i < f.next ∨ f'.next ≤ i → f'.world.store.shards[i]? =
      f.world.store.shards[i]?.map ((acts moves).foldl (shardAfter f.world.store.index i))) := by
  induction moves with
  | nil =>
    intro f f' h
    obtain rfl := Option.some.inj h
    exact ⟨fun h1 h2 => by omega, fun _ => Option.map_id.symm ▸ rfl⟩
  | cons m moves ih =>
    intro f f' h
    obtain ⟨t, ht, htail⟩ := Lts.run_cons h
    obtain ⟨h1, h2⟩ := ih htail
    cases m with
    | act p =>
      obtain rfl := Option.some.inj ht
      simp only [exec_index, exec_shard, Option.map_map] at h1 h2
      refine ⟨fun hle hlt => ?_, h2⟩
      obtain ⟨pre, env, post, mid, rfl, hpre, hmid, hshard⟩ := h1 hle hlt
      exact ⟨.act p :: pre, env, post, mid, rfl, (Lts.run_step ht pre).trans hpre, hmid, hshard⟩
    | visit env =>
      have hmono := flush_next_mono htail
      obtain rfl := Flush.step_visit ht
      have hindex : (flushShard env f.world.store f.next).index = f.world.store.index := rfl
      simp only [hindex, flushShard_shard] at h1 h2 hmono
      refine ⟨fun hle hlt => ?_, fun hout => ?_⟩
      · by_cases he : f.next = i
        · -- this is the visit; the rest of the run leaves the shard to the calls
          refine ⟨[], env, moves, f, rfl, rfl, he, ?_⟩
          rw [h2 (.inl (by omega)), if_pos he, Option.map_map]
          rfl
        · obtain ⟨pre, env', post, mid, rfl, hpre, hmid, hshard⟩ := h1 (by omega) hlt
          rw [if_neg he] at hshard
          exact ⟨.visit env :: pre, env', post, mid, rfl, (Lts.run_step ht pre).trans hpre, hmid,
            hshard⟩
      · rw [h2 (by omega), if_neg (by omega)]
        rfl

/-- **Flushing** while others act on the store by any calls. For every key, when its shard is
visited is the moment such that the shard, and with it the key's record, ends up as if the whole
store had been flushed at that moment and at no other. -/
theorem flush_per_key (w : World σ) (moves : List (FlushMove σ)) {f : Flush σ}
    (hrun : Lts.run Flush.step ⟨w, 0⟩ moves = some f) (hend : f.next = w.store.shards.length)
    (k : Bytes) :
    ∃ pre env post mid, moves = pre ++ .visit env :: post ∧
      Lts.run Flush.step ⟨w, 0⟩ pre = some mid ∧
      mid.next = w.store.index k ∧
      f.world.store.shard k =
        (runCalls (acts pre ++ (env, .flushAll) :: acts post) w).store.shard k := by
  obtain ⟨pre, env, post, mid, rfl, hpre, hmid, hshard⟩ :=
    (flush_shard (w.store.index k) hrun).1 (Nat.zero_le _) (hend ▸ w.store.index_lt k)
  refine ⟨pre, env, post, mid, rfl, hpre, hmid, ?_⟩
  have hget : ∀ s : Store σ, s.index = w.store.index →
      s.shards[w.store.index k]? = some (s.shard k) := by
    intro s hs
    rw [← hs]
    exact List.getElem?_eq_getElem (s.index_lt k)
  rw [← runCalls_shard, hget _ (flush_index hrun), hget _ (runCalls_index _ w)] at hshard
  exact Option.some.inj hshard

end

/-- Two shards with a key each. -/
def sweptShards : World Int :=
  runCalls [(Env.plain 0, .key (lit "a") (.set (lit "1") {})),
    (Env.plain 0, .key (lit "b") (.set (lit "2") {}))]
    ⟨Store.new 2 0 (fun k => if k = lit "a" then 0 else 1) (fun _ _ _ => 0), none⟩

theorem sweptShards_good : sweptShards.store.Good := runCalls_good _ (new_good ..)

/-- Between the two visits the first key is deleted and the second one renamed to a third. -/
def listingMoves : List (Scan.Move (Env × Call Int)) :=
  [.look, .act (Env.plain 1, .key (lit "a") .del),
    .act (Env.plain 1, .key (lit "c") (.set (lit "2") {})), .act (Env.plain 1, .key (lit "b") .del),
    .look]

theorem keys_scan_two :
    ∃ c, Lts.run (Scan.step (listing 1 sweptShards.store.shards.length))
      ⟨sweptShards, []⟩ listingMoves = some c ∧
      c.seen.flatten = [lit "a", lit "c"] ∧ c.seen.flatten.Nodup ∧
      ∀ k, ∃ pre post mid, listingMoves = pre ++ .look :: post ∧
        Lts.run (Scan.step (listing 1 sweptShards.store.shards.length)) ⟨sweptShards, []⟩ pre =
          some mid ∧
        mid.seen.length = sweptShards.store.index k ∧
        (k ∈ c.seen.flatten ↔ (liveAt 1 (mid.state.store.raw k)).isSome = true) := by
  have hrun :
      (Lts.run (Scan.step (listing 1 sweptShards.store.shards.length))
        ⟨sweptShards, []⟩ listingMoves).isSome = true := by
    decide +kernel
  obtain ⟨c, hc⟩ := Option.isSome_iff_exists.1 hrun
  have hseen : ∀ c ∈ Lts.run (Scan.step (listing 1 sweptShards.store.shards.length))
      ⟨sweptShards, []⟩ listingMoves,
      c.seen = [[lit "a"], [lit "c"]] ∧ c.seen.length = sweptShards.store.shards.length := by
    decide +kernel
  obtain ⟨h1, h2⟩ := keys_scan 1 sweptShards sweptShards_good.routed listingMoves hc (hseen c hc).2
  exact ⟨c, hc, by rw [(hseen c hc).1]; rfl, h1, h2⟩

/-- Between the two visits both keys are written again. -/
def flushMoves : List (FlushMove Int) :=
  [.visit (Env.plain 1), .act (Env.plain 1, .key (lit "a") (.set (lit "3") {})),
    .act (Env.plain 1, .key (lit "b") (.set (lit "4") {})), .visit (Env.plain 2)]

/-- One write survives, the other does not. -/
theorem flush_per_key_two :
    ∃ f, Lts.run Flush.step ⟨sweptShards, 0⟩ flushMoves = some f ∧
      (f.world.store.raw (lit "a")).isSome = true ∧
      (f.world.store.raw (lit "b")).isSome = false ∧
      ∀ k, ∃ pre env post mid, flushMoves = pre ++ .visit env :: post ∧
        Lts.run Flush.step ⟨sweptShards, 0⟩ pre = some mid ∧ mid.next = sweptShards.store.index k ∧
        f.world.store.shard k =
          (runCalls (acts pre ++ (env, .flushAll) :: acts post) sweptShards).store.shard k := by
  have hrun : (Lts.run Flush.step ⟨sweptShards, 0⟩ flushMoves).isSome = true := by decide +kernel
  obtain ⟨f, hf⟩ := Option.isSome_iff_exists.1 hrun
  have hstate : ∀ f ∈ Lts.run Flush.step ⟨sweptShards, 0⟩ flushMoves,
      f.next = sweptShards.store.shards.length ∧
      (f.world.store.raw (lit "a")).isSome = true ∧
      (f.world.store.raw (lit "b")).isSome = false := by decide +kernel
  obtain ⟨hend, ha, hb⟩ := hstate f hf
  exact ⟨f, hf, ha, hb, flush_per_key sweptShards flushMoves hf hend⟩

end Inmem.L5
