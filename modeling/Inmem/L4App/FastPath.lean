import Inmem.L4App.Persistence

/-!
# The fast path

`serve_fast` answers `GET`, `SET`, `PING`, `INCR` and `DECR` without building a
`Reply`: it reads strings without copying them and writes numbers with its own
digit loop. Replay and replication run the same commands through `dispatch`.

`fast_path`: run at one clock reading on the same store, bounded or not, the two
give the same bytes, the same persist flag and the same store, policy and byte
count included.
-/
namespace Inmem.L4

open Inmem.Core Inmem.L1 Inmem.L1.Resp Inmem.L3

section
variable {σ : Type} [Score σ]

/-! ## The store's two ways to read a string -/

/-- `read_str` from the result of `get`. -/
def strRead : Except StoreErr (Option Bytes) → StrRead
  | .ok (some v) => .str v
  | .ok none => .none
  | .error _ => .wrongType

/-- `read_str` reads what `get` does, and has the same effects. -/
theorem readStr_eq (s : Shard σ) (k : Bytes) (now : Nat) :
    s.readStr k now = (strRead (s.get k now).1, (s.get k now).2) := by
  unfold Shard.readStr Shard.get
  rcases s.live k now with ⟨_ | _, s'⟩
  · rfl
  · simp only [Bool.not_true, Bool.false_eq_true, if_false]
    rcases (s'.touch k).value k with _ | v
    · rfl
    · cases v <;> rfl

theorem get_error {s : Shard σ} {k : Bytes} {now : Nat} {e : StoreErr}
    (h : (s.get k now).1 = .error e) : e = .wrongType := by
  unfold Shard.get at h
  dsimp only at h
  split at h
  · cases h
  · split at h <;> cases h; rfl

/-- What `get` finds is stored. -/
theorem get_stored {s : Shard σ} {k v : Bytes} {now : Nat} (h : (s.get k now).1 = .ok (some v)) :
    ∃ d, s.map.get k = some ⟨.str v, d⟩ := by
  unfold Shard.get at h
  cases hg : s.map.get k with
  | none => simp [Shard.live_absent hg] at h
  | some e =>
    cases he : expired now e.expireAt with
    | true => simp [Shard.live_expired hg he] at h
    | false =>
      obtain ⟨x, d⟩ := e
      simp only [Shard.live_present hg he, Bool.false_eq_true, if_false, Bool.not_true, Shard.value,
        Shard.touch_map, hg, Option.map_some] at h
      cases x with
      | str w => cases h; exact ⟨d, rfl⟩
      | _ => cases h

theorem set_plain_true (s : Shard σ) (k v : Bytes) (now : Nat) : (s.set k v {} now).1 = true := by
  simp only [Shard.set, Shard.setM, bind_id, pure_id, Bool.false_and, Bool.false_eq_true, if_false]
  split <;> rfl

theorem incrBy_inI64 {s : Shard σ} {k : Bytes} {delta n : Int} {now : Nat}
    (h : (s.incrBy k delta now).1 = .ok n) : InI64 n := by
  simp only [Shard.incrBy, Shard.incrByM, bind_id, pure_id, Shard.liveM_plain] at h
  split at h
  · cases h
  · split at h
    · rename_i hb; cases h; exact hb
    · cases h

/-! ## The two paths -/

/-- A stored string has a length: a `Vec` holds at most `isize::MAX` bytes. -/
def Sized (s : Store σ) : Prop :=
  ∀ sh ∈ s.shards, ∀ k v d, sh.map.get k = some ⟨.str v, d⟩ → v.length < 2 ^ 63

/-- The fast path's answer against the dispatcher's. -/
structure Agrees (st : ConnState) (fast : (Bytes × Bool) × World σ)
    (slow : (Outcome × ConnState) × World σ) : Prop where
  bytes : fast.1.1 = encodeReply st.resp3 slow.1.1.reply
  persist : fast.1.2 = slow.1.1.persist
  quit : slow.1.1.quit = false
  state : slow.1.2 = st
  world : fast.2 = slow.2

theorem get_agrees (cfg : Config) (st : ConnState) (env : Env) {name : Bytes}
    (hn : upperName name = lit "GET") (k : Bytes) (w : World σ) (hw : Sized w.store)
    {p : Cmd σ (Bytes × Bool)} (hp : serveFast st name [k] = some p) :
    Agrees st (p.run (Call.exec env) w) ((dispatch cfg st name [k]).run (Call.exec env) w) := by
  have hd : (dispatch cfg st name [k] : Cmd σ _) = (onKey k .get >>= fun res =>
      return (orErr res fun v => .r (.bulk v), st)) := by
    simp only [dispatch, hn]; rfl
  simp only [serveFast, hn, if_true, Option.some.injEq] at hp
  subst hp
  rw [hd]
  simp only [onKey, Prog.call_bind, Prog.pure_bind, Prog.run_call, Call.exec, Store.withShard,
    KeyOp.exec, KeyOp.execM, readStr_eq]
  -- both paths leave this world
  generalize World.mk (w.store.setShards _ _) w.snapshot = w'
  rcases hg : ((w.store.shard k).get k env.now).1 with e | _ | v
  · obtain rfl := get_error hg
    exact ⟨rfl, rfl, rfl, rfl, rfl⟩
  · exact ⟨rfl, rfl, rfl, rfl, rfl⟩
  · obtain ⟨d, hs⟩ := get_stored hg
    have hlen := hw _ (List.get_mem ..) k v d hs
    exact ⟨writeBulk_eq (hlen.trans (by decide)), rfl, rfl, rfl, rfl⟩

theorem set_agrees (cfg : Config) (st : ConnState) (env : Env) {name : Bytes}
    (hn : upperName name = lit "SET") (k v : Bytes) (w : World σ) {p : Cmd σ (Bytes × Bool)}
    (hp : serveFast st name [k, v] = some p) :
    Agrees st (p.run (Call.exec env) w) ((dispatch cfg st name [k, v]).run (Call.exec env) w) := by
  have hd : (dispatch cfg st name [k, v] : Cmd σ _) =
      (ask .nowMs >>= fun _ => onKey k (.set v {}) >>= fun did =>
      return (.maybe (if did then .ok else .bulk none) did, st)) := by
    simp only [dispatch, hn]; rfl
  simp only [serveFast, hn, if_true, Option.some.injEq] at hp
  subst hp
  rw [hd]
  simp only [onKey, ask, Prog.call_bind, Prog.pure_bind, Prog.run_call, Call.exec, Store.withShard,
    KeyOp.exec_set, set_plain_true]
  exact ⟨rfl, rfl, rfl, rfl, rfl⟩

theorem incr_agrees (st : ConnState) (env : Env) (k : Bytes) (delta : Int) (w : World σ) :
    Agrees st ((fastIncr k delta).run (Call.exec env) w)
      ((keep st (incrKey k delta)).run (Call.exec env) w) := by
  simp only [fastIncr, keep, incrKey, onKey, Prog.call_bind, Prog.pure_bind, Prog.pure_eq,
    Prog.run_call, Prog.run_pure, Call.exec, Store.withShard, KeyOp.exec_incrBy]
  rcases hr : ((w.store.shard k).incrBy k delta env.now).1 with e | n
  · cases e <;> exact ⟨rfl, rfl, rfl, rfl, rfl⟩
  · exact ⟨writeInt_eq (incrBy_inI64 hr), rfl, rfl, rfl, rfl⟩

/-- **The fast path agrees with the dispatcher.** Whenever the fast path serves a
command, the dispatcher run on the same store at the same reading gives a reply
that encodes to the same bytes, the same persist flag and the same store, does
not close the connection and leaves its state. -/
theorem fast_path (cfg : Config) (st : ConnState) (env : Env) (name : Bytes) (args : List Bytes)
    (w : World σ) (hw : Sized w.store) (p : Cmd σ (Bytes × Bool))
    (hp : serveFast st name args = some p) :
    Agrees st (p.run (Call.exec env) w) ((dispatch cfg st name args).run (Call.exec env) w) := by
  match args with
  | [] =>
    simp only [serveFast] at hp
    split at hp
    · rename_i hn
      cases hp
      simp only [dispatch, hn]
      exact ⟨rfl, rfl, rfl, rfl, rfl⟩
    · cases hp
  | [k] =>
    by_cases h1 : upperName name = lit "GET"
    · exact get_agrees cfg st env h1 k w hw hp
    simp only [serveFast, if_neg h1] at hp
    by_cases h2 : upperName name = lit "INCR"
    · rw [if_pos h2] at hp
      cases hp
      simp only [dispatch, h2]
      exact incr_agrees st env k 1 w
    rw [if_neg h2] at hp
    by_cases h3 : upperName name = lit "DECR"
    · rw [if_pos h3] at hp
      cases hp
      simp only [dispatch, h3]
      exact incr_agrees st env k (-1) w
    · rw [if_neg h3] at hp; cases hp
  | [k, v] =>
    by_cases h1 : upperName name = lit "SET"
    · exact set_agrees cfg st env h1 k v w hp
    · simp only [serveFast, if_neg h1] at hp; cases hp
  | _ :: _ :: _ :: _ => cases hp

theorem sized_new (shards maxmemory : Nat) (router : Bytes → UInt64)
    (hasher : Nat → Nat → Bytes → UInt64) :
    Sized (Store.new shards maxmemory router hasher : Store σ) := by
  intro sh hsh k v d h
  simp only [Store.new, List.mem_map] at hsh
  obtain ⟨i, -, rfl⟩ := hsh
  simp [Shard.new] at h

end

/-- An `incr` on a bounded store. -/
theorem fast_path_incr :
    serveFast (σ := Int) (ConnState.new 1 true) (lit "incr") [lit "n"] =
      some (fastIncr (lit "n") 1) ∧
      Agrees (σ := Int) (ConnState.new 1 true)
        ((fastIncr (lit "n") 1).run (Call.exec (Env.plain 5))
          ⟨Store.new 2 100 (fun _ => 0) (fun _ _ _ => 0), none⟩)
        ((dispatch loggingConfig (ConnState.new 1 true) (lit "incr") [lit "n"]).run
          (Call.exec (Env.plain 5))
          ⟨Store.new 2 100 (fun _ => 0) (fun _ _ _ => 0), none⟩) :=
  ⟨rfl, fast_path _ _ _ _ _ _ (sized_new 2 100 _ _) _ rfl⟩

end Inmem.L4
