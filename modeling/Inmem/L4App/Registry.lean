import Inmem.L4App.TornTail
import Inmem.L4App.Session

/-!
# The registry of replicas, with sockets that fail

`crates/server/src/repl.rs`: the primary sends every replica a snapshot and then every
write; a replica whose socket fails is dropped. `Node.replicas` is the registry when no
socket fails (`step_sound`). Here each `write_all` has a fate: it succeeds, or it fails
after some of its bytes have arrived.

* `registry_inv`: in every state the count is the number of sockets, every replica that
  was ever registered is either there or has been dropped, those that are there have
  received their whole stream and the others a front part of it;
* `syncOnce_cut`: a replica applies the commands that have arrived completely;
* `steady_state`: so every replica applies the snapshot and the writes since, in order and each
  once, up to where its socket failed.
-/
namespace Inmem.L4

open Inmem.Core Inmem.L1 Inmem.L1.Resp Inmem.L3

/-! ## The registry -/

/-- A socket of the registry. -/
structure Sock where
  /-- ghost: how many were registered before -/
  id : Nat
  /-- what has arrived on the other side -/
  got : Bytes
  deriving DecidableEq, Repr

/-- Write everything, or fail after `n` bytes. -/
def Sock.writeAll (s : Sock) (bytes : Bytes) : Option Nat → Bool × Sock
  | none => (true, { s with got := s.got ++ bytes })
  | some n => (false, { s with got := s.got ++ bytes.take n })

@[simp] theorem Sock.writeAll_id (s : Sock) (bytes : Bytes) (fate : Option Nat) :
    (s.writeAll bytes fate).2.id = s.id := by cases fate <;> rfl

theorem Sock.writeAll_ok {s : Sock} {bytes : Bytes} {fate : Option Nat}
    (h : (s.writeAll bytes fate).1 = true) : (s.writeAll bytes fate).2.got = s.got ++ bytes := by
  cases fate with
  | none => rfl
  | some n => exact absurd h Bool.false_ne_true

theorem Sock.writeAll_part (s : Sock) (bytes : Bytes) (fate : Option Nat) :
    (s.writeAll bytes fate).2.got <+: s.got ++ bytes := by
  cases fate with
  | none => exact List.prefix_rfl
  | some n => exact (List.prefix_append_right_inj s.got).2 (List.take_prefix n bytes)

/-- mirrors crates/server/src/repl.rs:27-32 -/
structure Registry where
  replicas : List Sock
  count : Nat
  /-- ghost: the sockets that were dropped -/
  gone : List Sock
  /-- ghost: the number of registrations -/
  made : Nat

namespace Registry

/-- mirrors crates/server/src/repl.rs:35-37 -/
def new : Registry := { replicas := [], count := 0, gone := [], made := 0 }

/-- mirrors crates/server/src/repl.rs:41-43 -/
def hasReplicas (r : Registry) : Bool := 0 < r.count

/-- mirrors crates/server/src/repl.rs:45-47 -/
def replicaCount (r : Registry) : Nat := r.count

/-- mirrors crates/server/src/repl.rs:51-58 -/
def addReplicaWithSnapshot (r : Registry) (snapshot : Bytes) (fate : Option Nat) : Registry :=
  let w := Sock.writeAll ⟨r.made, []⟩ snapshot fate
  if w.1 then
    { r with replicas := r.replicas ++ [w.2], count := (r.replicas ++ [w.2]).length,
             made := r.made + 1 }
  else { r with gone := r.gone ++ [w.2], made := r.made + 1 }

/-- mirrors crates/server/src/repl.rs:61-69 -/
def propagate (r : Registry) (bytes : Bytes) (fate : Nat → Option Nat) : Registry :=
  if r.replicas.isEmpty then r
  else
    let ws := r.replicas.map fun s => s.writeAll bytes (fate s.id)
    let v := (ws.filter fun w => w.1).map Prod.snd
    { r with replicas := v, count := v.length,
             gone := r.gone ++ (ws.filter fun w => !w.1).map Prod.snd }

/-- What is done under the registry's lock. -/
inductive Event
  | add (snapshot : List Argv) (fate : Option Nat)
  | write (a : Argv) (fate : Nat → Option Nat)

def step (r : Registry) : Event → Registry
  | .add snapshot fate => r.addReplicaWithSnapshot (encodeAll snapshot) fate
  | .write a fate => r.propagate a.encode fate

def run (es : List Event) : Registry := es.foldl step new

/-- The writes among the events. -/
def writes (es : List Event) : List Argv :=
  es.filterMap fun
    | .write a _ => some a
    | .add _ _ => none

/-- The number of registrations. -/
def adds (es : List Event) : Nat :=
  es.countP fun
    | .add _ _ => true
    | .write _ _ => false

/-- What the replica registered as number `i` is to be sent. -/
def stream : List Event → Nat → List Argv
  | [], _ => []
  | .add snapshot _ :: es, 0 => snapshot ++ writes es
  | .add _ _ :: es, i + 1 => stream es i
  | .write _ _ :: es, i => stream es i

theorem run_snoc (es : List Event) (e : Event) : run (es ++ [e]) = (run es).step e := by
  simp [run]

theorem stream_write (a : Argv) (fate : Nat → Option Nat) (es : List Event) : ∀ i, i < adds es →
    stream (es ++ [.write a fate]) i = stream es i ++ [a] := by
  induction es with
  | nil => intro i hi; simp [adds] at hi
  | cons e es ih =>
    intro i hi
    cases e with
    | write b f => exact ih i (by simpa [adds] using hi)
    | add snapshot f =>
      cases i with
      | zero => simp [stream, writes, List.append_assoc]
      | succ i => exact ih i (by simpa [adds] using hi)

theorem stream_add (snapshot : List Argv) (fate : Option Nat) (es : List Event) : ∀ i, i ≤ adds es →
    stream (es ++ [.add snapshot fate]) i = if i = adds es then snapshot else stream es i := by
  induction es with
  | nil =>
    intro i hi
    obtain rfl : i = 0 := by simpa [adds] using hi
    simp [stream, adds, writes]
  | cons e es ih =>
    intro i hi
    cases e with
    | write b f => exact ih i (by simpa [adds] using hi)
    | add snapshot' f =>
      have hadds : adds (.add snapshot' f :: es) = adds es + 1 := by simp [adds]
      cases i with
      | zero => simp [stream, writes, hadds]
      | succ i =>
        have := ih i (by omega)
        simpa [stream, hadds] using this

/-! ## What has arrived -/

/-- Every registered replica is in one of the two lists; those in the first have received all of
their stream, the others a front part. -/
structure Inv (es : List Event) (r : Registry) : Prop where
  count : r.count = r.replicas.length
  made : r.made = adds es
  ids : ((r.replicas ++ r.gone).map Sock.id).Perm (List.range (adds es))
  whole : ∀ s ∈ r.replicas, s.got = encodeAll (stream es s.id)
  part : ∀ s ∈ r.gone, s.got <+: encodeAll (stream es s.id)

theorem adds_write (a : Argv) (fate : Nat → Option Nat) (es : List Event) :
    adds (es ++ [.write a fate]) = adds es := by
  simp [adds]

theorem adds_add (snapshot : List Argv) (fate : Option Nat) (es : List Event) :
    adds (es ++ [.add snapshot fate]) = adds es + 1 := by
  simp [adds]

theorem Inv.id_lt {es : List Event} {r : Registry} (h : Inv es r) {s : Sock}
    (hs : s ∈ r.replicas ++ r.gone) : s.id < adds es :=
  List.mem_range.1 (h.ids.mem_iff.1 (List.mem_map_of_mem hs))

theorem Inv.replica_lt {es : List Event} {r : Registry} (h : Inv es r) {s : Sock}
    (hs : s ∈ r.replicas) : s.id < adds es :=
  h.id_lt (List.mem_append_left _ hs)

theorem Inv.gone_lt {es : List Event} {r : Registry} (h : Inv es r) {s : Sock} (hs : s ∈ r.gone) :
    s.id < adds es :=
  h.id_lt (List.mem_append_right _ hs)

/-- Registering one leaves the others' streams as they are. -/
theorem stream_add_other {es : List Event} {i : Nat} (h : i < adds es) (snapshot : List Argv)
    (fate : Option Nat) : stream (es ++ [.add snapshot fate]) i = stream es i := by
  rw [stream_add _ _ _ _ h.le, if_neg h.ne]

theorem stream_add_self (es : List Event) (snapshot : List Argv) (fate : Option Nat) :
    stream (es ++ [.add snapshot fate]) (adds es) = snapshot := by
  rw [stream_add _ _ _ _ le_rfl, if_pos rfl]

theorem Inv.add {es : List Event} {r : Registry} (h : Inv es r) (snapshot : List Argv)
    (fate : Option Nat) :
    Inv (es ++ [.add snapshot fate]) (r.addReplicaWithSnapshot (encodeAll snapshot) fate) := by
  have hself := stream_add_self es snapshot fate
  have hother := fun (i : Nat) (hi : i < adds es) => stream_add_other hi snapshot fate
  have hwhole : ∀ s ∈ r.replicas, s.got = encodeAll (stream (es ++ [.add snapshot fate]) s.id) := by
    intro s hs
    rw [hother _ (h.replica_lt hs), h.whole s hs]
  have hpart : ∀ s ∈ r.gone, s.got <+: encodeAll (stream (es ++ [.add snapshot fate]) s.id) := by
    intro s hs
    rw [hother _ (h.gone_lt hs)]
    exact h.part s hs
  have hids := (h.ids.append_right [adds es]).trans (.of_eq List.range_succ.symm)
  unfold addReplicaWithSnapshot
  cases fate with
  | none =>
    refine ⟨rfl, by simp [Sock.writeAll, h.made, adds], ?_, ?_, hpart⟩
    · rw [adds_add]
      refine .trans ?_ hids
      simp only [Sock.writeAll, if_true, List.map_append, List.map_cons, List.map_nil, h.made,
        List.append_assoc]
      exact List.perm_append_comm.append_left _
    · intro s hs
      rcases List.mem_append.1 hs with hs | hs
      · exact hwhole s hs
      · obtain rfl := List.mem_singleton.1 hs
        simp [Sock.writeAll, h.made, hself]
  | some n =>
    refine ⟨h.count, by simp [Sock.writeAll, h.made, adds], ?_, hwhole, ?_⟩
    · rw [adds_add]
      refine .trans (.of_eq ?_) hids
      simp [Sock.writeAll, h.made]
    · intro s hs
      rcases List.mem_append.1 hs with hs | hs
      · exact hpart s hs
      · obtain rfl := List.mem_singleton.1 hs
        simpa [Sock.writeAll, h.made, hself] using List.take_prefix n (encodeAll snapshot)

theorem Inv.write {es : List Event} {r : Registry} (h : Inv es r) (a : Argv)
    (fate : Nat → Option Nat) : Inv (es ++ [.write a fate]) (r.propagate a.encode fate) := by
  have hstream := fun (i : Nat) (hi : i < adds es) =>
    (congrArg encodeAll (stream_write a fate es i hi)).trans
      ((encodeAll_append _ _).trans (congrArg _ (List.append_nil a.encode)))
  have hpart : ∀ s ∈ r.gone, s.got <+: encodeAll (stream (es ++ [.write a fate]) s.id) := by
    intro s hs
    rw [hstream _ (h.gone_lt hs)]
    exact (h.part s hs).trans (List.prefix_append _ _)
  unfold propagate
  by_cases he : r.replicas.isEmpty = true
  · rw [if_pos he]
    have hnil := List.isEmpty_iff.1 he
    exact ⟨h.count, h.made.trans (adds_write ..).symm, by rw [adds_write]; exact h.ids,
      by simp [hnil], hpart⟩
  · rw [if_neg he]
    -- every socket's copy after the write, kept or not
    generalize hws : r.replicas.map (fun s => s.writeAll a.encode (fate s.id)) = ws
    have hmem : ∀ w ∈ ws, ∃ s ∈ r.replicas, w = s.writeAll a.encode (fate s.id) := by
      intro w hw
      rw [← hws] at hw
      obtain ⟨s, hs, rfl⟩ := List.mem_map.1 hw
      exact ⟨s, hs, rfl⟩
    have hids : ws.map (fun w => w.2.id) = r.replicas.map Sock.id := by
      rw [← hws, List.map_map]
      exact List.map_congr_left fun s _ => Sock.writeAll_id ..
    refine ⟨rfl, h.made.trans (adds_write ..).symm, ?_, ?_, ?_⟩
    · rw [adds_write]
      refine .trans ?_ h.ids
      have hsplit := (List.filter_append_perm (fun w => w.1) ws).map fun w => w.2.id
      rw [List.map_append, hids] at hsplit
      simp only [List.map_append, List.map_map]
      exact (List.perm_append_comm.append_left _).trans
        (.trans (.of_eq (List.append_assoc ..).symm) (hsplit.append_right _))
    · intro s hs
      obtain ⟨w, hw, rfl⟩ := List.mem_map.1 hs
      obtain ⟨hw, hok⟩ := List.mem_filter.1 hw
      obtain ⟨t, ht, rfl⟩ := hmem w hw
      rw [Sock.writeAll_ok hok, Sock.writeAll_id, hstream _ (h.replica_lt ht), h.whole t ht]
    · intro s hs
      rcases List.mem_append.1 hs with hs | hs
      · exact hpart s hs
      · obtain ⟨w, hw, rfl⟩ := List.mem_map.1 hs
        obtain ⟨t, ht, rfl⟩ := hmem w (List.mem_of_mem_filter hw)
        rw [Sock.writeAll_id, hstream _ (h.replica_lt ht), ← h.whole t ht]
        exact Sock.writeAll_part ..

theorem registry_inv (es : List Event) : Inv es (run es) := by
  induction es using List.reverseRecOn with
  | nil => exact ⟨rfl, rfl, .refl _, by simp [run, new], by simp [run, new]⟩
  | append_singleton es e ih =>
    rw [run_snoc]
    cases e with
    | add snapshot fate => exact ih.add snapshot fate
    | write a fate => exact ih.write a fate

end Registry

/-! ## The other side -/

theorem complete_append (cs ds : List Argv) : ∀ n, (encodeAll cs).length ≤ n →
    complete (cs ++ ds) n = cs ++ complete ds (n - (encodeAll cs).length) := by
  induction cs with
  | nil => intro n _; rfl
  | cons a cs ih =>
    intro n hn
    have hlen : (encodeAll (a :: cs)).length = a.encode.length + (encodeAll cs).length := by
      simp [encodeAll]
    rw [hlen] at hn
    rw [List.cons_append, complete, if_pos (by omega), ih _ (by omega), hlen, Nat.sub_add_eq]
    rfl

theorem complete_short {buf : Bytes} {cs : List Argv} (h : Short buf cs) :
    complete cs buf.length = [] := by
  cases cs with
  | nil => rfl
  | cons a cs => exact if_neg (Nat.not_le.2 h)

section
variable {σ : Type} [Score σ]

/-- Where no socket fails, the node's feeds are what the registry's sockets have received. -/
theorem Registry.step_sound {n : Node σ} {r : Registry} (h : n.replicas = r.replicas.map Sock.got)
    (bytes : Bytes) :
    (n.propagate bytes).replicas = (r.propagate bytes fun _ => none).replicas.map Sock.got ∧
      n.replicas ++ [bytes] = (r.addReplicaWithSnapshot bytes none).replicas.map Sock.got := by
  constructor
  · unfold Registry.propagate
    by_cases he : r.replicas.isEmpty = true
    · rw [if_pos he, Node.propagate, h, List.isEmpty_iff.1 he]
      rfl
    · rw [if_neg he]
      simp [Node.propagate, h, Sock.writeAll, List.filter_map, Function.comp_def]
  · simp [Registry.addReplicaWithSnapshot, Sock.writeAll, h]

theorem syncLoop_cut (cfg : Config) (E : Surroundings) (later : Bytes) (chunks : List Bytes) :
    ∀ (buf : Bytes) (cmds : List Argv) (p : ConnState × Sys σ), (∀ a ∈ cmds, a.Fits) →
      buf ++ chunks.flatten ++ later = encodeAll cmds → Short buf cmds →
      syncLoop cfg E chunks buf p = Sys.applyAll cfg E
        (complete cmds (buf ++ chunks.flatten).length) p := by
  induction chunks with
  | nil =>
    intro buf cmds p _ _ hs
    rw [List.flatten_nil, List.append_nil, complete_short hs]
    rfl
  | cons chunk chunks ih =>
    intro buf cmds p hfit he hs
    rw [List.flatten_cons, ← List.append_assoc] at he ⊢
    obtain ⟨now, rest, buf', rfl, e2, e3, e4⟩ :=
      syncDrain_frames cfg E _ (buf ++ chunk) (chunks.flatten ++ later) cmds p le_rfl hfit
        ((List.append_assoc ..).symm.trans he)
    rw [← List.append_assoc] at e3
    -- the bytes of the commands applied now and those left over are the bytes so far
    have hlen : (buf ++ chunk ++ chunks.flatten).length =
        (encodeAll now).length + (buf' ++ chunks.flatten).length := by
      have h1 := congrArg List.length he
      have h2 := congrArg List.length e3
      rw [encodeAll_append] at h1
      simp only [List.length_append] at h1 h2 ⊢
      omega
    rw [hlen, complete_append _ _ _ (Nat.le_add_right ..), Nat.add_sub_cancel_left]
    simp only [syncLoop, e2]
    rw [ih buf' rest _ (fun a ha => hfit a (List.mem_append_right _ ha)) e3 e4]
    simp only [Sys.applyAll, List.foldl_append]

/-- A replica applies the commands that have arrived completely. -/
theorem syncOnce_cut (cfg : Config) (E : Surroundings) (chunks : List Bytes) (cmds : List Argv)
    (s : Sys σ) (hfit : ∀ a ∈ cmds, a.Fits) (he : chunks.flatten <+: encodeAll cmds) :
    syncOnce cfg E chunks s =
      (Sys.applyAll cfg E (complete cmds chunks.flatten.length) (ConnState.internal, s)).2 := by
  obtain ⟨later, he⟩ := he
  rw [syncOnce, syncLoop_cut cfg E later chunks [] cmds _ hfit he]
  · rfl
  · cases cmds with
    | nil => rfl
    | cons a cmds => exact List.length_pos_iff.2 a.encode_ne_nil

theorem Registry.Inv.prefix_stream {es : List Registry.Event} {r : Registry} (h : Registry.Inv es r)
    {s : Sock} (hs : s ∈ r.replicas ++ r.gone) : s.got <+: encodeAll (Registry.stream es s.id) := by
  rcases List.mem_append.1 hs with hs | hs
  · exact (h.whole s hs).symm ▸ List.prefix_rfl
  · exact h.part s hs

/-- **The steady state.** Whatever sequence of registrations and writes a primary makes, and
wherever its sockets fail: each replica that was registered is, exactly once, either in the
registry or dropped; `has_replicas` is false exactly when no socket is left; and a replica, if
its snapshot and the writes since are within the parser's limits and however its socket cuts the
bytes, applies the snapshot it was registered with and then the writes since, in order and each
once, up to the last that arrived completely. A replica that is still registered applies them
all. -/
theorem steady_state (es : List Registry.Event) :
    (((Registry.run es).replicas ++ (Registry.run es).gone).map Sock.id).Perm
      (List.range (Registry.adds es)) ∧
      ((Registry.run es).hasReplicas = false ↔ (Registry.run es).replicas = []) ∧
      ∀ s ∈ (Registry.run es).replicas ++ (Registry.run es).gone,
      (∀ a ∈ Registry.stream es s.id, a.Fits) →
        ∀ (cfg : Config) (E : Surroundings) (chunks : List Bytes) (sys : Sys σ),
        chunks.flatten = s.got →
          ∃ m ≤ (Registry.stream es s.id).length,
            syncOnce cfg E chunks sys =
              (Sys.applyAll cfg E ((Registry.stream es s.id).take m) (ConnState.internal, sys)).2 ∧
            (∀ j ≤ (Registry.stream es s.id).length,
              j ≤ m ↔ (encodeAll ((Registry.stream es s.id).take j)).length ≤ s.got.length) ∧
            (s ∈ (Registry.run es).replicas → m = (Registry.stream es s.id).length) := by
  have h := Registry.registry_inv es
  refine ⟨h.ids, ?_, ?_⟩
  · rw [Registry.hasReplicas, h.count, decide_eq_false_iff_not, Nat.not_lt, Nat.le_zero,
      List.length_eq_zero_iff]
  · intro s hs hfits cfg E chunks sys hc
    obtain ⟨m, hm, hcomplete, hiff⟩ := complete_eq_take (Registry.stream es s.id) s.got.length
    refine ⟨m, hm, ?_, hiff, ?_⟩
    · rw [← hcomplete, ← hc]
      exact syncOnce_cut cfg E chunks _ sys hfits (hc ▸ h.prefix_stream hs)
    · intro hreg
      refine le_antisymm hm ((hiff _ le_rfl).2 ?_)
      rw [List.take_length, ← h.whole s hreg]

end

/-- A replica whose socket fails inside the second write, one whose socket never fails, and
one that gets only a part of its snapshot. -/
def threeReplicas : List Registry.Event :=
  [.add [(lit "SET", [lit "a", lit "1"])] none, .write (lit "INCR", [lit "a"]) fun _ => none,
    .add [(lit "SET", [lit "a", lit "2"])] none, .add [(lit "SET", [lit "a", lit "2"])] (some 7),
    .write (lit "INCR", [lit "a"]) fun i => if i = 0 then some 3 else none]

theorem steady_state_three :
    (Registry.run threeReplicas).replicas.map Sock.id = [1] ∧
    (Registry.run threeReplicas).gone.map Sock.id = [2, 0] ∧
    ∀ s ∈ (Registry.run threeReplicas).replicas ++ (Registry.run threeReplicas).gone,
      ∀ (cfg : Config) (E : Surroundings) (chunks : List Bytes) (sys : Sys Int),
      chunks.flatten = s.got →
        ∃ m ≤ (Registry.stream threeReplicas s.id).length,
          syncOnce cfg E chunks sys =
            (Sys.applyAll cfg E ((Registry.stream threeReplicas s.id).take m)
              (ConnState.internal, sys)).2 ∧
          (∀ j ≤ (Registry.stream threeReplicas s.id).length,
            j ≤ m ↔ (encodeAll ((Registry.stream threeReplicas s.id).take j)).length ≤
              s.got.length) ∧
          (s ∈ (Registry.run threeReplicas).replicas →
            m = (Registry.stream threeReplicas s.id).length) :=
  have hfits : ∀ s ∈ (Registry.run threeReplicas).replicas ++ (Registry.run threeReplicas).gone,
      ∀ a ∈ Registry.stream threeReplicas s.id, a.Fits := by decide +kernel
  ⟨by decide +kernel, by decide +kernel,
    fun s hs => (steady_state threeReplicas).2.2 s hs (hfits s hs)⟩

end Inmem.L4
