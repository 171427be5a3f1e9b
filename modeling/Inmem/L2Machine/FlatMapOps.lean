import Inmem.L2Machine.FlatMap

/-!
# One operation of the flat hash table

Every operation on a well-formed table ends, keeps it well formed and acts on
`Raw.abs` as the finite map's operation does: `get_spec`, `getMut_spec`,
`insert_spec`, `remove_spec`.

The index arithmetic is in `Core.Ring`, the probe-path invariant and the hole
left by a deletion in `Core.Probe`; what is left here is that the code's loops
take the steps of that theory and that growing keeps the content.
-/
namespace Inmem.L2

open Inmem.L1 Inmem.Core.Ring Inmem.Core.Probe

namespace Raw

variable {V : Type} {m m' : Raw V}

/-! ## Sizes -/

/-- An allocated table: a power of two of slots, and the matching mask. -/
def Sized (m : Raw V) : Prop := ∃ k, 4 ≤ k ∧ m.slots.length = 2 ^ k ∧ m.mask = 2 ^ k - 1

theorem WF.sized (hm : m.WF) (hne : m.slots ≠ []) : m.Sized :=
  hm.cap.resolve_left fun h => hne h.1

theorem Sized.step_eq (hs : m.Sized) (i : Nat) (hi : i < m.slots.length) :
    (i + 1) &&& m.mask = next m.slots.length i := by
  obtain ⟨k, -, hl, hk⟩ := hs
  rw [hk, hl]; exact succ_and_mask i k (hl ▸ hi)

theorem Sized.ideal_lt (hs : m.Sized) (hash : UInt64) : m.ideal hash < m.slots.length := by
  obtain ⟨k, -, hl, hk⟩ := hs
  unfold ideal
  rw [hk, hl]; exact and_mask_lt _ k

theorem Sized.ge (hs : m.Sized) : 16 ≤ m.slots.length := by
  obtain ⟨k, h4, hl, -⟩ := hs
  have := Nat.pow_le_pow_right (show 0 < 2 by decide) h4
  omega

theorem Sized.eight_dvd (hs : m.Sized) : 8 ∣ m.slots.length := by
  obtain ⟨k, h4, hl, -⟩ := hs
  rw [hl]; exact Nat.pow_dvd_pow 2 (show 3 ≤ k by omega)

theorem WF.room (hm : m.WF) (hs : m.Sized) : (live m.slots).length < m.slots.length := by
  have h1 := hm.load
  have h2 := hs.ge
  rw [hm.count, growThreshold, LOAD_DEN, LOAD_NUM] at h1
  omega

/-! ## Content -/

theorem keys_insert (a : Finmap fun _ : Bytes => V) (k : Bytes) (v : V) :
    (a.insert k v).keys = Insert.insert k a.keys := by
  ext x
  rw [Finmap.mem_keys, Finmap.mem_insert, Finset.mem_insert, Finmap.mem_keys]

/-- The finite map of a list of entries. -/
def absOf (es : List (Entry V)) : Finmap fun _ : Bytes => V :=
  (es.map fun e => (⟨e.key, e.value⟩ : Sigma fun _ : Bytes => V)).toFinmap

theorem abs_eq : m.abs = absOf (live m.slots) := by
  simp only [abs, iter, absOf, List.map_map]; rfl

theorem absOf_cons (e : Entry V) (es : List (Entry V)) :
    absOf (e :: es) = (absOf es).insert e.key e.value := Finmap.toFinmap_cons ..

theorem nodupKeys_of {es : List (Entry V)} (h : (es.map Entry.key).Nodup) :
    (es.map fun e => (⟨e.key, e.value⟩ : Sigma fun _ : Bytes => V)).NodupKeys := by
  unfold List.NodupKeys List.keys
  rw [List.map_map]; exact h

theorem absOf_perm {es fs : List (Entry V)} (hp : es.Perm fs) (hk : (es.map Entry.key).Nodup) :
    absOf es = absOf fs := by
  apply Finmap.ext_lookup
  intro k
  unfold absOf
  rw [Finmap.dlookup_list_toFinmap, Finmap.dlookup_list_toFinmap]
  exact List.perm_dlookup k (nodupKeys_of hk) (hp.map _)

theorem lookup_absOf {es : List (Entry V)} (hk : (es.map Entry.key).Nodup) {k : Bytes} {v : V} :
    (absOf es).lookup k = some v ↔ ∃ e ∈ es, e.key = k ∧ e.value = v := by
  unfold absOf
  rw [Finmap.dlookup_list_toFinmap, ← Option.mem_def, List.mem_dlookup_iff (nodupKeys_of hk)]
  simp

theorem lookup_absOf_none {es : List (Entry V)} {k : Bytes} (h : ∀ e ∈ es, e.key ≠ k) :
    (absOf es).lookup k = none := by
  unfold absOf
  rw [Finmap.dlookup_list_toFinmap, List.dlookup_eq_none]
  simpa [List.keys] using h

/-! ## Probing -/

theorem probe_spec (hs : m.Sized) (hp : PathFull m.home m.slots)
    (hroom : (live m.slots).length < m.slots.length) (hash : UInt64) (hit : Entry V → Bool)
    (hh : ∀ e ∈ live m.slots, hit e = true → e.hash = hash) :
    (∃ p, m.probe hash hit = some (p, false) ∧ Empty m.slots p ∧
      (∀ k, k < dist m.slots.length (m.ideal hash) p →
        Full m.slots (adv m.slots.length (m.ideal hash) k)) ∧
      ∀ e ∈ live m.slots, hit e = false) ∨
    ∃ p e, m.probe hash hit = some (p, true) ∧ At m.slots p e ∧ hit e = true :=
  scan_find _ hit hs.step_eq hp hroom (hs.ideal_lt hash) fun e he hhit => by
    rw [home, hh e he hhit]

theorem hits_iff {hash : UInt64} {key : Bytes} {e : Entry V} :
    hits hash key e = true ↔ e.hash = hash ∧ e.key = key := by simp [hits]

/-- A lookup probe stops at the key's entry, or at an empty slot when there is none. -/
theorem find_spec (hm : m.WF) (hs : m.Sized) (key : Bytes) :
    (∃ p, m.probe (m.hasher key) (hits (m.hasher key) key) = some (p, false) ∧ Empty m.slots p ∧
      (∀ k, k < dist m.slots.length (m.ideal (m.hasher key)) p →
        Full m.slots (adv m.slots.length (m.ideal (m.hasher key)) k)) ∧
      ∀ e ∈ live m.slots, e.key ≠ key) ∨
    ∃ p e, m.probe (m.hasher key) (hits (m.hasher key) key) = some (p, true) ∧ At m.slots p e ∧
      e.key = key := by
  rcases probe_spec hs hm.path (hm.room hs) (m.hasher key) (hits (m.hasher key) key)
      fun e _ he => (hits_iff.1 he).1 with ⟨p, h1, h2, h3, h4⟩ | ⟨p, e, h1, h2, h3⟩
  · refine .inl ⟨p, h1, h2, h3, fun e he hk => ?_⟩
    have := h4 e he
    rw [Bool.eq_false_iff, Ne, hits_iff] at this
    exact this ⟨by rw [hm.hashed e he, hk], hk⟩
  · exact .inr ⟨p, e, h1, h2, (hits_iff.1 h3).2⟩

theorem lookup_of_at (hm : m.WF) {p : Nat} {e : Entry V} (h : At m.slots p e) :
    m.abs.lookup e.key = some e.value := by
  rw [abs_eq, lookup_absOf hm.keys]
  exact ⟨e, mem_live.2 ⟨p, h⟩, rfl, rfl⟩

theorem join_of_at {p : Nat} {e : Entry V} (h : At m.slots p e) : m.slots[p]?.join = some e := by
  unfold At at h; rw [h]; rfl

theorem abs_of_empty (h : m.slots = []) : m.abs = ∅ := by
  rw [abs_eq, h]; rfl

/-! ## Lookups -/

theorem get_spec (hm : m.WF) (key : Bytes) : m.get key = some (m.abs.lookup key) := by
  unfold get getPre
  by_cases hne : m.slots = []
  · simp [hne, abs_of_empty hne]
  · rw [if_neg (by simpa using hne)]
    rcases find_spec hm (hm.sized hne) key with ⟨p, h1, -, -, h4⟩ | ⟨p, e, h1, h2, rfl⟩
    · rw [h1, abs_eq, lookup_absOf_none h4]
    · rw [h1]
      simp only [join_of_at h2, Option.map_some, lookup_of_at hm h2]

/-- Replacing the value of a stored entry. -/
theorem WF.replace (hm : m.WF) {p : Nat} {e : Entry V} (h : At m.slots p e) (v : V) :
    ({ m with slots := m.slots.set p (some { e with value := v }) } : Raw V).WF ∧
      ({ m with slots := m.slots.set p (some { e with value := v }) } : Raw V).abs =
        m.abs.insert e.key v := by
  have h1 := live_clear h
  have h2 := live_replace h { e with value := v }
  generalize m.slots.set p none = rest at h1 h2
  have hkeys : ((live (m.slots.set p (some { e with value := v }))).map Entry.key).Perm
      ((live m.slots).map Entry.key) := (h2.map _).trans (h1.map Entry.key).symm
  have hk' := hkeys.nodup_iff.2 hm.keys
  refine ⟨⟨?_, ?_, ?_, ?_, hk', ?_⟩, ?_⟩
  · rcases hm.cap with ⟨h0, -⟩ | hs
    · exact absurd h.lt (by simp [h0])
    · exact .inr (by simpa [Sized] using hs)
  · rw [hm.count, h1.length_eq, h2.length_eq]; rfl
  · simpa [growThreshold] using hm.load
  · intro x hx
    rcases List.mem_cons.1 (h2.mem_iff.1 hx) with rfl | hx'
    · exact hm.hashed e (mem_live.2 ⟨p, h⟩)
    · exact hm.hashed x (h1.mem_iff.2 (List.mem_cons_of_mem _ hx'))
  · exact pathFull_replace hm.path h rfl
  · rw [abs_eq, abs_eq, absOf_perm h2 hk', absOf_perm h1 hm.keys, absOf_cons, absOf_cons,
      Finmap.insert_insert]

/-- The finite map after an update through `get_mut`. -/
def modifyMap (a : Finmap fun _ : Bytes => V) (key : Bytes) (f : V → V) :
    Finmap fun _ : Bytes => V :=
  match a.lookup key with
  | none => a
  | some v => a.insert key (f v)

theorem getMut_spec (hm : m.WF) (key : Bytes) (f : V → V) :
    ∃ m', m.getMut key f = some (m.abs.lookup key, m') ∧ m'.WF ∧ m'.hasher = m.hasher ∧
      m'.abs = modifyMap m.abs key f := by
  unfold getMut getMutPre modifyMap
  by_cases hne : m.slots = []
  · simp [hne, abs_of_empty hne, hm]
  · rw [if_neg (by simpa using hne)]
    rcases find_spec hm (hm.sized hne) key with ⟨p, h1, -, -, h4⟩ | ⟨p, e, h1, h2, rfl⟩
    · have hnone : m.abs.lookup key = none := by rw [abs_eq, lookup_absOf_none h4]
      rw [h1, hnone]
      exact ⟨m, rfl, hm, rfl, rfl⟩
    · rw [h1, lookup_of_at hm h2]
      simp only [join_of_at h2]
      obtain ⟨hw, ha⟩ := hm.replace h2 (f e.value)
      exact ⟨_, rfl, hw, rfl, ha⟩

/-! ## Growing and inserting -/

theorem alloc_sized {n k : Nat} (hk : 4 ≤ k) (hn : n = 2 ^ k) : (m.alloc n).Sized :=
  ⟨k, hk, by simp [alloc, hn], by simp [alloc, hn]⟩

theorem live_replicate (n : Nat) : live (List.replicate n (none : Option (Entry V))) = [] := by
  simp [live]

theorem pathFull_nil {home : Entry V → Nat} {s : Slots (Entry V)} (h : live s = []) :
    PathFull home s := by
  intro i e he
  have := mem_live.2 ⟨i, he⟩
  simp [h] at this

/-- One turn of the rehash loop adds its entry. -/
theorem growInsert_spec (hs : m.Sized) (hp : PathFull m.home m.slots)
    (hroom : (live m.slots).length < m.slots.length) (e : Entry V) :
    ∃ m', m.growInsert e = some m' ∧ m'.slots.length = m.slots.length ∧ m'.mask = m.mask ∧
      m'.len = m.len ∧ m'.hasher = m.hasher ∧ PathFull m'.home m'.slots ∧
      (live m'.slots).Perm (e :: live m.slots) := by
  unfold growInsert
  rcases probe_spec hs hp hroom e.hash (fun _ => false) (by simp) with ⟨p, h1, h2, h3, -⟩ |
    ⟨_, _, _, _, h⟩
  · rw [h1]
    exact ⟨_, rfl, by simp, rfl, rfl, rfl, pathFull_fill hp h2 h3, live_fill h2⟩
  · cases h

theorem growLoop_spec (es : List (Entry V)) : ∀ m : Raw V, m.Sized → PathFull m.home m.slots →
    (live m.slots).length + es.length < m.slots.length →
    ∃ m', es.foldlM growInsert m = some m' ∧ m'.slots.length = m.slots.length ∧ m'.mask = m.mask ∧
      m'.len = m.len ∧ m'.hasher = m.hasher ∧ PathFull m'.home m'.slots ∧
      (live m'.slots).Perm (es ++ live m.slots) := by
  induction es with
  | nil => intro m _ hp _; exact ⟨m, rfl, rfl, rfl, rfl, rfl, hp, .refl _⟩
  | cons e es ih =>
    intro m hs hp hroom
    rw [List.length_cons] at hroom
    obtain ⟨m1, he, hl, hmask, hlen, hhash, hp1, hperm⟩ := growInsert_spec hs hp (by omega) e
    have hs1 : m1.Sized := by
      obtain ⟨k, h4, h5, h6⟩ := hs
      exact ⟨k, h4, hl ▸ h5, hmask ▸ h6⟩
    have hc := hperm.length_eq
    rw [List.length_cons] at hc
    obtain ⟨m2, he2, hl2, hmask2, hlen2, hhash2, hp2, hperm2⟩ := ih m1 hs1 hp1 (by omega)
    refine ⟨m2, ?_, by omega, by rw [hmask2, hmask], by omega, by rw [hhash2, hhash], hp2, ?_⟩
    · rw [List.foldlM_cons, he]; exact he2
    · exact (hperm2.trans (hperm.append_left es)).trans List.perm_middle

/-- Growing doubles the table and keeps its content. -/
theorem grow_spec (hm : m.WF) (hs : m.Sized) :
    ∃ m', m.grow = some m' ∧ m'.WF ∧ m'.Sized ∧ m'.len < m'.growThreshold ∧ m'.hasher = m.hasher ∧
      m'.abs = m.abs := by
  have h16 := hs.ge
  have hdvd := hs.eight_dvd
  have hcap : max (m.slots.length * 2) MIN_CAP = m.slots.length * 2 := by
    rw [MIN_CAP]; omega
  have hs' : (m.alloc (max (m.slots.length * 2) MIN_CAP)).Sized := by
    obtain ⟨k, h4, h5, h6⟩ := hs
    exact alloc_sized (k := k + 1) (by omega) (by rw [hcap, h5, pow_succ])
  have hl0 : live (m.alloc (max (m.slots.length * 2) MIN_CAP)).slots = [] := live_replicate _
  have hlen0 : (m.alloc (max (m.slots.length * 2) MIN_CAP)).slots.length = m.slots.length * 2 := by
    rw [hcap]; simp [alloc]
  have hroom := hm.room hs
  obtain ⟨m', he, hl, hmask, hlen, hhash, hp, hperm⟩ :=
    growLoop_spec (live m.slots) _ hs' (pathFull_nil hl0) (by rw [hl0, hlen0]; simp; omega)
  rw [hl0, List.append_nil] at hperm
  rw [hlen0] at hl
  have hk' := ((hperm.map Entry.key).nodup_iff).2 hm.keys
  have hload := hm.load
  have hlen' : m'.len = m.len := hlen
  have hthr : m'.len < m'.growThreshold := by
    rw [growThreshold, LOAD_DEN, LOAD_NUM] at hload ⊢
    rw [hl, hlen']; omega
  have hsm : m'.Sized := by
    obtain ⟨k, h4, h5, h6⟩ := hs'
    exact ⟨k, h4, by rw [hl, ← hlen0, h5], by rw [hmask, h6]⟩
  refine ⟨m', he, ⟨.inr hsm, ?_, hthr.le, ?_, hk', hp⟩, hsm, hthr, hhash, ?_⟩
  · rw [hlen', hm.count, hperm.length_eq]
  · intro e he'
    rw [hhash]; exact hm.hashed e (hperm.mem_iff.1 he')
  · rw [abs_eq, abs_eq, absOf_perm hperm hk']

/-- Before the insertion probe the table is allocated and below its threshold,
with the same content. -/
theorem reserve_spec (hm : m.WF) :
    ∃ m', m.reserve = some m' ∧ m'.WF ∧ m'.Sized ∧ m'.len < m'.growThreshold ∧
      m'.hasher = m.hasher ∧ m'.abs = m.abs := by
  unfold reserve
  by_cases hne : m.slots = []
  · have hl0 : live (m.alloc MIN_CAP).slots = [] := live_replicate _
    have hz : m.len = 0 := by rw [hm.count, hne]; rfl
    have hs : (m.alloc MIN_CAP).Sized := alloc_sized (k := 4) (by decide) rfl
    rw [if_pos (by simp [hne])]
    refine ⟨_, rfl,
      ⟨.inr hs, by rw [hl0]; exact hz, ?_, by simp [hl0], by simp [hl0], pathFull_nil hl0⟩, hs, ?_,
      rfl, ?_⟩
    · show m.len ≤ _
      omega
    · show m.len < _
      rw [hz]; simp [growThreshold, alloc, MIN_CAP, LOAD_DEN, LOAD_NUM]
    · rw [abs_of_empty hne, abs_eq, hl0]; rfl
  · have hs := hm.sized hne
    rw [if_neg (by simpa using hne)]
    by_cases hge : m.len ≥ m.growThreshold
    · rw [if_pos hge]
      exact grow_spec hm hs
    · rw [if_neg hge]
      exact ⟨m, rfl, hm, hs, by omega, rfl, rfl⟩

theorem store_spec (hm : m.WF) (hs : m.Sized) (hlt : m.len < m.growThreshold) (key : Bytes)
    (v : V) :
    ∃ m', m.store (m.hasher key) key v = some (m.abs.lookup key, m') ∧ m'.WF ∧
      m'.hasher = m.hasher ∧
      m'.abs = m.abs.insert key v := by
  unfold store
  rcases find_spec hm hs key with ⟨p, h1, h2, h3, h4⟩ | ⟨p, e, h1, h2, rfl⟩
  · have hnone : m.abs.lookup key = none := by rw [abs_eq, lookup_absOf_none h4]
    have hperm := live_fill (e := (⟨m.hasher key, key, v⟩ : Entry V)) h2
    have hkeys : ((live (m.slots.set p (some ⟨m.hasher key, key, v⟩))).map Entry.key).Nodup := by
      rw [(hperm.map Entry.key).nodup_iff, List.map_cons, List.nodup_cons]
      exact ⟨by simpa using h4, hm.keys⟩
    rw [h1, hnone]
    refine ⟨_, rfl, ⟨.inr ?_, ?_, ?_, ?_, hkeys, pathFull_fill hm.path h2 h3⟩, rfl, ?_⟩
    · simpa [Sized] using hs
    · show m.len + 1 = _
      rw [hperm.length_eq, hm.count]; rfl
    · show m.len + 1 ≤ _
      simpa [growThreshold] using hlt
    · intro e he
      rcases List.mem_cons.1 (hperm.mem_iff.1 he) with rfl | he'
      · rfl
      · exact hm.hashed e he'
    · rw [abs_eq, abs_eq, absOf_perm hperm hkeys, absOf_cons]
  · rw [h1, lookup_of_at hm h2]
    simp only [join_of_at h2]
    obtain ⟨hw, ha⟩ := hm.replace h2 v
    exact ⟨_, rfl, hw, rfl, ha⟩

theorem insert_spec (hm : m.WF) (key : Bytes) (v : V) :
    ∃ m', m.insert key v = some (m.abs.lookup key, m') ∧ m'.WF ∧ m'.hasher = m.hasher ∧
      m'.abs = m.abs.insert key v := by
  obtain ⟨m1, h1, hw, hs, hlt, hh, ha⟩ := reserve_spec hm
  obtain ⟨m2, h2, hw2, hh2, ha2⟩ := store_spec hw hs hlt key v
  rw [hh] at h2 hh2
  rw [ha] at h2 ha2
  exact ⟨m2, by rw [insert, insertPre, h1]; exact h2, hw2, hh2, ha2⟩

/-! ## Removing -/

theorem cyclicIn_iff {n a b x : Nat} (ha : a < n) (hb : b < n) (hx : x < n) (hne : b ≠ a) :
    cyclicIn a b x = true ↔ 0 < dist n a x ∧ dist n a x ≤ dist n a b := by
  unfold cyclicIn Inmem.Core.Ring.dist
  split_ifs <;> simp <;> omega

/-- The backward shift ends at an empty slot `q` at the latest, restores the probe
paths and keeps the entries. -/
theorem backwardShift_spec {q : Nat} : ∀ f (m : Raw V) (hole i : Nat), m.Sized →
    HoleInv m.home m.slots hole i → Empty m.slots q → q ≠ hole → q ≠ i →
    dist m.slots.length i q ≤ f →
    ∃ m', backwardShift m f hole i = some m' ∧ m'.slots.length = m.slots.length ∧ m'.mask = m.mask ∧
      m'.len = m.len ∧ m'.hasher = m.hasher ∧ PathFull m'.home m'.slots ∧
      (live m'.slots).Perm (live m.slots) := by
  intro f
  induction f with
  | zero =>
    intro m hole i _ hv hq _ hqi hf
    exact absurd (dist_eq_zero hv.ilt (Nat.le_zero.1 hf)).symm hqi
  | succ f ih =>
    intro m hole i hs hv hq hqh hqi hf
    have hd := dist_next_left hv.ilt hq.lt (Ne.symm hqi)
    have hlt : next m.slots.length i < m.slots.length := next_lt (by have := hs.ge; omega)
    have hstep := hs.step_eq i hv.ilt
    unfold backwardShift
    simp only [hstep]
    rcases empty_or_full hlt with he | ⟨e, he⟩
    · have hnone : m.slots[next m.slots.length i]? = some none := he
      rw [hnone]
      exact ⟨m, rfl, rfl, rfl, rfl, rfl, holeInv_stop hv (fun _ e _ => hs.ideal_lt e.hash) he,
        .refl _⟩
    · have hsome : m.slots[next m.slots.length i]? = some (some e) := he
      rw [hsome]
      have hne : next m.slots.length i ≠ hole := fun hc => hv.hole.not_full ⟨e, hc ▸ he⟩
      have hqn : q ≠ next m.slots.length i := fun hc => hq.not_full ⟨e, hc ▸ he⟩
      have hcyc := cyclicIn_iff hv.hole.lt hlt (hs.ideal_lt e.hash) hne
      by_cases hin : cyclicIn hole (next m.slots.length i) (m.ideal e.hash) = true
      · simp only [hin, Bool.not_true, Bool.false_eq_true, if_false]
        exact ih m hole _ hs (holeInv_skip hv he (hs.ideal_lt e.hash) (hcyc.1 hin)) hq hqh hqn
          (by omega)
      · simp only [hin, Bool.not_false, if_true]
        have hmove := holeInv_move hv he (hs.ideal_lt e.hash) (fun h => hin (hcyc.2 h))
        have hlen : ((m.slots.set hole (some e)).set (next m.slots.length i) none).length
            = m.slots.length := by simp
        have hq' : Empty ((m.slots.set hole (some e)).set (next m.slots.length i) none) q :=
          (empty_set (by simpa using hlt)).2 (.inr ⟨hqn, (empty_set hv.hole.lt).2 (.inr ⟨hqh, hq⟩)⟩)
        obtain ⟨m', h1, h2, h3, h4, h5, h6, h7⟩ :=
          ih { m with slots := (m.slots.set hole (some e)).set (next m.slots.length i) none } _ _
            (by simpa [Sized] using hs) hmove hq' hqn hqn (by simp only [hlen]; omega)
        exact ⟨m', h1, by rw [h2, hlen], h3, h4, h5, h6, h7.trans (live_move hv.hole he)⟩

theorem erase_insert_of_lookup_none {a : Finmap fun _ : Bytes => V} {key : Bytes} {v : V}
    (h : a.lookup key = none) : (a.insert key v).erase key = a := by
  apply Finmap.ext_lookup
  intro k
  by_cases hk : k = key
  · rw [hk, Finmap.lookup_erase, h]
  · rw [Finmap.lookup_erase_ne hk, Finmap.lookup_insert_of_ne _ hk]

theorem remove_spec (hm : m.WF) (key : Bytes) :
    ∃ m', m.remove key = some (m.abs.lookup key, m') ∧ m'.WF ∧ m'.hasher = m.hasher ∧
      m'.abs = m.abs.erase key := by
  unfold remove removePre
  by_cases hne : m.slots = []
  · rw [if_pos (by simp [hne]), abs_of_empty hne]
    refine ⟨m, rfl, hm, rfl, ?_⟩
    rw [abs_of_empty hne]
    exact Finmap.ext_lookup fun k => by
      by_cases hk : k = key
      · rw [hk, Finmap.lookup_erase]; rfl
      · rw [Finmap.lookup_erase_ne hk]
  · have hs := hm.sized hne
    rw [if_neg (by simpa using hne)]
    rcases find_spec hm hs key with ⟨p, h1, -, -, h4⟩ | ⟨p, e, h1, h2, rfl⟩
    · have hnone : m.abs.lookup key = none := by rw [abs_eq, lookup_absOf_none h4]
      rw [h1, hnone]
      refine ⟨m, rfl, hm, rfl, (Finmap.ext_lookup fun k => ?_).symm⟩
      by_cases hk : k = key
      · rw [hk, Finmap.lookup_erase, hnone]
      · rw [Finmap.lookup_erase_ne hk]
    · rw [h1, lookup_of_at hm h2]
      simp only [join_of_at h2]
      have hclear := live_clear h2
      -- an empty slot other than the new hole bounds the shift
      obtain ⟨q, hq⟩ := exists_empty (hm.room hs)
      have hqp : q ≠ p := by rintro rfl; exact hq.not_full ⟨e, h2⟩
      have hq' : Empty (m.slots.set p none) q := (empty_set h2.lt).2 (.inr ⟨hqp, hq⟩)
      obtain ⟨m', hb, hl, hmask, hlen, hhash, hp, hperm⟩ :=
        backwardShift_spec m.slots.length
          { m with slots := m.slots.set p none, len := m.len - 1 } p p
          (by simpa [Sized] using hs) (holeInv_start hm.path h2) hq' hqp hqp
          (by simpa using (dist_lt h2.lt hq.lt).le)
      have hl' : m'.slots.length = m.slots.length := by simpa using hl
      have hrest : (live m.slots).Perm (e :: live m'.slots) := hclear.trans (hperm.symm.cons e)
      have hkeys : ((e :: live m'.slots).map Entry.key).Nodup := ((hrest.map _).nodup_iff).1 hm.keys
      rw [List.map_cons, List.nodup_cons] at hkeys
      have hcount : m.len = (live m'.slots).length + 1 := by rw [hm.count, hrest.length_eq]; rfl
      have hlen' : m'.len = m.len - 1 := hlen
      have hload := hm.load
      refine ⟨m', by rw [hb]; rfl, ⟨.inr ?_, by omega, ?_, ?_, hkeys.2, hp⟩, hhash, ?_⟩
      · obtain ⟨k, h4, h5, h6⟩ := hs
        exact ⟨k, h4, by rw [hl', h5], by rw [hmask, h6]⟩
      · rw [growThreshold] at hload ⊢
        rw [hl']; omega
      · intro x hx
        rw [hhash]; exact hm.hashed x (hrest.mem_iff.2 (List.mem_cons_of_mem _ hx))
      · rw [abs_eq, abs_eq, absOf_perm hrest hm.keys, absOf_cons, erase_insert_of_lookup_none]
        exact lookup_absOf_none fun x hx hk => hkeys.1 (List.mem_map.2 ⟨x, hx, hk⟩)

end Raw

end Inmem.L2
