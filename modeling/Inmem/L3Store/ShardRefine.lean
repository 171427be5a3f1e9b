import Inmem.L3Store.Keyspace
import Mathlib.Logic.Relation

/-!
# One operation on one shard

`Shard.raw` is the keyspace a shard stores, entries that have expired but have
not been dropped included. A single-key operation is a sequence of `Move`s at its
key, after which it may check the budget.

* `exec_effect`: every operation answers like `KeyOp.spec` on the live record of
  the key; its moves leave the record that `KeyOp.spec` leaves, and if no budget
  check follows them, they have not added to the key's footprint.
* `exec_spec`: on an unbounded shard, where the check does nothing, the stored
  keyspace changes at that key only.
* `exec_congr`: the answer depends on the record of the key alone.

Every operation starts with the lazy expiry check, so `live_cases` does the
case split once: the key is gone (and now really absent) or it holds a live
entry.
-/
namespace Inmem.L3

open Inmem.L1 Inmem.Core.Decimal
open Inmem.L2 (FlatMap S3Fifo)

variable {σ : Type} [Score σ]

/-- The abstract value. -/
def Value.abs : Value σ → Val σ
  | .str b => .str b
  | .list l => .list l
  | .hash h => .hash h
  | .set s => .set s
  | .zset z => .zset z.scores

def Entry.abs (e : Entry σ) : Rec σ := ⟨e.value.abs, e.expireAt⟩

theorem Value.abs_typeName (v : Value σ) : v.abs.typeName = v.typeName := by cases v <;> rfl

/-- The abstract value determines the stored one. -/
theorem Value.abs_inj {v v' : Value σ} (h : v.abs = v'.abs) : v = v' := by
  cases v <;> cases v' <;> first | cases h; rfl | cases h | skip
  rename_i z z'
  exact congrArg Value.zset (ZSet.ext_scores (Val.zset.inj h))

theorem Entry.abs_inj {e e' : Entry σ} (h : e.abs = e'.abs) : e = e' := by
  obtain ⟨v, d⟩ := e
  obtain ⟨v', d'⟩ := e'
  obtain ⟨hv, rfl⟩ : v.abs = v'.abs ∧ d = d' := by simpa [Entry.abs] using h
  rw [Value.abs_inj hv]

namespace Shard

/-- The keyspace a shard stores. -/
def raw (s : Shard σ) : View σ := fun k => (s.map.get k).map Entry.abs

/-- `s'` is `s` with the record of `k` replaced. -/
structure Upd (s : Shard σ) (k : Bytes) (r : Option (Rec σ)) (s' : Shard σ) : Prop where
  raw : s'.raw = s.raw.put k r
  budget : s'.budget = s.budget

variable {s s' s'' : Shard σ} {k : Bytes} {now : Nat} {r r' : Option (Rec σ)}

theorem Upd.refl (h : s.raw k = r) : Upd s k r s := by
  refine ⟨funext fun k' => ?_, rfl⟩
  by_cases hk : k' = k
  · subst hk; simp [h]
  · simp [View.put, hk]

theorem Upd.trans (h : Upd s k r s') (h' : Upd s' k r' s'') : Upd s k r' s'' := by
  refine ⟨funext fun k' => ?_, h'.budget.trans h.budget⟩
  rw [h'.raw, h.raw]
  by_cases hk : k' = k
  · subst hk; simp
  · simp [View.put, hk]

theorem Upd.raw_self (h : Upd s k r s') : s'.raw k = r := by rw [h.raw]; simp

/-! ## Moves -/

/-- One elementary change at a key. -/
inductive Move (k : Bytes) : Shard σ → Shard σ → Prop
  | drop (s : Shard σ) : Move k s (s.dropKey k).2
  | put (s : Shard σ) (v : Value σ) (d : Option Nat) (h : s.map.get k = none) :
    Move k s (s.putNew k v d)
  | change (s : Shard σ) (e : Entry σ) (f : Entry σ → Entry σ) (h : s.map.get k = some e) :
    Move k s { s with map := s.map.getMut k f,
                      bytes := s.bytes + (f e).value.bytes - e.value.bytes }
  | touch (s : Shard σ) : Move k s (s.touch k)

/-- `s'` is reached from `s` by moves at `k` that leave the record `r`. -/
structure Step (s : Shard σ) (k : Bytes) (r : Option (Rec σ)) (s' : Shard σ) :
    Prop extends Upd s k r s' where
  moves : Relation.ReflTransGen (Move k) s s'

theorem Step.refl (h : s.raw k = r) : Step s k r s := ⟨.refl h, .refl⟩

theorem Step.trans (h : Step s k r s') (h' : Step s' k r' s'') : Step s k r' s'' :=
  ⟨h.toUpd.trans h'.toUpd, h.moves.trans h'.moves⟩

/-- The bytes an entry is accounted for. -/
def footprint (k : Bytes) (e : Entry σ) : Nat := keyOverhead k.length + e.value.bytes

/-- What an operation does that leaves the record `r`: moves, and then the budget
check, unless the key's footprint has not grown. -/
def Effect (s : Shard σ) (k : Bytes) (r : Option (Rec σ)) (s' : Shard σ) : Prop :=
  ∃ s₁, Step s k r s₁ ∧
    (s' = s₁.enforceBudget ∨ s' = s₁ ∧ s₁.map.share footprint k ≤ s.map.share footprint k)

theorem Step.enforced (h : Step s k r s') : Effect s k r s'.enforceBudget := ⟨s', h, .inl rfl⟩

/-- Equal records are stored as equal entries. -/
theorem get_of_raw {k k' : Bytes} (h : s'.raw k' = s.raw k) : s'.map.get k' = s.map.get k :=
  Option.map_injective (fun _ _ => Entry.abs_inj) h

theorem get_of_raw_none (h : s.raw k = none) : s.map.get k = none := Option.map_eq_none_iff.1 h

/-- A key that is gone has no footprint. -/
theorem Step.gone (h : Step s k none s') : Effect s k none s' := by
  refine ⟨s', h, .inr ⟨rfl, ?_⟩⟩
  rw [FlatMap.share_none (get_of_raw_none h.raw_self)]
  exact Nat.zero_le _

theorem Effect.refl (h : s.raw k = r) : Effect s k r s := ⟨s, .refl h, .inr ⟨rfl, le_rfl⟩⟩

theorem touch_map (s : Shard σ) (k : Bytes) : (s.touch k).map = s.map := by
  unfold touch; split <;> rfl

theorem touch_step (h : s.raw k = r) : Step s k r (s.touch k) := by
  have hm := touch_map s k
  have hraw : (s.touch k).raw = s.raw := by unfold raw; rw [hm]
  refine ⟨⟨hraw.trans (Upd.refl h).raw, ?_⟩, .single (.touch s)⟩
  unfold touch; split <;> rfl

theorem Effect.touched (h : s.raw k = r) : Effect s k r (s.touch k) :=
  ⟨_, touch_step h, .inr ⟨rfl, by rw [touch_map]⟩⟩

/-! ## The building blocks -/

theorem dropKey_fst : (s.dropKey k).1 = (s.map.get k).isSome := by
  cases h : s.map.get k with
  | none => rw [dropKey_none h]; rfl
  | some e => rw [dropKey_some h]; rfl

theorem dropKey_get (k' : Bytes) :
    (s.dropKey k).2.map.get k' = if k' = k then none else s.map.get k' := by
  cases h : s.map.get k with
  | some e => rw [dropKey_some h, FlatMap.get_remove]
  | none =>
    rw [dropKey_none h]
    by_cases hk : k' = k
    · rw [if_pos hk, hk]; exact h
    · rw [if_neg hk]

theorem dropKey_budget : (s.dropKey k).2.budget = s.budget := by
  cases h : s.map.get k with
  | none => rw [dropKey_none h]
  | some e => rw [dropKey_some h]

theorem dropKey_step : Step s k none (s.dropKey k).2 := by
  refine ⟨⟨funext fun k' => ?_, dropKey_budget⟩, .single (.drop s)⟩
  unfold raw View.put
  rw [dropKey_get]
  split <;> rfl

theorem putNew_step (h : s.map.get k = none) (v : Value σ) (d : Option Nat) :
    Step s k (some ⟨v.abs, d⟩) (s.putNew k v d) := by
  refine ⟨⟨funext fun k' => ?_, rfl⟩, .single (.put s v d h)⟩
  simp only [raw, putNew, View.put, FlatMap.get_insert]
  split <;> rfl

theorem putNew_value (v : Value σ) (d : Option Nat) : (s.putNew k v d).map.get k = some ⟨v, d⟩ := by
  simp [putNew]

/-- A write through `get_mut`. -/
theorem change_step {e : Entry σ} (h : s.map.get k = some e) (f : Entry σ → Entry σ) :
    Step s k (some (f e).abs)
      { s with map := s.map.getMut k f, bytes := s.bytes + (f e).value.bytes - e.value.bytes } := by
  refine ⟨⟨funext fun k' => ?_, rfl⟩, .single (.change s e f h)⟩
  simp only [raw, View.put, FlatMap.get_getMut]
  split
  · rename_i hk; rw [hk, h]; rfl
  · rfl

/-- On an unbounded shard the budget check does nothing. -/
theorem Effect.unbounded (hb : s.budget = 0) (h : Effect s k r s') : Upd s k r s' := by
  obtain ⟨s₁, h, rfl | ⟨rfl, -⟩⟩ := h
  · rw [enforceBudget_unbounded (h.budget.trans hb)]; exact h.toUpd
  · exact h.toUpd

/-- After the expiry check the key is absent, or it holds a live entry. -/
theorem live_cases (s : Shard σ) (k : Bytes) (now : Nat) :
    (∃ s', s.live k now = (false, s') ∧ liveAt now (s.raw k) = none ∧ s'.map.get k = none ∧
      Step s k none s') ∨
      ∃ e, s.live k now = (true, s) ∧ liveAt now (s.raw k) = some e.abs ∧ s.map.get k = some e := by
  cases h : s.map.get k with
  | none =>
    exact .inl ⟨s, live_absent h now, by simp [raw, h, liveAt], h, .refl (by simp [raw, h])⟩
  | some e =>
    cases he : expired now e.expireAt with
    | true =>
      refine .inl ⟨_, live_expired h he, ?_, by simp [dropKey_get], dropKey_step⟩
      simp [raw, h, liveAt, Entry.abs, he]
    | false =>
      refine .inr ⟨e, live_present h he, ?_, rfl⟩
      simp [raw, h, liveAt, Entry.abs, he]

theorem value_of_get {e : Entry σ} (h : s.map.get k = some e) : s.value k = some e.value := by
  simp [value, h]

theorem deadline_of_get {e : Entry σ} (h : s.map.get k = some e) : s.deadline k = e.expireAt := by
  simp [deadline, h]

/-! ## Collections -/

/-- A collection type of the store stands for one of the abstract values. -/
structure Models {C A : Type} (col : Coll (Value σ) C) (vcol : Coll (Val σ) A) (α : C → A) :
    Prop where
  wrap : ∀ c, (col.wrap c).abs = vcol.wrap (α c)
  unwrap : ∀ v : Value σ, vcol.unwrap v.abs = (col.unwrap v).map α
  unwrap_wrap : ∀ c, col.unwrap (col.wrap c) = some c
  make : α col.make = vcol.make
  isEmpty : ∀ c, col.isEmpty c = vcol.isEmpty (α c)

theorem models_list : Models (Coll.list (σ := σ)) VColl.list id :=
  ⟨fun _ => rfl, fun v => by cases v <;> rfl, fun _ => rfl, rfl, fun _ => rfl⟩

theorem models_hash : Models (Coll.hash (σ := σ)) VColl.hash id :=
  ⟨fun _ => rfl, fun v => by cases v <;> rfl, fun _ => rfl, rfl, fun _ => rfl⟩

theorem models_set : Models (Coll.set (σ := σ)) VColl.set id :=
  ⟨fun _ => rfl, fun v => by cases v <;> rfl, fun _ => rfl, rfl, fun _ => rfl⟩

theorem models_zset : Models (Coll.zset (σ := σ)) VColl.zset ZSet.scores :=
  ⟨fun _ => rfl, fun v => by cases v <;> rfl, fun _ => rfl, rfl, fun _ => rfl⟩

section
variable {C A R : Type} {col : Coll (Value σ) C} {vcol : Coll (Val σ) A} {α : C → A}

theorem valueBytes_of_get {e : Entry σ} (h : s.map.get k = some e) :
    s.valueBytes k = e.value.bytes := by
  simp [valueBytes, value, h]

theorem writeBack_effect (hm : Models col vcol α) {e : Entry σ} (h : s.map.get k = some e) (c : C) :
    ∃ s₁, Step s k (if vcol.isEmpty (α c) then none else some ⟨vcol.wrap (α c), e.expireAt⟩) s₁ ∧
      s.writeBackM plainSub enforceBudget col k c = if vcol.isEmpty (α c) then s₁
        else s₁.enforceBudget := by
  have hc := change_step h fun e => { e with value := col.wrap c }
  simp only [Entry.abs, hm.wrap] at hc
  have ht := hc.trans (touch_step hc.raw_self)
  have hg : (s.map.getMut k fun e => { e with value := col.wrap c }).get k =
      some ⟨col.wrap c, e.expireAt⟩ := by
    simp [h]
  unfold writeBackM
  simp only [bind_id, pure_id, plainSub, dropKeyM_plain, valueBytes, value, touch_map, h, hg,
    Option.map_some, Option.bind_some, hm.unwrap_wrap, Option.getD_some, hm.isEmpty]
  cases vcol.isEmpty (α c) with
  | true => exact ⟨_, ht.trans dropKey_step, rfl⟩
  | false => exact ⟨_, ht, rfl⟩

theorem withCollection_effect (hm : Models col vcol α) (body : C → R × C) (vbody : A → R × A)
    (hbody : ∀ c, vbody (α c) = ((body c).1, α (body c).2)) :
    (s.withCollection col k now body).1 = (specColl vcol vbody (liveAt now (s.raw k))).1 ∧
      Effect s k (specColl vcol vbody (liveAt now (s.raw k))).2
        (s.withCollection col k now body).2 := by
  -- the collection is written back, from a shard that moves have led to
  have key : ∀ {s' : Shard σ} {x : Option (Rec σ)} {e : Entry σ} (c : C), Step s k x s' →
      s'.map.get k = some e →
      Effect s k (if vcol.isEmpty (α c) then none else some ⟨vcol.wrap (α c), e.expireAt⟩)
        (s'.writeBackM plainSub enforceBudget col k c) := by
    intro s' x e c hs hg
    obtain ⟨s₁, h₁, e₁⟩ := writeBack_effect hm hg c
    rw [e₁]
    cases he : vcol.isEmpty (α c) with
    | true => rw [he] at h₁; exact (hs.trans h₁).gone
    | false => rw [he] at h₁; exact (hs.trans h₁).enforced
  simp only [withCollection, withCollectionM, bind_id, pure_id, liveM_plain]
  rcases live_cases s k now with ⟨s', hl, hnone, hget, hu⟩ | ⟨e, hl, hsome, hget⟩
  · have hg := putNew_value (s := s') (k := k) (col.wrap col.make) none
    rw [hl, hnone]
    simp only [Bool.false_eq_true, if_false, value_of_get hg, hm.unwrap_wrap, specColl, ← hm.make,
      hbody]
    exact ⟨trivial, key _ (hu.trans (putNew_step hget (col.wrap col.make) none)) hg⟩
  · rw [hl, hsome]
    simp only [if_true, value_of_get hget, specColl, Entry.abs, hm.unwrap]
    cases hc : col.unwrap e.value with
    | none => exact ⟨rfl, .refl (by simp [raw, hget, Entry.abs])⟩
    | some c =>
      simp only [Option.map_some, hbody]
      exact ⟨trivial, key _ (.refl rfl) hget⟩

/-- A read answers from the live value and leaves the live record. -/
theorem readCollection_effect (k : Bytes) (now : Nat) (f : Option (Value σ) → R) :
    ∃ x : Option (Entry σ), liveAt now (s.raw k) = x.map Entry.abs ∧
      (s.readCollection k now f).1 = f (x.map Entry.value) ∧
      Effect s k (liveAt now (s.raw k)) (s.readCollection k now f).2 := by
  unfold readCollection
  rcases live_cases s k now with ⟨s', hl, hnone, hget, hu⟩ | ⟨e, hl, hsome, hget⟩
  · exact ⟨none, hnone, by rw [hl]; rfl, by rw [hl, hnone]; exact hu.gone⟩
  · refine ⟨some e, hsome, ?_, ?_⟩
    · simp [hl, value, touch_map, hget]
    · simp only [hl, Bool.not_true, Bool.false_eq_true, if_false, hsome]
      exact .touched (by simp [raw, hget])

theorem readAs_abs (hm : Models col vcol α) (absent : R) (f : A → R) (x : Option (Entry σ)) :
    (specRead vcol absent f (x.map Entry.abs)).1 =
      readAs col absent (fun c => f (α c)) (x.map Entry.value) := by
  cases x with
  | none => rfl
  | some e =>
    simp only [specRead, readAs, Option.map_some, Entry.abs, hm.unwrap]
    cases col.unwrap e.value <;> rfl

/-- Reading a collection, when the answer is a function of it. -/
theorem readAs_effect (hm : Models col vcol α) (absent : R) (f : C → R) (g : A → R)
    (hfg : ∀ c, f c = g (α c)) :
    (s.readCollection k now (readAs col absent f)).1 =
      (specRead vcol absent g (liveAt now (s.raw k))).1 ∧
      Effect s k (specRead vcol absent g (liveAt now (s.raw k))).2
        (s.readCollection k now (readAs col absent f)).2 := by
  obtain ⟨x, hx, hres, hu⟩ := readCollection_effect k now (readAs col absent f)
  refine ⟨?_, hu⟩
  rw [hres, hx, readAs_abs hm, funext hfg]

/-- Reading a collection, when only the elements of the answer are determined. -/
theorem readListing_effect {T : Type} (hm : Models col vcol α) (f : C → List T) (g : A → List T)
    (hfg : ∀ c, (f c).Perm (g (α c))) :
    SameList (s.readCollection k now (readAs col [] f)).1
      (specRead vcol [] g (liveAt now (s.raw k))).1 ∧
      Effect s k (specRead vcol [] g (liveAt now (s.raw k))).2
        (s.readCollection k now (readAs col [] f)).2 := by
  obtain ⟨x, hx, hres, hu⟩ := readCollection_effect k now (readAs col [] f)
  refine ⟨?_, hu⟩
  rw [hres, hx, readAs_abs hm]
  cases x with
  | none => exact .refl _
  | some e =>
    simp only [Option.map_some, readAs]
    cases col.unwrap e.value with
    | none => rfl
    | some c => exact hfg c

end

theorem countFold_map {A C D : Type} (α : C → D) (f : C → A → Bool × C) (g : D → A → Bool × D)
    (h : ∀ c a, g (α c) a = ((f c a).1, α (f c a).2)) (as : List A) :
    ∀ c, countFold g as (α c) = ((countFold f as c).1, α (countFold f as c).2) := by
  induction as with
  | nil => intro c; rfl
  | cons a as ih => intro c; simp only [countFold, h, ih]

theorem hashOrder_perm (env : Env) (k : Bytes) (h : Finmap fun _ : Bytes => Bytes) :
    (env.hashOrder k h).Perm (hashList h) := by
  rw [List.perm_ext_iff_of_nodup (List.Nodup.of_map _ (env.hash_listed k h).1)
    (List.Nodup.of_map _ (hashList_nodup h))]
  rintro ⟨f, v⟩
  rw [(env.hash_listed k h).2 f v, mem_hashList]

theorem setOrder_perm (env : Env) (k : Bytes) (s : Finset Bytes) :
    (env.setOrder k s).Perm (setList s) := by
  unfold setList
  rw [List.perm_ext_iff_of_nodup (env.set_listed k s).1 (Finset.sort_nodup ..)]
  intro m
  rw [(env.set_listed k s).2 m, Finset.mem_sort]

/-! ## Strings and deadlines -/

theorem replaceStr_effect (b : Bytes) (existed : Bool) (h : existed = (s.map.get k).isSome) :
    ∃ s₁, Step s k (some ⟨.str b, s.deadline k⟩) s₁ ∧
      s.replaceStrM plainSub enforceBudget k b existed = s₁.enforceBudget := by
  simp only [replaceStrM, bind_id, pure_id, dropKeyM_plain]
  cases hg : s.map.get k with
  | none =>
    rw [hg] at h
    subst h
    simp only [Option.isSome_none, Bool.false_eq_true, if_false, deadline, hg, Option.bind_none]
    exact ⟨_, putNew_step hg (.str b) none, rfl⟩
  | some e =>
    rw [hg] at h
    subst h
    simp only [Option.isSome_some, if_true]
    exact ⟨_, dropKey_step.trans (putNew_step (by simp [dropKey_get]) (.str b) _), rfl⟩

/-- The live record as a string. -/
theorem recStr_abs (e : Entry σ) :
    recStr (some e.abs) = match e.value with | .str v => .ok (some v) | _ => .error .wrongType := by
  obtain ⟨v, d⟩ := e
  cases v <;> rfl

theorem get_effect :
    (s.get k now).1 = recStr (liveAt now (s.raw k)) ∧
      Effect s k (liveAt now (s.raw k)) (s.get k now).2 := by
  unfold get
  rcases live_cases s k now with ⟨s', hl, hnone, hget, hu⟩ | ⟨e, hl, hsome, hget⟩
  · rw [hl, hnone]; exact ⟨rfl, hu.gone⟩
  · simp only [hl, hsome, Bool.not_true, Bool.false_eq_true, if_false, value, touch_map, hget,
      Option.map_some, recStr_abs]
    refine ⟨?_, .touched (by simp [raw, hget])⟩
    cases e.value <;> rfl

theorem readStr_effect (env : Env) :
    (s.readStr k env.now).1 = (KeyOp.readStr.spec env.now (liveAt env.now (s.raw k))).1 ∧
      Effect s k (liveAt env.now (s.raw k)) (s.readStr k env.now).2 := by
  unfold readStr
  rcases live_cases s k env.now with ⟨s', hl, hnone, hget, hu⟩ | ⟨e, hl, hsome, hget⟩
  · rw [hl, hnone]; exact ⟨rfl, hu.gone⟩
  · simp only [hl, hsome, Bool.not_true, Bool.false_eq_true, if_false, value, touch_map, hget,
      Option.map_some, KeyOp.spec, recStr_abs]
    refine ⟨?_, .touched (by simp [raw, hget])⟩
    cases e.value <;> rfl

theorem set_effect (value : Bytes) (opts : SetOptions) :
    (s.set k value opts now).1 = ((KeyOp.set value opts).spec now (liveAt now (s.raw k))).1 ∧
      Effect s k ((KeyOp.set value opts).spec now (liveAt now (s.raw k))).2
        (s.set k value opts now).2 := by
  simp only [set, setM, bind_id, pure_id, liveM_plain, plainSub]
  rcases live_cases s k now with ⟨s', hl, hnone, hget, hu⟩ | ⟨e, hl, hsome, hget⟩
  · simp only [hl, hnone, KeyOp.spec, SetOptions.allows, SetOptions.deadline, Option.isSome_none,
      Bool.and_false, Bool.false_eq_true, if_false, Bool.not_false, Bool.and_true, Bool.true_and]
    cases opts.xx with
    | true => exact ⟨rfl, hu.gone⟩
    | false =>
      simp only [Bool.false_eq_true, if_false, Bool.not_false, if_true]
      exact ⟨trivial, (hu.trans (putNew_step hget (.str value) _)).enforced⟩
  · have hself : s.raw k = some e.abs := by simp [raw, hget]
    simp only [hl, hsome, KeyOp.spec, SetOptions.allows, SetOptions.deadline, Option.isSome_some,
      Bool.and_true, Bool.not_true, Bool.and_false, Bool.false_eq_true, if_false, Bool.not_false,
      if_true, deadline_of_get hget, valueBytes_of_get hget]
    cases opts.nx with
    | true => exact ⟨rfl, .refl hself⟩
    | false =>
      have hc := change_step hget fun _ =>
        (⟨.str value, if opts.keepTtl = true then e.expireAt else opts.expireAt⟩ : Entry σ)
      exact ⟨rfl, (hc.trans (touch_step hc.raw_self)).enforced⟩

theorem del_effect :
    (s.del k now).1 = (liveAt now (s.raw k)).isSome ∧ Effect s k none (s.del k now).2 := by
  simp only [del, delM, bind_id, pure_id, liveM_plain, dropKeyM_plain]
  rcases live_cases s k now with ⟨s', hl, hnone, hget, hu⟩ | ⟨e, hl, hsome, hget⟩
  · rw [hl, hnone]; exact ⟨rfl, hu.gone⟩
  · simp only [hl, hsome, Bool.not_true, Bool.false_eq_true, if_false]
    exact ⟨by rw [dropKey_fst, hget]; rfl, dropKey_step.gone⟩

theorem exists_effect :
    (s.exists? k now).1 = (liveAt now (s.raw k)).isSome ∧
      Effect s k (liveAt now (s.raw k)) (s.exists? k now).2 := by
  unfold exists?
  rcases live_cases s k now with ⟨s', hl, hnone, hget, hu⟩ | ⟨e, hl, hsome, hget⟩
  · rw [hl, hnone]; exact ⟨rfl, hu.gone⟩
  · rw [hl, hsome]; exact ⟨rfl, .refl (by simp [raw, hget])⟩

theorem typeOf_effect :
    (s.typeOf k now).1 = (KeyOp.typeOf.spec now (liveAt now (s.raw k))).1 ∧
      Effect s k (liveAt now (s.raw k)) (s.typeOf k now).2 := by
  unfold typeOf
  rcases live_cases s k now with ⟨s', hl, hnone, hget, hu⟩ | ⟨e, hl, hsome, hget⟩
  · rw [hl, hnone]; exact ⟨rfl, hu.gone⟩
  · simp only [hl, hsome, Bool.not_true, Bool.false_eq_true, if_false, value_of_get hget,
      Option.map_some, Option.getD_some]
    exact ⟨(Value.abs_typeName e.value).symm, .refl (by simp [raw, hget])⟩

theorem expireAt_effect (d : Option Nat) :
    (s.expireAt k d now).1 = (liveAt now (s.raw k)).isSome ∧
      Effect s k ((liveAt now (s.raw k)).map fun r => { r with deadline := d })
        (s.expireAt k d now).2 := by
  unfold expireAt
  rcases live_cases s k now with ⟨s', hl, hnone, hget, hu⟩ | ⟨e, hl, hsome, hget⟩
  · rw [hl, hnone]; exact ⟨rfl, hu.gone⟩
  · simp only [hl, hsome, Bool.not_true, Bool.false_eq_true, if_false, hget]
    have hc := change_step hget fun e => { e with expireAt := d }
    simp only [Nat.add_sub_cancel] at hc
    refine ⟨rfl, _, hc, .inr ⟨rfl, le_of_eq ?_⟩⟩
    rw [FlatMap.share_some hget, FlatMap.share_some (v := { e with expireAt := d })
      (by simp [hget])]
    rfl

theorem pttl_effect :
    (s.pttl k now).1 = (KeyOp.pttl.spec now (liveAt now (s.raw k))).1 ∧
      Effect s k (liveAt now (s.raw k)) (s.pttl k now).2 := by
  unfold pttl
  rcases live_cases s k now with ⟨s', hl, hnone, hget, hu⟩ | ⟨e, hl, hsome, hget⟩
  · rw [hl, hnone]; exact ⟨rfl, hu.gone⟩
  · simp only [hl, hsome, Bool.not_true, Bool.false_eq_true, if_false, deadline_of_get hget]
    refine ⟨?_, .refl (by simp [raw, hget])⟩
    simp only [KeyOp.spec, Option.elim_some, Entry.abs]
    cases e.expireAt <;> rfl

theorem incrBy_effect (delta : Int) :
    (s.incrBy k delta now).1 = (specIncr delta (liveAt now (s.raw k))).1 ∧
      Effect s k (specIncr delta (liveAt now (s.raw k))).2 (s.incrBy k delta now).2 := by
  simp only [incrBy, incrByM, bind_id, pure_id, liveM_plain, specIncr]
  rcases live_cases s k now with ⟨s', hl, hnone, hget, hu⟩ | ⟨e, hl, hsome, hget⟩
  · simp only [hl, hnone, counter, recStr, Bool.false_eq_true, if_false, Option.elim_none]
    split
    · obtain ⟨s₁, h₁, e₁⟩ :=
        replaceStr_effect (s := s') (k := k) (intText (0 + delta)) false (by simp [hget])
      simp only [deadline, hget, Option.bind_none] at h₁
      exact ⟨rfl, s₁, hu.trans h₁, .inl e₁⟩
    · exact ⟨rfl, hu.gone⟩
  · have hself : s.raw k = some e.abs := by simp [raw, hget]
    simp only [hl, hsome, counter, if_true, value_of_get hget, recStr_abs]
    cases hv : e.value with
    | str v =>
      simp only [Option.elim_some]
      cases strInt v with
      | error err => exact ⟨rfl, .refl hself⟩
      | ok cur =>
        simp only
        split
        · obtain ⟨s₁, h₁, e₁⟩ :=
            replaceStr_effect (s := s) (k := k) (intText (cur + delta)) true (by simp [hget])
          rw [deadline_of_get hget] at h₁
          exact ⟨rfl, s₁, h₁, .inl e₁⟩
        · exact ⟨rfl, .refl hself⟩
    | _ => exact ⟨rfl, .refl hself⟩

theorem append_effect (suffix : Bytes) :
    (s.append k suffix now).1 = (specAppend suffix (liveAt now (s.raw k))).1 ∧
      Effect s k (specAppend suffix (liveAt now (s.raw k))).2 (s.append k suffix now).2 := by
  simp only [append, appendM, bind_id, pure_id, liveM_plain, prior, specAppend]
  rcases live_cases s k now with ⟨s', hl, hnone, hget, hu⟩ | ⟨e, hl, hsome, hget⟩
  · simp only [hl, hnone, recStr, Bool.false_eq_true, if_false, Option.getD_none, List.nil_append]
    obtain ⟨s₁, h₁, e₁⟩ := replaceStr_effect (s := s') (k := k) suffix false (by simp [hget])
    simp only [deadline, hget, Option.bind_none] at h₁
    exact ⟨trivial, s₁, hu.trans h₁, .inl e₁⟩
  · simp only [hl, hsome, if_true, value_of_get hget, recStr_abs]
    cases hv : e.value with
    | str v =>
      obtain ⟨s₁, h₁, e₁⟩ := replaceStr_effect (s := s) (k := k) (v ++ suffix) true (by simp [hget])
      rw [deadline_of_get hget] at h₁
      exact ⟨rfl, s₁, h₁, .inl e₁⟩
    | _ => exact ⟨rfl, .refl (by simp [raw, hget])⟩

theorem strlen_effect :
    (s.strlen k now).1 = (KeyOp.strlen.spec now (liveAt now (s.raw k))).1 ∧
      Effect s k (liveAt now (s.raw k)) (s.strlen k now).2 := by
  unfold strlen
  rcases live_cases s k now with ⟨s', hl, hnone, hget, hu⟩ | ⟨e, hl, hsome, hget⟩
  · rw [hl, hnone]; exact ⟨rfl, hu.gone⟩
  · simp only [hl, hsome, Bool.not_true, Bool.false_eq_true, if_false, value_of_get hget,
      KeyOp.spec, recStr_abs]
    refine ⟨?_, .refl (by simp [raw, hget])⟩
    cases e.value <;> rfl

/-! ## All operations -/

/-- **One operation.** On every shard, bounded or not, a single-key operation
answers like the specification on the key's live record, and its moves leave the
record that the specification leaves. -/
theorem exec_effect (env : Env) (k : Bytes) (op : KeyOp σ) (s : Shard σ) :
    op.Same (op.exec env k s).1 (op.spec env.now (liveAt env.now (s.raw k))).1 ∧
      Effect s k (op.spec env.now (liveAt env.now (s.raw k))).2 (op.exec env k s).2 := by
  cases op with
  | get => exact get_effect
  | readStr => exact readStr_effect env
  | set value opts => exact set_effect value opts
  | del => exact del_effect
  | «exists» => exact exists_effect
  | typeOf => exact typeOf_effect
  | expireAt d => exact expireAt_effect d
  | pttl => exact pttl_effect
  | incrBy delta => exact incrBy_effect delta
  | append suffix => exact append_effect suffix
  | strlen => exact strlen_effect
  | push vals left => exact withCollection_effect models_list _ _ fun _ => rfl
  | pop count left => exact withCollection_effect models_list _ _ fun _ => rfl
  | llen => exact readAs_effect models_list _ _ _ fun _ => rfl
  | lrange start stop => exact readAs_effect models_list _ _ _ fun _ => rfl
  | hset pairs => exact withCollection_effect models_hash _ _ fun _ => rfl
  | hget field => exact readAs_effect models_hash _ _ _ fun _ => rfl
  | hdel fields => exact withCollection_effect models_hash _ _ fun _ => rfl
  | hlen => exact readAs_effect models_hash _ _ _ fun _ => rfl
  | hgetall => exact readListing_effect models_hash _ _ (hashOrder_perm env k)
  | sadd members => exact withCollection_effect models_set _ _ fun _ => rfl
  | srem members => exact withCollection_effect models_set _ _ fun _ => rfl
  | sismember member => exact readAs_effect models_set _ _ _ fun _ => rfl
  | scard => exact readAs_effect models_set _ _ _ fun _ => rfl
  | smembers => exact readListing_effect models_set _ _ (setOrder_perm env k)
  | zadd pairs =>
    exact withCollection_effect models_zset _ _
      (countFold_map ZSet.scores _ _ (fun z p => by simp) pairs)
  | zrem members =>
    exact withCollection_effect models_zset _ _
      (countFold_map ZSet.scores _ _ (fun z m => by simp) members)
  | zscore member => exact readAs_effect models_zset _ _ _ fun _ => rfl
  | zcard => exact readAs_effect models_zset _ _ _ fun _ => rfl
  | zrange start stop =>
    exact readAs_effect models_zset _ _ _ fun z => by rw [ZSet.range, ZSet.sorted_eq]

/-- On an unbounded shard every single-key operation answers like the specification
on the key's live record and leaves the record that the specification leaves,
every other key being untouched. -/
theorem exec_spec (env : Env) (k : Bytes) (op : KeyOp σ) (s : Shard σ) (hb : s.budget = 0) :
    op.Same (op.exec env k s).1 (op.spec env.now (liveAt env.now (s.raw k))).1 ∧
      Upd s k (op.spec env.now (liveAt env.now (s.raw k))).2 (op.exec env k s).2 :=
  ⟨(exec_effect env k op s).1, (exec_effect env k op s).2.unbounded hb⟩

/-- A reading operation answers alike on shards that hold the same live record. -/
theorem readCollection_congr {R : Type} (h : liveAt now (s.raw k) = liveAt now (s'.raw k))
    (f : Option (Value σ) → R) : (s.readCollection k now f).1 = (s'.readCollection k now f).1 := by
  obtain ⟨x, hx, hres, -⟩ := readCollection_effect (s := s) k now f
  obtain ⟨y, hy, hres', -⟩ := readCollection_effect (s := s') k now f
  have hxy : x = y := Option.map_injective (fun _ _ => Entry.abs_inj) (by rw [← hx, ← hy, h])
  rw [hres, hres', hxy]

/-- What an operation answers depends on the record of its key alone. -/
theorem exec_congr (env : Env) (op : KeyOp σ) (h : s.raw k = s'.raw k) :
    (op.exec env k s).1 = (op.exec env k s').1 := by
  have h1 := (exec_effect env k op s).1
  have h2 := (exec_effect env k op s').1
  rw [← h] at h2
  cases op with
  -- the specification leaves the order of these two listings open
  | hgetall => exact readCollection_congr (congrArg _ h) _
  | smembers => exact readCollection_congr (congrArg _ h) _
  | _ => exact h1.trans h2.symm

end Shard

end Inmem.L3
