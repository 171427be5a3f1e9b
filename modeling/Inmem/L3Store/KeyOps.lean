import Inmem.L3Store.Refine

/-!
# Kinds of operations

The operations that read, the operations a command runs alone, and what the
specification of each kind does to a record.

* `read_at`: a read leaves the keyspace as it is;
* `clean_spec`: an update whose answer says that nothing changed leaves the record
  as it was; `unchanged_spec`, `unchanged_at`: the same for every operation and call;
* `spec_time`: what an operation leaves does not depend on when it runs, only on
  whether the record is still there; `remover_none`, `remover_deadline`: for the
  operations that only take away, hardly on that;
* `mistyped_spec`: an operation on values of one type answers `WRONGTYPE` exactly when
  the record has another type.
-/
namespace Inmem.L3

open Inmem.L1

section
variable {σ : Type}

/-! ## Kinds of calls -/

/-- The operations that leave the key as it is. -/
def KeyOp.isRead : KeyOp σ → Bool
  | .get | .readStr | .exists | .typeOf | .pttl | .strlen | .llen | .lrange .. | .hget _ | .hlen
  | .hgetall
  | .sismember _ | .scard | .smembers | .zscore _ | .zcard | .zrange .. => true
  | _ => false

/-- The calls that leave the keyspace as it is. -/
def Call.isRead : Call σ → Bool
  | .key _ op => op.isRead
  | .keys | .dbsize | .shardCount | .nowMs | .save => true
  | .flushAll | .purgeExpired => false

/-- The operations that a command runs alone, with the answer deciding whether
the command is logged. -/
def KeyOp.modifies : KeyOp σ → Bool
  | .set .. | .incrBy _ | .append _ | .push .. | .pop .. | .hset _ | .hdel _ | .sadd _ | .srem _
  | .zadd _ | .zrem _ => true
  | _ => false

/-- Whether such a command is logged. -/
def KeyOp.dirty : (op : KeyOp σ) → op.Res → Bool
  | .set .., did => did
  | .incrBy _, res => res.isOk
  | .append _, res => res.isOk
  | .push .., res => res.isOk
  | .hset _, res => res.isOk
  | .zadd _, res => res.isOk
  | .pop .., res => match res with | .ok items => !items.isEmpty | .error _ => false
  | .hdel _, res => match res with | .ok n => 0 < n | .error _ => false
  | .sadd _, res => match res with | .ok n => 0 < n | .error _ => false
  | .srem _, res => match res with | .ok n => 0 < n | .error _ => false
  | .zrem _, res => match res with | .ok n => 0 < n | .error _ => false
  | _, _ => false

theorem det_of_modifies {op : KeyOp σ} (k : Bytes) (h : op.modifies = true) :
    (Call.key k op).Det := by
  cases op <;> trivial

end

section
variable {σ : Type} [Score σ]

/-! ## Reads -/

theorem read_spec {op : KeyOp σ} (h : op.isRead = true) (t : Nat) (r : Option (Rec σ)) :
    (op.spec t r).2 = r := by
  cases op <;> first | rfl | cases h

/-- A read leaves every key as it is, up to dropping what has expired. -/
theorem read_at {c : Call σ} (h : c.isRead = true) {t u : Nat} (hu : t ≤ u) (v : View σ) :
    (c.spec t v).2.at u = v.at u := by
  cases c with
  | key k op =>
    have hs : (op.spec t (liveAt t (v k))).2 = liveAt t (v k) := read_spec h t _
    simp only [Call.spec, hs, View.put_live_at hu]
  | flushAll => cases h
  | purgeExpired => cases h
  | _ => rfl

end

/-! ## Updates that change nothing -/

section
variable {σ : Type}

theorem countFold_zero {A C : Type} {f : C → A → Bool × C}
    (hf : ∀ c a, (f c a).1 = false → (f c a).2 = c) (as : List A) :
    ∀ c, (countFold f as c).1 = 0 → (countFold f as c).2 = c := by
  induction as with
  | nil => intro c _; rfl
  | cons a as ih =>
    intro c h
    simp only [countFold] at h ⊢
    have h1 : (f c a).1 = false := by
      cases hc : (f c a).1 with
      | false => rfl
      | true => rw [hc] at h; simp at h
    rw [hf c a h1] at h ⊢
    exact ih c (by omega)

theorem erase_absent {V : Type} {h : Finmap fun _ : Bytes => V} {k : Bytes}
    (hk : (h.lookup k).isSome = false) : h.erase k = h := by
  refine Finmap.ext_lookup fun k' => ?_
  by_cases e : k' = k
  · subst e
    rw [Finmap.lookup_erase]
    exact (by simpa using hk : h.lookup k' = none).symm
  · rw [Finmap.lookup_erase_ne e]

theorem popLoop_nil {left : Bool} {n : Nat} {l : List Bytes} (h : (popLoop left n l).1 = []) :
    (popLoop left n l).2 = l := by
  cases n with
  | zero => rfl
  | succ n =>
    simp only [popLoop] at h ⊢
    split at h
    · rfl
    · cases h

/-- A collection type whose emptiness test and constructors fit together. -/
structure Tidy {C : Type} (col : Coll (Val σ) C) : Prop where
  wrap_unwrap : ∀ x c, col.unwrap x = some c → col.wrap c = x
  unwrap_wrap : ∀ c, col.unwrap (col.wrap c) = some c
  empty : ∀ c, col.isEmpty c = true → ¬ (col.wrap c).NonEmpty
  make : col.isEmpty col.make = true

theorem tidy_list : Tidy (σ := σ) VColl.list where
  wrap_unwrap x c h := by cases x <;> cases h; rfl
  unwrap_wrap _ := rfl
  empty c h hn := hn (List.isEmpty_iff.1 h)
  make := rfl

theorem tidy_hash : Tidy (σ := σ) VColl.hash where
  wrap_unwrap x c h := by cases x <;> cases h; rfl
  unwrap_wrap _ := rfl
  empty _ h hn := hn (keys_card_eq h)
  make := rfl

theorem tidy_set : Tidy (σ := σ) VColl.set where
  wrap_unwrap x c h := by cases x <;> cases h; rfl
  unwrap_wrap _ := rfl
  empty c h hn := hn (Finset.card_eq_zero.1 (by simpa [VColl.set] using h))
  make := rfl

theorem tidy_zset : Tidy (σ := σ) VColl.zset where
  wrap_unwrap x c h := by cases x <;> cases h; rfl
  unwrap_wrap _ := rfl
  empty _ h hn := hn (keys_card_eq h)
  make := rfl

/-- An update that changes nothing leaves the record, if its collection is not empty. -/
theorem specColl_same {C R : Type} {col : Coll (Val σ) C} (hcol : Tidy col) (body : C → R × C)
    {r : Option (Rec σ)} (hr : RecFull r)
    (h : ∀ c, (specColl col body r).1 = .ok (body c).1 → (body c).2 = c) :
    (specColl col body r).2 = r := by
  cases r with
  | none => simp only [specColl, h col.make rfl, hcol.make, if_true]
  | some x =>
    cases hu : col.unwrap x.val with
    | none => simp only [specColl, hu]
    | some c =>
      have hc : (body c).2 = c := h c (by simp only [specColl, hu])
      have hw := hcol.wrap_unwrap _ _ hu
      have he : col.isEmpty c = false := by
        by_contra hne
        exact hcol.empty c (by simpa using hne) (hw ▸ hr x rfl)
      simp only [specColl, hu, hc, he, hw]
      rfl

end

section
variable {σ : Type} [Score σ]

/-- An update that is not worth logging leaves the record as it was. -/
theorem clean_spec {op : KeyOp σ} (hm : op.modifies = true) (t : Nat) {r : Option (Rec σ)}
    (hr : RecFull r) (h : op.dirty (op.spec t r).1 = false) : (op.spec t r).2 = r := by
  cases op with
  | set value opts =>
    simp only [KeyOp.spec] at h ⊢
    split at h
    · cases h
    · rename_i hn; rw [if_neg hn]
  | incrBy delta =>
    simp only [KeyOp.spec, specIncr] at h ⊢
    cases hs : recStr r with
    | error e => rfl
    | ok v =>
      simp only [hs] at h ⊢
      cases hi : v.elim (.ok 0) Shard.strInt with
      | error e => rfl
      | ok cur =>
        simp only [hi] at h ⊢
        by_cases hb : InI64 (cur + delta)
        · rw [if_pos hb] at h; cases h
        · rw [if_neg hb]
  | append suffix =>
    simp only [KeyOp.spec, specAppend] at h ⊢
    cases hs : recStr r with
    | error e => rfl
    | ok v => rw [hs] at h; cases h
  | push vals left =>
    exact specColl_same tidy_list _ hr fun c hc => by rw [KeyOp.spec, hc] at h; cases h
  | hset pairs =>
    exact specColl_same tidy_hash _ hr fun c hc => by rw [KeyOp.spec, hc] at h; cases h
  | zadd pairs =>
    exact specColl_same tidy_zset _ hr fun c hc => by rw [KeyOp.spec, hc] at h; cases h
  | pop count left =>
    refine specColl_same tidy_list _ hr fun c hc => popLoop_nil ?_
    rw [KeyOp.spec, hc] at h
    simpa [KeyOp.dirty] using h
  | hdel fields =>
    refine specColl_same tidy_hash _ hr fun c hc =>
      countFold_zero (fun h f hf => erase_absent hf) fields c ?_
    rw [KeyOp.spec, hc] at h
    simpa [KeyOp.dirty] using h
  | sadd members =>
    refine specColl_same tidy_set _ hr fun c hc => countFold_zero (fun s m hm => ?_) members c ?_
    · exact Finset.insert_eq_of_mem (by simpa [setInsert] using hm)
    · rw [KeyOp.spec, hc] at h
      simpa [KeyOp.dirty] using h
  | srem members =>
    refine specColl_same tidy_set _ hr fun c hc => countFold_zero (fun s m hm => ?_) members c ?_
    · exact Finset.erase_eq_of_notMem (by simpa [setRemove] using hm)
    · rw [KeyOp.spec, hc] at h
      simpa [KeyOp.dirty] using h
  | zrem members =>
    refine specColl_same tidy_zset _ hr fun c hc =>
      countFold_zero (fun h f hf => erase_absent hf) members c ?_
    rw [KeyOp.spec, hc] at h
    simpa [KeyOp.dirty] using h
  | _ => cases hm

/-- Whether the answer of an operation says that it changed the key. -/
def KeyOp.changed {σ : Type} : (op : KeyOp σ) → op.Res → Bool
  | .del, did => did
  | .expireAt _, did => did
  | op, res => op.dirty res

/-- Whether the answer of a call says that it changed the keyspace. -/
def Call.changed {σ : Type} : (c : Call σ) → c.Res → Bool
  | .key _ op, res => op.changed res
  | .flushAll, _ => true
  | _, _ => false

omit [Score σ] in
theorem changed_of_modifies {op : KeyOp σ} (h : op.modifies = true) (res : op.Res) :
    op.changed res = op.dirty res := by
  cases op <;> first | rfl | cases h

omit [Score σ] in
/-- A read never says so. -/
theorem changed_of_read {c : Call σ} (h : c.isRead = true) (res : c.Res) :
    c.changed res = false := by
  cases c with
  | key k op => cases op <;> first | rfl | cases h
  | flushAll => cases h
  | _ => rfl

/-- An operation that does not say that it changed the key leaves the record as it was. -/
theorem unchanged_spec {op : KeyOp σ} (t : Nat) {r : Option (Rec σ)} (hr : RecFull r)
    (h : op.changed (op.spec t r).1 = false) : (op.spec t r).2 = r := by
  by_cases hread : op.isRead = true
  · exact read_spec hread t r
  by_cases hm : op.modifies = true
  · exact clean_spec hm t hr ((changed_of_modifies hm _).symm.trans h)
  -- what is left are the two operations that act on the key as a whole
  cases op with
  | del => exact (Option.not_isSome_iff_eq_none.1 (Bool.not_eq_true _ ▸ h)).symm
  | expireAt d =>
    have : r = none := Option.not_isSome_iff_eq_none.1 (Bool.not_eq_true _ ▸ h)
    rw [this]; rfl
  | _ => first | exact absurd rfl hread | exact absurd rfl hm

/-- A call that does not say that it changed the keyspace leaves it as it was, up to
dropping what has expired. -/
theorem unchanged_at {c : Call σ} {t u : Nat} (hu : t ≤ u) {v : View σ} (hv : ∀ k, RecFull (v k))
    (h : c.changed (c.spec t v).1 = false) : (c.spec t v).2.at u = v.at u := by
  cases c with
  | key k op =>
    have hs : (op.spec t (liveAt t (v k))).2 = liveAt t (v k) :=
      unchanged_spec t (liveAt_full (hv k)) h
    simp only [Call.spec, hs, View.put_live_at hu]
  | flushAll => cases h
  | _ => rfl

/-- Calls keep collections non-empty. -/
theorem Call.spec_full (c : Call σ) (t : Nat) {v : View σ} (hv : ∀ k, RecFull (v k)) (k' : Bytes) :
    RecFull ((c.spec t v).2 k') := by
  cases c with
  | key k op =>
    by_cases hk : k' = k
    · subst hk
      simp only [Call.spec, View.put_self]
      exact Inmem.L3.spec_full t op (liveAt_full (hv k'))
    · simp only [Call.spec, View.put_other _ _ hk]
      exact hv k'
  | flushAll => intro x hx; cases hx
  | _ => exact hv k'

/-! ## Time -/

/-- The operations that only take away from what is there. -/
def KeyOp.removes : KeyOp σ → Bool
  | .pop .. | .hdel _ | .srem _ | .zrem _ => true
  | _ => false

omit [Score σ] in
theorem specColl_deadline {C R : Type} {col : Coll (Val σ) C} {body : C → R × C} {x y : Rec σ}
    (h : (specColl col body (some x)).2 = some y) : y.deadline = x.deadline := by
  simp only [specColl] at h
  split at h
  · cases h; rfl
  · dsimp only at h
    split at h
    · cases h
    · cases h; rfl

omit [Score σ]

/-- The type of value an operation is for, if it is for one type only. -/
def KeyOp.valueType : KeyOp σ → Option TypeName
  | .get | .readStr | .incrBy _ | .append _ | .strlen => some .string
  | .push .. | .pop .. | .llen | .lrange .. => some .list
  | .hset _ | .hget _ | .hdel _ | .hlen | .hgetall => some .hash
  | .sadd _ | .srem _ | .sismember _ | .scard | .smembers => some .set
  | .zadd _ | .zrem _ | .zscore _ | .zcard | .zrange .. => some .zset
  | .set .. | .del | .exists | .typeOf | .expireAt _ | .pttl => none

/-- A `WRONGTYPE` error. -/
def isWrongType {R : Type} : Except StoreErr R → Bool
  | .error .wrongType => true
  | _ => false

/-- The operation answers that the key has another type. -/
def KeyOp.mistyped : (op : KeyOp σ) → op.Res → Bool
  | .get, res => isWrongType res
  | .readStr, res => match res with | .wrongType => true | _ => false
  | .incrBy _, res => isWrongType res
  | .append _, res => isWrongType res
  | .strlen, res => isWrongType res
  | .push .., res => isWrongType res
  | .pop .., res => isWrongType res
  | .llen, res => isWrongType res
  | .lrange .., res => isWrongType res
  | .hset _, res => isWrongType res
  | .hget _, res => isWrongType res
  | .hdel _, res => isWrongType res
  | .hlen, res => isWrongType res
  | .hgetall, res => isWrongType res
  | .sadd _, res => isWrongType res
  | .srem _, res => isWrongType res
  | .sismember _, res => isWrongType res
  | .scard, res => isWrongType res
  | .smembers, res => isWrongType res
  | .zadd _, res => isWrongType res
  | .zrem _, res => isWrongType res
  | .zscore _, res => isWrongType res
  | .zcard, res => isWrongType res
  | .zrange .., res => isWrongType res
  | .set .., _ => false
  | .del, _ => false
  | .exists, _ => false
  | .typeOf, _ => false
  | .expireAt _, _ => false
  | .pttl, _ => false

theorem isWrongType_sameList {A : Type} {a b : Except StoreErr (List A)} (h : SameList a b) :
    isWrongType a = isWrongType b := by
  cases a <;> cases b <;> first | rfl | exact h.elim | (cases h; rfl)

theorem mistyped_same {op : KeyOp σ} {a b : op.Res} (h : op.Same a b) :
    op.mistyped a = op.mistyped b := by
  cases op with
  | hgetall => exact isWrongType_sameList h
  | smembers => exact isWrongType_sameList h
  | _ => cases h; rfl

/-- The record has a type other than `t`. -/
def OtherType (t : TypeName) (r : Option (Rec σ)) : Prop := ∃ x, r = some x ∧ x.val.typeName ≠ t

theorem otherType_some {t : TypeName} {x : Rec σ} : OtherType t (some x) ↔ x.val.typeName ≠ t :=
  ⟨fun ⟨_, e, h⟩ => Option.some.inj e ▸ h, fun h => ⟨x, rfl, h⟩⟩

theorem otherType_none {t : TypeName} : ¬ OtherType t (none : Option (Rec σ)) :=
  fun ⟨_, e, _⟩ => by cases e

theorem recStr_error {r : Option (Rec σ)} {e : StoreErr} (h : recStr r = .error e) :
    e = .wrongType := by
  match r with
  | none => cases h
  | some ⟨v, d⟩ => cases v <;> cases h <;> rfl

theorem strInt_error {v : Option Bytes} {e : StoreErr}
    (h : v.elim (.ok 0) Shard.strInt = .error e) : e = .notInteger := by
  cases v with
  | none => cases h
  | some b =>
    simp only [Option.elim_some, Shard.strInt] at h
    split at h <;> cases h
    rfl

/-- An operation that reads a string fails on another type and, if it fails otherwise,
with another error. -/
theorem recStr_mistyped {R : Type} {res : Except StoreErr R} (r : Option (Rec σ))
    (hok : ∀ v, recStr r = .ok v → isWrongType res = false)
    (herr : recStr r = .error .wrongType → isWrongType res = true) :
    isWrongType res = true ↔ OtherType .string r := by
  match r with
  | none => exact iff_of_false (by simp [hok none rfl]) otherType_none
  | some ⟨v, d⟩ =>
    rw [otherType_some]
    cases v with
    | str b => exact iff_of_false (by simp [hok (some b) rfl]) fun h => h rfl
    | _ => exact iff_of_true (herr rfl) (by simp [Val.typeName])

variable {C R : Type} {col : Coll (Val σ) C} {t : TypeName}
    (hcol : ∀ v, col.unwrap v = none ↔ v.typeName ≠ t)
include hcol

theorem specColl_mistyped (body : C → R × C) (r : Option (Rec σ)) :
    isWrongType (specColl col body r).1 = true ↔ OtherType t r := by
  cases r with
  | none => exact iff_of_false Bool.false_ne_true otherType_none
  | some x =>
    rw [otherType_some, ← hcol, specColl]
    cases col.unwrap x.val <;> simp [isWrongType]

theorem specRead_mistyped (absent : R) (f : C → R) (r : Option (Rec σ)) :
    isWrongType (specRead col absent f r).1 = true ↔ OtherType t r := by
  cases r with
  | none => exact iff_of_false Bool.false_ne_true otherType_none
  | some x =>
    rw [otherType_some, ← hcol]
    simp only [specRead, readAs, Option.map_some]
    cases col.unwrap x.val <;> simp [isWrongType]

end

section
variable {σ : Type} [Score σ]

/-- An operation on values of one type answers `WRONGTYPE` exactly when the record has
another type. -/
theorem mistyped_spec {op : KeyOp σ} {t : TypeName} (h : op.valueType = some t) (now : Nat)
    (r : Option (Rec σ)) : op.mistyped (op.spec now r).1 = true ↔ OtherType t r := by
  have hlist : ∀ v : Val σ, VColl.list.unwrap v = none ↔ v.typeName ≠ .list := by
    intro v; cases v <;> simp [VColl.list, Val.typeName]
  have hhash : ∀ v : Val σ, VColl.hash.unwrap v = none ↔ v.typeName ≠ .hash := by
    intro v; cases v <;> simp [VColl.hash, Val.typeName]
  have hset : ∀ v : Val σ, VColl.set.unwrap v = none ↔ v.typeName ≠ .set := by
    intro v; cases v <;> simp [VColl.set, Val.typeName]
  have hzset : ∀ v : Val σ, VColl.zset.unwrap v = none ↔ v.typeName ≠ .zset := by
    intro v; cases v <;> simp [VColl.zset, Val.typeName]
  cases op with
  | get =>
    cases h
    exact recStr_mistyped r (fun v hv => by simp [KeyOp.spec, hv, isWrongType])
      fun he => by simp [KeyOp.spec, he, isWrongType]
  | readStr =>
    cases h
    have hread : KeyOp.readStr.mistyped (KeyOp.readStr.spec now r).1 = isWrongType (recStr r) := by
      rcases hr : recStr r with e | _ | v
      · obtain rfl := recStr_error hr
        simp [KeyOp.mistyped, KeyOp.spec, hr, isWrongType]
      · simp [KeyOp.mistyped, KeyOp.spec, hr, isWrongType]
      · simp [KeyOp.mistyped, KeyOp.spec, hr, isWrongType]
    rw [hread]
    exact recStr_mistyped r (fun v hv => by rw [hv]; rfl) fun he => by rw [he]; rfl
  | incrBy delta =>
    cases h
    refine recStr_mistyped r (fun v hv => ?_) fun he => by
      simp [KeyOp.spec, specIncr, he, isWrongType]
    simp only [KeyOp.spec, specIncr, hv]
    cases hn : v.elim (.ok 0) Shard.strInt with
    | error e => obtain rfl := strInt_error hn; rfl
    | ok cur => dsimp only; split <;> rfl
  | append suffix =>
    cases h
    exact recStr_mistyped r (fun v hv => by simp [KeyOp.spec, specAppend, hv, isWrongType])
      fun he => by simp [KeyOp.spec, specAppend, he, isWrongType]
  | strlen =>
    cases h
    exact recStr_mistyped r (fun v hv => by simp [KeyOp.spec, hv, Except.map, isWrongType])
      fun he => by simp [KeyOp.spec, he, Except.map, isWrongType]
  | push | pop => cases h; exact specColl_mistyped hlist _ r
  | llen | lrange => cases h; exact specRead_mistyped hlist _ _ r
  | hset | hdel => cases h; exact specColl_mistyped hhash _ r
  | hget | hlen | hgetall => cases h; exact specRead_mistyped hhash _ _ r
  | sadd | srem => cases h; exact specColl_mistyped hset _ r
  | sismember | scard | smembers => cases h; exact specRead_mistyped hset _ _ r
  | zadd | zrem => cases h; exact specColl_mistyped hzset _ r
  | zscore | zcard | zrange => cases h; exact specRead_mistyped hzset _ _ r
  | _ => cases h

end

end Inmem.L3
