import Inmem.L3Store.Dump
import Inmem.L3Store.KeyOps

/-!
# Recreating a record

A snapshot recreates a value with an ordinary command, which adds to whatever the
key holds already; a deadline follows in a second command. Scores travel as texts, and
`PEXPIREAT` refuses what is not an `i64`.

* `Val.sent`, `Rec.sent`: what arrives of a value and of a record.
* `Val.over`: the record after the first command. `restoreOp_spec`: the operation
  that the command runs does this, in whatever order the hash types are listed.
* `Rec.restore`: the record after both commands. `restore_fresh`: on a key that is
  not live, the record itself. `restore_iff`: on one that is, exactly when the new value
  `absorbs` the old one.
* `arrives_iff`: hence when a record that is sent is the record that is there afterwards.
-/
namespace Inmem.L3

open Inmem.L1 Inmem.Core.Decimal

/-! ## Inserting a listing -/

section
variable {β A : Type}

/-- Inserting entry after entry, the one listed under a key wins. -/
theorem lookup_insertAll (key : A → Bytes) (val : A → β) (as : List A) :
    ∀ (h : Finmap fun _ : Bytes => β), (as.map key).Nodup → ∀ f,
      (countFold
        (fun (h : Finmap fun _ : Bytes => β) a => ((h.lookup (key a)).isNone,
          h.insert (key a) (val a))) as h).2.lookup f =
        ((as.find? fun a => key a = f).map val).or (h.lookup f) := by
  induction as with
  | nil => intro h _ f; rfl
  | cons a as ih =>
    intro h hn f
    rw [List.map_cons, List.nodup_cons] at hn
    simp only [countFold]
    rw [ih _ hn.2, List.find?_cons]
    by_cases hf : key a = f
    · have hnone : (as.find? fun b => key b = f) = none :=
        List.find?_eq_none.2 fun b hb he =>
          hn.1 (List.mem_map.2 ⟨b, hb, (of_decide_eq_true he).trans hf.symm⟩)
      rw [hnone, hf]
      simp
    · rw [Finmap.lookup_insert_of_ne _ (Ne.symm hf)]
      simp [hf]

/-- The entries of a map, inserted in any order into another. -/
theorem insertAll_union (key : A → Bytes) (val : A → β) {as : List A}
    {h : Finmap fun _ : Bytes => β} (hn : (as.map key).Nodup)
    (hl : ∀ f v, (∃ a ∈ as, key a = f ∧ val a = v) ↔ h.lookup f = some v)
    (h₀ : Finmap fun _ : Bytes => β) :
    (countFold
      (fun (h : Finmap fun _ : Bytes => β) a => ((h.lookup (key a)).isNone,
        h.insert (key a) (val a))) as h₀).2 =
      h ∪ h₀ := by
  refine Finmap.ext_lookup fun f => ?_
  rw [lookup_insertAll key val as h₀ hn f]
  cases hf : as.find? fun a => key a = f with
  | some a =>
    have ha : h.lookup f = some (val a) :=
      (hl f (val a)).1 ⟨a, List.mem_of_find?_eq_some hf, by simpa using List.find?_some hf, rfl⟩
    rw [Finmap.lookup_union_left (Finmap.lookup_isSome.1 (by rw [ha]; rfl)), ha]
    rfl
  | none =>
    have hnone : f ∉ h := by
      intro hm
      obtain ⟨v, hv⟩ := Option.isSome_iff_exists.1 (Finmap.lookup_isSome.2 hm)
      obtain ⟨a, ha, he, -⟩ := (hl f v).2 hv
      exact List.find?_eq_none.1 hf a ha (decide_eq_true he)
    rw [Finmap.lookup_union_right hnone]
    rfl

theorem insertAll_set (as : List Bytes) :
    ∀ s : Finset Bytes, (countFold setInsert as s).2 = s ∪ as.toFinset := by
  induction as with
  | nil => intro s; simp [countFold]
  | cons a as ih =>
    intro s
    simp only [countFold, setInsert]
    rw [ih]
    ext m
    simp only [Finset.mem_union, Finset.mem_insert, List.toFinset_cons]
    tauto

theorem pushAll_right (vals : List Bytes) :
    ∀ l : List Bytes, (pushAll vals false l).2 = l ++ vals := by
  induction vals with
  | nil => intro l; simp [pushAll]
  | cons v vals ih =>
    intro l
    have := ih (l ++ [v])
    simpa [pushAll] using this

theorem union_eq_left {h h₀ : Finmap fun _ : Bytes => β} : h ∪ h₀ = h ↔ h₀.keys ⊆ h.keys := by
  constructor
  · intro he f hf
    rw [Finmap.mem_keys] at hf ⊢
    rw [← he]
    exact Finmap.mem_union.2 (.inr hf)
  · intro hs
    refine Finmap.ext_lookup fun f => ?_
    by_cases hf : f ∈ h
    · exact Finmap.lookup_union_left hf
    · have hf₀ : f ∉ h₀ := fun hm => hf (Finmap.mem_keys.1 (hs (Finmap.mem_keys.2 hm)))
      rw [Finmap.lookup_union_right hf, Finmap.lookup_eq_none.2 hf, Finmap.lookup_eq_none.2 hf₀]

theorem union_ne_empty {h h₀ : Finmap fun _ : Bytes => β} (hne : h ≠ ∅) : h ∪ h₀ ≠ ∅ := by
  intro he
  refine hne (Finmap.ext_lookup fun f => ?_)
  by_cases hf : f ∈ h
  · have hl : (h ∪ h₀).lookup f = h.lookup f := Finmap.lookup_union_left hf
    rw [← hl, he]
  · rw [Finmap.lookup_eq_none.2 hf, Finmap.lookup_empty]

end

/-! ## One value over another -/

section
variable {σ : Type} [Score σ]

/-- A member of a sorted set with its score as it is read back. -/
def Ranked.sent (p : Ranked σ) : σ × Bytes := (readBack (ofLex p).1, (ofLex p).2)

/-- The scores of a sorted set as they are read back. -/
def sentScores (z : Finmap fun _ : Bytes => σ) : Finmap fun _ : Bytes => σ :=
  ((rankList z).map fun p => (⟨p.sent.2, p.sent.1⟩ : Σ _ : Bytes, σ)).toFinmap

/-- The value that the command which recreates it carries. -/
def Val.sent : Val σ → Val σ
  | .zset z => .zset (sentScores z)
  | v => v

/-- The operation behind the command that recreates a value. -/
def Val.restoreOp (env : Env) (key : Bytes) : Val σ → KeyOp σ
  | .str v => .set v {}
  | .list l => .push l false
  | .hash h => .hset (env.hashOrder key h)
  | .set s => .sadd (env.setOrder key s)
  | .zset z => .zadd ((rankList z).map Ranked.sent)

/-- The value that a command adding `new` to `old` leaves, `none` if it is refused. -/
def Val.merge : Val σ → Val σ → Option (Val σ)
  | .list l₀, .list l => some (.list (l₀ ++ l))
  | .hash h₀, .hash h => some (.hash (h ∪ h₀))
  | .set s₀, .set s => some (.set (s₀ ∪ s))
  | .zset z₀, .zset z => some (.zset (z ∪ z₀))
  | _, _ => none

/-- The record that recreating a value leaves: a string replaces whatever is there, with
its deadline; a collection is added to one of the same type, and refused otherwise. -/
def Val.over (v : Val σ) : Option (Rec σ) → Rec σ
  | none => ⟨v, none⟩
  | some x =>
    match v with
    | .str b => ⟨.str b, none⟩
    | v => (x.val.merge v).elim x fun m => ⟨m, x.deadline⟩

theorem mem_rankList {z : Finmap fun _ : Bytes => σ} {s : σ} {m : Bytes} :
    toLex (s, m) ∈ rankList z ↔ z.lookup m = some s := by
  rw [Finmap.lookup_eq_some_iff]
  simp only [rankList, Multiset.mem_sort, Multiset.mem_map]
  constructor
  · rintro ⟨⟨a, b⟩, h, e⟩
    simp only [EmbeddingLike.apply_eq_iff_eq, Prod.mk.injEq] at e
    obtain ⟨rfl, rfl⟩ := e; exact h
  · intro h; exact ⟨⟨m, s⟩, h, rfl⟩

omit [Score σ] in
/-- A finite map that is listed by the empty list is empty. -/
theorem eq_empty_of_listed {V A : Type} {h : Finmap fun _ : Bytes => V} {l : List A}
    (hl : ∀ k v, h.lookup k = some v → ∃ a, a ∈ l) (he : l = []) : h = ∅ := by
  refine Finmap.ext_lookup fun k => ?_
  cases hk : h.lookup k with
  | none => rw [Finmap.lookup_empty]
  | some v =>
    obtain ⟨a, ha⟩ := hl k v hk
    rw [he] at ha
    cases ha

theorem rankList_ne_nil {z : Finmap fun _ : Bytes => σ} (hz : z ≠ ∅) : rankList z ≠ [] :=
  fun he => hz (eq_empty_of_listed (fun _ _ hk => ⟨_, mem_rankList.2 hk⟩) he)

theorem rankList_sent_nodup (z : Finmap fun _ : Bytes => σ) :
    (((rankList z).map Ranked.sent).map Prod.snd).Nodup := by
  rw [← Multiset.coe_nodup, rankList, List.map_map, ← Multiset.map_coe, Multiset.sort_eq,
    Multiset.map_map]
  exact Multiset.nodup_keys.2 z.nodupKeys

theorem lookup_sentScores (z : Finmap fun _ : Bytes => σ) (m : Bytes) :
    (sentScores z).lookup m = (z.lookup m).map readBack := by
  have hkeys : ((rankList z).map fun p => (⟨p.sent.2, p.sent.1⟩ : Σ _ : Bytes, σ)).NodupKeys := by
    have h := rankList_sent_nodup z
    rw [List.map_map] at h
    rw [List.NodupKeys, List.keys, List.map_map]
    exact h
  rw [sentScores, Finmap.dlookup_list_toFinmap]
  ext s
  rw [← Option.mem_def, List.mem_dlookup_iff hkeys, List.mem_map, Option.map_eq_some_iff]
  constructor
  · rintro ⟨p, hp, e⟩
    cases e
    exact ⟨(ofLex p).1, mem_rankList.1 hp, rfl⟩
  · rintro ⟨s', hs', rfl⟩
    exact ⟨toLex (s', m), mem_rankList.2 hs', rfl⟩

/-- The members stay. -/
theorem mem_sentScores {z : Finmap fun _ : Bytes => σ} {m : Bytes} : m ∈ sentScores z ↔ m ∈ z := by
  rw [← Finmap.lookup_isSome, ← Finmap.lookup_isSome, lookup_sentScores, Option.isSome_map]

theorem sentScores_ne_empty {z : Finmap fun _ : Bytes => σ} (hz : z ≠ ∅) : sentScores z ≠ ∅ := by
  intro he
  refine hz (Finmap.ext_lookup fun m => ?_)
  have hm : m ∉ z := fun hm => Finmap.notMem_empty (he ▸ mem_sentScores.2 hm)
  rw [Finmap.lookup_eq_none.2 hm, Finmap.lookup_empty]

omit [Score σ] in
theorem over_coll {v : Val σ} (h : ∀ b, v ≠ .str b) (x : Rec σ) :
    v.over (some x) = (x.val.merge v).elim x fun m => ⟨m, x.deadline⟩ := by
  cases v <;> first | rfl | exact absurd rfl (h _)

omit [Score σ] in
/-- The operation that adds to a collection, given what it does to the contents. -/
theorem specColl_over {C R : Type} {col : Coll (Val σ) C} (hcol : Tidy col) {body : C → R × C}
    {v : Val σ} (hnew : col.wrap (body col.make).2 = v)
    (hfull : ∀ c, (col.wrap (body c).2).NonEmpty)
    (hsame : ∀ c, (col.wrap c).merge v = some (col.wrap (body c).2))
    (hother : ∀ x, col.unwrap x = none → x.merge v = none) (hstr : ∀ b, v ≠ .str b)
    (r : Option (Rec σ)) : (specColl col body r).2 = some (v.over r) := by
  have hkept : ∀ c, col.isEmpty (body c).2 = false := fun c =>
    Bool.eq_false_iff.2 fun he => hcol.empty _ he (hfull c)
  cases r with
  | none => simp only [specColl, hkept, Bool.false_eq_true, if_false, hnew, Val.over]
  | some x =>
    rw [over_coll hstr]
    cases hu : col.unwrap x.val with
    | none => simp only [specColl, hu, hother _ hu, Option.elim_none]
    | some c =>
      have hm := hsame c
      rw [hcol.wrap_unwrap _ c hu] at hm
      simp only [specColl, hu, hkept, Bool.false_eq_true, if_false, hm, Option.elim_some]

/-- The operation that recreates a value puts what is sent of it over what the key holds,
whatever the order in which the hash types are listed. -/
theorem restoreOp_spec (env : Env) (key : Bytes) {v : Val σ} (hv : v.NonEmpty) (t : Nat)
    (r : Option (Rec σ)) : ((v.restoreOp env key).spec t r).2 = some (v.sent.over r) := by
  cases v with
  | str b => cases r <;> rfl
  | list l =>
    refine specColl_over tidy_list ?_ (fun c => ?_) (fun c => ?_) (fun x hx => ?_)
      (fun b hb => by cases hb) r
    · exact congrArg Val.list (pushAll_right l [])
    · exact fun he => hv (List.append_eq_nil_iff.1 ((pushAll_right l c).symm.trans he)).2
    · exact congrArg (fun l => some (Val.list l)) (pushAll_right l c).symm
    · cases x <;> first | rfl | cases hx
  | hash h =>
    have hall : ∀ c, (countFold hashInsert (env.hashOrder key h) c).2 = h ∪ c :=
      insertAll_union Prod.fst Prod.snd (env.hash_listed key h).1 fun f v =>
        ⟨fun ⟨p, hp, e1, e2⟩ => ((env.hash_listed key h).2 f v).1 (e1 ▸ e2 ▸ hp),
          fun hl => ⟨(f, v), ((env.hash_listed key h).2 f v).2 hl, rfl, rfl⟩⟩
    refine specColl_over tidy_hash ?_ (fun c => ?_) (fun c => ?_) (fun x hx => ?_)
      (fun b hb => by cases hb) r
    · exact congrArg Val.hash ((hall ∅).trans (Finmap.union_empty))
    · exact (hall c).symm ▸ union_ne_empty hv
    · exact congrArg (fun h => some (Val.hash h)) (hall c).symm
    · cases x <;> first | rfl | cases hx
  | set s =>
    have hall : ∀ c, (countFold setInsert (env.setOrder key s) c).2 = c ∪ s := fun c => by
      rw [insertAll_set]
      congr 1
      ext m
      rw [List.mem_toFinset, (env.set_listed key s).2]
    refine specColl_over tidy_set ?_ (fun c => ?_) (fun c => ?_) (fun x hx => ?_)
      (fun b hb => by cases hb) r
    · exact congrArg Val.set ((hall ∅).trans (Finset.empty_union s))
    · exact (hall c).symm ▸ fun he => hv (Finset.union_eq_empty.1 he).2
    · exact congrArg (fun s => some (Val.set s)) (hall c).symm
    · cases x <;> first | rfl | cases hx
  | zset z =>
    have hall : ∀ c,
        (countFold (fun (z : Finmap fun _ : Bytes => σ) p =>
          ((z.lookup p.2).isNone, z.insert p.2 p.1))
        ((rankList z).map Ranked.sent) c).2 = sentScores z ∪ c :=
      insertAll_union Prod.snd Prod.fst (rankList_sent_nodup z) fun m s => by
        rw [lookup_sentScores, Option.map_eq_some_iff]
        constructor
        · rintro ⟨p, hp, rfl, rfl⟩
          obtain ⟨q, hq, rfl⟩ := List.mem_map.1 hp
          exact ⟨(ofLex q).1, mem_rankList.1 hq, rfl⟩
        · rintro ⟨s', hs', rfl⟩
          exact ⟨_, List.mem_map.2 ⟨toLex (s', m), mem_rankList.2 hs', rfl⟩, rfl, rfl⟩
    have hne := sentScores_ne_empty hv
    refine specColl_over tidy_zset ?_ (fun c => ?_) (fun c => ?_) (fun x hx => ?_)
      (fun b hb => by cases hb) r
    · exact congrArg Val.zset ((hall ∅).trans (Finmap.union_empty))
    · exact (hall c).symm ▸ union_ne_empty hne
    · exact congrArg (fun h => some (Val.zset h)) (hall c).symm
    · cases x <;> first | rfl | cases hx

theorem restoreOp_modifies (env : Env) (key : Bytes) (v : Val σ) :
    (v.restoreOp env key).modifies = true := by
  cases v <;> rfl

/-- On an empty key the command counts as a write. -/
theorem restoreOp_dirty (env : Env) (key : Bytes) {v : Val σ} (hv : v.NonEmpty) (t : Nat) :
    (v.restoreOp env key).dirty ((v.restoreOp env key).spec t none).1 = true := by
  by_contra h
  have := clean_spec (restoreOp_modifies env key v) t (r := none) (fun _ hx => by cases hx)
    (Bool.eq_false_iff.2 h)
  rw [restoreOp_spec env key hv] at this
  cases this

end

/-! ## A record and its deadline -/

section
variable {σ : Type} {T t₁ t₂ t₃ : Nat} {r x' : Rec σ} {x : Option (Rec σ)}

/-- The record after the command that recreates the value, at `t₁`, and the one that
sets the deadline, which looks at `t₂` whether the key is there and sets it at `t₃`. -/
def Rec.restore (r : Rec σ) (t₁ t₂ t₃ : Nat) (x : Option (Rec σ)) : Option (Rec σ) :=
  match r.deadline with
  | none => some (r.val.over (liveAt t₁ x))
  | some d =>
    (liveAt t₃ (liveAt t₂ (some (r.val.over (liveAt t₁ x))))).map fun z =>
      { z with deadline := some d }

/-- On a key that is not live the record comes back as it was. -/
theorem restore_fresh (hx : liveAt t₁ x = none) : r.restore t₁ t₂ t₃ x = some r := by
  obtain ⟨v, d⟩ := r
  simp only [Rec.restore, hx, Val.over]
  cases d <;> rfl

/-- What has run out by `T` stays away, whatever the key held. -/
theorem restore_dead (hr : expired T r.deadline = true) :
    liveAt T (r.restore t₁ t₂ t₃ x) = none := by
  obtain ⟨v, d⟩ := r
  cases d with
  | none => cases hr
  | some d =>
    simp only [Rec.restore]
    cases liveAt t₃ (liveAt t₂ (some (v.over (liveAt t₁ x)))) with
    | none => rfl
    | some z => exact Option.filter_eq_none_iff.2 fun a ha => by cases ha; simpa using hr

/-- The record comes out right when recreated over this one. -/
def Rec.absorbs (r x : Rec σ) : Prop :=
  match r.val, x.val with
  | .str _, _ => True
  | .hash h, .hash h₀ => h₀.keys ⊆ h.keys ∧ (x.deadline = none ∨ r.deadline.isSome = true)
  | .set s, .set s₀ => s₀ ⊆ s ∧ (x.deadline = none ∨ r.deadline.isSome = true)
  | .zset z, .zset z₀ => z₀.keys ⊆ z.keys ∧ (x.deadline = none ∨ r.deadline.isSome = true)
  | _, _ => False

/-- Recreating a value over one that it does not replace. -/
theorem merge_eq (hx : x'.val.NonEmpty) (hstr : ∀ b, r.val ≠ .str b) :
    r.absorbs x' ↔ x'.val.merge r.val = some r.val ∧
      (x'.deadline = none ∨ r.deadline.isSome = true) := by
  obtain ⟨v, d⟩ := r
  obtain ⟨w, e⟩ := x'
  cases v with
  | str b => exact absurd rfl (hstr b)
  | list l =>
    cases w with
    | list l₀ =>
      have : l₀ ++ l ≠ l := fun h => hx (List.append_left_eq_self.1 h)
      simp [Rec.absorbs, Val.merge, this]
    | _ => simp [Rec.absorbs, Val.merge]
  | hash h => cases w <;> simp [Rec.absorbs, Val.merge, union_eq_left]
  | set s => cases w <;> simp [Rec.absorbs, Val.merge, Finset.union_eq_right]
  | zset z => cases w <;> simp [Rec.absorbs, Val.merge, union_eq_left]

theorem over_val (hstr : ∀ b, r.val ≠ .str b) :
    (r.val.over (some x')).val = r.val ↔ x'.val.merge r.val = some r.val := by
  rw [over_coll hstr]
  cases hm : x'.val.merge r.val with
  | some m => simp
  | none =>
    -- a collection is never refused by one of its own type
    refine ⟨fun h => ?_, nofun⟩
    have h : x'.val = r.val := h
    rw [h] at hm
    cases hv : r.val <;> first | exact absurd hv (hstr _) | (rw [hv] at hm; cases hm)

theorem over_deadline (hstr : ∀ b, r.val ≠ .str b) :
    (r.val.over (some x')).deadline = x'.deadline := by
  rw [over_coll hstr]
  cases x'.val.merge r.val <;> rfl

theorem liveAt_some {t : Nat} (h : expired t r.deadline = false) : liveAt t (some r) = some r :=
  liveAt_eq_some.2 ⟨rfl, h⟩

theorem not_expired {t : Nat} {d : Option Nat} (ht : t ≤ T) (h : expired T d = false) :
    expired t d = false :=
  Bool.eq_false_iff.2 fun he => by rw [expired_mono ht he] at h; cases h

def Val.isStr : Val σ → Bool
  | .str _ => true
  | _ => false

/-- A string comes out right whatever was there. -/
theorem restore_str (hr : r.val.isStr = true) : r.restore t₁ t₂ t₃ x = some r := by
  obtain ⟨v, d⟩ := r
  cases v with
  | str b => cases hx : liveAt t₁ x <;> cases d <;> simp only [Rec.restore, hx, Val.over] <;> rfl
  | _ => cases hr

theorem absorbs_str (hr : r.val.isStr = true) (x' : Rec σ) : r.absorbs x' := by
  obtain ⟨v, d⟩ := r
  cases v with
  | str b => trivial
  | _ => cases hr

/-- A record that outlives `T`, recreated over one that does so too or is not there,
comes out right exactly when it absorbs it. -/
theorem restore_iff (h₂ : t₂ ≤ T) (h₃ : t₃ ≤ T) (hr : expired T r.deadline = false) (hx : RecFull x)
    (hq : liveAt t₁ x = liveAt T x) :
    liveAt T (r.restore t₁ t₂ t₃ x) = some r ↔ ∀ x' ∈ liveAt T x, r.absorbs x' := by
  cases hl : liveAt T x with
  | none =>
    rw [restore_fresh (hq.trans hl), liveAt_some hr]
    simp
  | some x' =>
    obtain ⟨rfl, hlive⟩ := liveAt_eq_some.1 hl
    simp only [Option.mem_some_iff, forall_eq']
    by_cases hstr : r.val.isStr = true
    · rw [restore_str hstr, liveAt_some hr]
      exact ⟨fun _ => absorbs_str hstr x', fun _ => rfl⟩
    · have hstr : ∀ b, r.val ≠ .str b := fun b hb => hstr (by rw [hb]; rfl)
      have hover : (r.val.over (some x')).deadline = x'.deadline := over_deadline hstr
      have hkeep : ∀ t ≤ T, liveAt t (some (r.val.over (some x'))) = some (r.val.over (some x')) :=
        fun t ht =>
        liveAt_some (hover ▸ not_expired ht hlive)
      rw [merge_eq (hx x' rfl) hstr, ← over_val hstr]
      obtain ⟨v, d⟩ := r
      cases d with
      | none =>
        simp only [Rec.restore, hq, hl, hkeep T le_rfl, Option.some.injEq, Option.isSome_none,
          Bool.false_eq_true, or_false, ← hover]
        exact ⟨fun h => by rw [h]; exact ⟨rfl, rfl⟩, fun h => by
          cases hy : v.over (some x'); rw [hy] at h; cases h.1; cases h.2; rfl⟩
      | some d =>
        have hd : ∀ y : Rec σ, liveAt T (some { y with deadline := some d }) =
            some { y with deadline := some d } :=
          fun y => liveAt_some hr
        simp only [Rec.restore, hq, hl, hkeep t₂ h₂, hkeep t₃ h₃, Option.map_some, hd,
          Option.isSome_some, or_true, and_true, Option.some.injEq, Rec.mk.injEq]

/-- The record is recreated no earlier than `S` over one that is gone by then, or that it
absorbs and that does not run out on the way. -/
theorem restore_replaces {S : Nat} (h₁ : S ≤ t₁) (h₂ : t₂ ≤ T) (h₃ : t₃ ≤ T)
    (hr : expired T r.deadline = false) (hx : RecFull x)
    (h : ∀ x' ∈ liveAt S x, r.absorbs x' ∧ (r.val.isStr = true ∨ expired T x'.deadline = false)) :
    liveAt T (r.restore t₁ t₂ t₃ x) = some r := by
  cases hl : liveAt t₁ x with
  | none => rw [restore_fresh hl, liveAt_some hr]
  | some x' =>
    obtain ⟨rfl, hlive⟩ := liveAt_eq_some.1 hl
    obtain ⟨habs, hstr | hout⟩ := h x' (liveAt_some (not_expired h₁ hlive))
    · rw [restore_str hstr, liveAt_some hr]
    · refine (restore_iff h₂ h₃ hr hx (hl.trans (liveAt_some hout).symm)).2 fun y hy => ?_
      rw [liveAt_some hout] at hy
      cases hy
      exact habs

end

/-! ## A record that is sent -/

section
variable {σ : Type} [Score σ] {T t₁ t₂ t₃ : Nat} {r : Rec σ} {x : Option (Rec σ)}

/-- `PEXPIREAT` accepts the deadline, if there is one. -/
def Accepted (d : Option Nat) : Prop := ∀ t ∈ d, (t : Int) ≤ i64Max

instance (d : Option Nat) : Decidable (Accepted d) :=
  inferInstanceAs (Decidable (∀ t ∈ d, (t : Int) ≤ i64Max))

theorem sent_ne_str {v : Val σ} (h : v.isStr = false) (b : Bytes) : v.sent ≠ .str b := by
  cases v <;> first | (cases h; done) | exact fun hb => by cases hb

/-- What arrives of a record. -/
def Rec.sent (r : Rec σ) : Rec σ := ⟨r.val.sent, r.deadline.filter fun t => (t : Int) ≤ i64Max⟩

theorem Rec.sent_accepted (h : Accepted r.deadline) : r.sent = ⟨r.val.sent, r.deadline⟩ := by
  obtain ⟨v, d⟩ := r
  cases d with
  | none => rfl
  | some t => simpa [Rec.sent] using h t rfl

theorem Rec.sent_refused (h : ¬Accepted r.deadline) :
    r.sent = ⟨r.val.sent, none⟩ ∧ r.deadline.isSome = true := by
  obtain ⟨v, d⟩ := r
  cases d with
  | none => exact absurd (fun t ht => by cases ht) h
  | some t =>
    have ht : ¬(t : Int) ≤ i64Max := fun ht => h fun u hu => by cases hu; exact ht
    exact ⟨by simpa [Rec.sent] using ht, rfl⟩

/-- A value comes out right only if it is sent as it is. -/
theorem sent_of_over (h : (r.val.sent.over x).val = r.val) : r.val.sent = r.val := by
  obtain ⟨v, d⟩ := r
  cases v with
  | zset z =>
    cases x with
    | none => exact h
    | some x =>
      rw [over_coll (v := (Val.zset z).sent) (fun b hb => by cases hb)] at h
      obtain ⟨w, e⟩ := x
      cases w with
      | zset z₀ =>
        have hz : sentScores z ∪ z₀ = z := Val.zset.inj h
        refine congrArg Val.zset (Finmap.ext_lookup fun m => ?_)
        by_cases hm : m ∈ z
        · have hleft : (sentScores z ∪ z₀).lookup m = (sentScores z).lookup m :=
            Finmap.lookup_union_left (mem_sentScores.2 hm)
          rw [← hleft, hz]
        · rw [Finmap.lookup_eq_none.2 hm, Finmap.lookup_eq_none.2 (mem_sentScores.not.2 hm)]
      | _ => cases h
  | _ => rfl

/-- The record is what the key has at `T` when it has been sent to a replica that held `x`.
Its value is sent as it is. Either its deadline is accepted, and it absorbs what was there,
which, unless a string replaces it, does not run out before `T`; or the deadline is refused
and was there already. -/
def Rec.arrives (T : Nat) (r : Rec σ) (x : Option (Rec σ)) : Prop :=
  r.val.sent = r.val ∧
    (Accepted r.deadline ∧
      (∀ x' ∈ x, r.absorbs x' ∧ (r.val.isStr = true ∨ expired T x'.deadline = false)) ∨
      r.val.isStr = false ∧ ∃ x' ∈ x, r.absorbs x' ∧ x'.deadline = r.deadline)

theorem arrives_none : r.arrives T none ↔ r.val.sent = r.val ∧ Accepted r.deadline := by
  simp [Rec.arrives]

omit [Score σ] in
/-- A record whose deadline is refused comes out right exactly over one that has it. -/
theorem over_refused (hx : RecFull x) (hd : r.deadline.isSome = true) :
    r.val.over x = r ↔ r.val.isStr = false ∧ ∃ x' ∈ x, r.absorbs x' ∧ x'.deadline = r.deadline := by
  obtain ⟨v, d⟩ := r
  cases x with
  | none =>
    refine ⟨fun h => ?_, fun ⟨_, _, h, _⟩ => by cases h⟩
    rw [← congrArg Rec.deadline h] at hd
    cases hd
  | some x' =>
    cases hs : v.isStr with
    | true =>
      refine ⟨fun h => ?_, fun h => by cases h.1⟩
      cases v with
      | str b => rw [← congrArg Rec.deadline h] at hd; cases hd
      | _ => cases hs
    | false =>
      have hstr : ∀ b, (Rec.mk v d).val ≠ .str b := fun b hb => by
        rw [show v = .str b from hb] at hs
        cases hs
      have hval : (v.over (some x')).val = v ↔ x'.val.merge v = some v := over_val hstr
      have hdead : (v.over (some x')).deadline = x'.deadline := over_deadline hstr
      simp only [Option.mem_some_iff, exists_eq_left', true_and, merge_eq (hx x' rfl) hstr, hd,
        or_true, and_true]
      rw [← hval, ← hdead]
      constructor
      · intro h; rw [h]; exact ⟨rfl, rfl⟩
      · rintro ⟨h1, h2⟩
        cases hy : v.over (some x')
        rw [hy] at h1 h2
        cases h1; cases h2; rfl

omit [Score σ] in
/-- The value after both commands is that after the first. -/
theorem restore_val {y : Rec σ} (h : r.restore t₁ t₂ t₃ x = some y) :
    (r.val.over (liveAt t₁ x)).val = y.val := by
  obtain ⟨v, d⟩ := r
  cases d with
  | none => exact congrArg Rec.val (Option.some.inj h)
  | some d =>
    obtain ⟨z, hz, rfl⟩ := Option.map_eq_some_iff.1 h
    have hz : v.over (liveAt t₁ x) = z :=
      Option.some.inj (liveAt_eq_some.1 (liveAt_eq_some.1 hz).1).1
    show (v.over (liveAt t₁ x)).val = z.val
    rw [hz]

/-- A record that outlives `T`, sent to a replica whose record does so too or is not there. -/
theorem arrives_iff (h₂ : t₂ ≤ T) (h₃ : t₃ ≤ T) (hr : expired T r.deadline = false) (hx : RecFull x)
    (hq : liveAt t₁ x = liveAt T x) :
    liveAt T (r.sent.restore t₁ t₂ t₃ x) = some r ↔ r.arrives T (liveAt T x) := by
  by_cases hv : r.val.sent = r.val
  · by_cases hd : Accepted r.deadline
    · -- sent as it is
      have hlive : ∀ x' ∈ liveAt T x, expired T x'.deadline = false :=
        fun x' hx' => (liveAt_eq_some.1 hx').2
      rw [show r.sent = r by rw [Rec.sent_accepted hd, hv], restore_iff h₂ h₃ hr hx hq]
      constructor
      · exact fun h => ⟨hv, .inl ⟨hd, fun x' hx' => ⟨h x' hx', .inr (hlive x' hx')⟩⟩⟩
      · rintro ⟨-, ⟨-, h⟩ | ⟨-, x₀, h₀, habs, -⟩⟩ x' hx'
        · exact (h x' hx').1
        · rwa [Option.some.inj (hx'.symm.trans h₀)]
    · -- without its deadline
      obtain ⟨hsent, hsome⟩ := Rec.sent_refused hd
      have hlive : ∀ y : Rec σ, liveAt T (some y) = some r ↔ y = r := fun y =>
        ⟨fun h => Option.some.inj (liveAt_eq_some.1 h).1, fun h => by rw [h, liveAt_some hr]⟩
      rw [hsent, hv, show (Rec.mk r.val none).restore t₁ t₂ t₃ x =
        some (r.val.over (liveAt t₁ x)) from rfl, hlive, hq, over_refused (liveAt_full hx) hsome]
      simp [Rec.arrives, hv, hd]
  · refine ⟨fun h => absurd ?_ hv, fun h => absurd h.1 hv⟩
    exact sent_of_over (restore_val (r := r.sent) (liveAt_eq_some.1 h).1)

/-- Whatever the clock does from `S` to `T`. -/
theorem arrives_restore {S : Nat} (h₁ : S ≤ t₁ ∧ t₁ ≤ T) (h₂ : t₂ ≤ T) (h₃ : t₃ ≤ T)
    (hr : expired T r.deadline = false) (hx : RecFull x) (h : r.arrives T (liveAt S x)) :
    liveAt T (r.sent.restore t₁ t₂ t₃ x) = some r := by
  obtain ⟨hv, ⟨hd, h⟩ | ⟨hstr, x', hx', habs, hsame⟩⟩ := h
  · rw [show r.sent = r by rw [Rec.sent_accepted hd, hv]]
    exact restore_replaces h₁.1 h₂ h₃ hr hx h
  · obtain ⟨hraw, -⟩ := liveAt_eq_some.1 hx'
    have hlive : ∀ t ≤ T, liveAt t x = some x' := fun t ht => by
      rw [hraw]
      exact liveAt_some (hsame ▸ not_expired ht hr)
    refine (arrives_iff h₂ h₃ hr hx ((hlive t₁ h₁.2).trans (hlive T le_rfl).symm)).2 ?_
    exact ⟨hv, .inr ⟨hstr, x', hlive T le_rfl, habs, hsame⟩⟩

omit [Score σ] in
theorem over_live {v : Val σ} (h : ∀ x' ∈ x, expired T x'.deadline = false) :
    expired T (v.over x).deadline = false := by
  cases x with
  | none => rfl
  | some x' =>
    cases v with
    | str b => rfl
    | list _ | hash _ | set _ | zset _ =>
      rw [over_coll (fun b hb => by cases hb)]
      cases x'.val.merge _ <;> exact h x' rfl

/-- A record that runs out by `T` is gone then exactly if its deadline is accepted. -/
theorem sent_dead_iff (hr : expired T r.deadline = true) (hq : liveAt t₁ x = liveAt T x) :
    liveAt T (r.sent.restore t₁ t₂ t₃ x) = none ↔ Accepted r.deadline := by
  refine ⟨fun h => by_contra fun hd => ?_, fun hd => ?_⟩
  · rw [(Rec.sent_refused hd).1,
      show (Rec.mk r.val.sent none).restore t₁ t₂ t₃ x =
        some (r.val.sent.over (liveAt t₁ x)) from rfl, hq,
        liveAt_some (over_live fun x' hx' => (liveAt_eq_some.1 hx').2)] at h
    cases h
  · rw [Rec.sent_accepted hd]
    exact restore_dead hr

end

end Inmem.L3
