import Inmem.L4App.Timeless

/-!
# Writes on different keys

A write reads and changes the keys it names and no others; `FLUSHALL` names all of
them.

* `run_frame`: the other keys stay as they are.
* `run_congr`: what happens to its own keys depends on nothing else.
* `afterCmd_comm`: commands that share no key can be swapped.
-/
namespace Inmem.L4

open Inmem.Core Inmem.L1 Inmem.L1.Resp Inmem.L3

section
variable {σ : Type}

/-- The keys that a write names, `none` for all. -/
def Write.keys : Write σ → Option (List Bytes)
  | .flush => none
  | .set k .. | .setex k .. | .getset k _ | .one k .. | .expire k .. | .persist k => some [k]
  | .mset pairs => some (pairs.map Prod.fst)
  | .del ks => some ks

/-- The writes share no key. -/
def Write.apart (w w' : Write σ) : Bool :=
  match w.keys, w'.keys with
  | some ks, some ks' => ks.all fun k => !ks'.contains k
  | _, _ => false

/-- The call is on one of these keys, or on none. -/
def Within (ks : List Bytes) : Call σ → Prop
  | .key k _ => k ∈ ks
  | .nowMs => True
  | _ => False

theorem setPairs_within (pairs : List (Bytes × Bytes)) :
    ∀ {ks : List Bytes}, (∀ p ∈ pairs, p.1 ∈ ks) →
    (setPairs pairs : Cmd σ Unit).All (Within ks) fun _ => True := by
  induction pairs with
  | nil => intro ks _; trivial
  | cons p pairs ih =>
    intro ks h
    exact ⟨h p List.mem_cons_self, fun _ => ih fun q hq => h q (List.mem_cons_of_mem _ hq)⟩

theorem countDel_within (dels : List Bytes) : ∀ {ks : List Bytes}, (∀ k ∈ dels, k ∈ ks) →
    (countKeys .del id dels : Cmd σ Nat).All (Within ks) fun _ => True := by
  induction dels with
  | nil => intro ks _; trivial
  | cons k dels ih =>
    intro ks h
    exact ⟨h k List.mem_cons_self,
      fun _ => (ih fun q hq => h q (List.mem_cons_of_mem _ hq)).bind fun _ _ => trivial⟩

theorem setTail_within (k x : Bytes) (opts : SetOptions) (get : Bool) :
    (Write.setTail k x opts get : Cmd σ Bool).All (Within [k]) fun _ => True := by
  have hk : k ∈ [k] := List.mem_singleton_self k
  cases get with
  | false => exact ⟨hk, fun _ => trivial⟩
  | true => exact ⟨hk, fun old => by cases old <;> first | trivial | exact ⟨hk, fun _ => trivial⟩⟩

theorem expireTail_within (k : Bytes) (n : Int) (unit : Nat) (absolute : Bool)
    (flag : Option Bytes) :
    (Write.expireTail k n unit absolute flag : Cmd σ Bool).All (Within [k]) fun _ => True := by
  have hk : k ∈ [k] := List.mem_singleton_self k
  refine ⟨trivial, fun now => ?_⟩
  cases flag with
  | none => exact ⟨hk, fun _ => trivial⟩
  | some flag => exact ⟨hk, fun cur => Prog.All.ite ⟨hk, fun _ => trivial⟩ trivial⟩

/-- A write only makes calls on the keys it names. -/
theorem Write.within (w : Write σ) {ks : List Bytes} (h : w.keys = some ks) :
    w.prog.All (Within ks) fun _ => True := by
  cases w with
  | flush => cases h
  | set k v words =>
    cases h
    refine ⟨trivial, fun now => ?_⟩
    dsimp only [Prog.bind]
    split
    · trivial
    · exact setTail_within ..
  | setex k => cases h; exact ⟨trivial, fun _ => ⟨List.mem_singleton_self k, fun _ => trivial⟩⟩
  | getset k v =>
    cases h
    refine ⟨List.mem_singleton_self k, fun old => ?_⟩
    cases old <;> first | trivial | exact ⟨List.mem_singleton_self k, fun _ => trivial⟩
  | mset pairs =>
    cases h
    exact (setPairs_within pairs fun p hp => List.mem_map_of_mem hp).bind fun _ _ => trivial
  | del dels => cases h; exact (countDel_within _ fun _ hk => hk).bind fun _ _ => trivial
  | one k op hm => cases h; exact ⟨List.mem_singleton_self k, fun _ => trivial⟩
  | expire k n unit absolute flag =>
    cases h
    refine ⟨List.mem_singleton_self k, fun live => ?_⟩
    cases live <;> first | trivial | exact expireTail_within ..
  | persist k =>
    cases h
    refine ⟨List.mem_singleton_self k, fun cur => ?_⟩
    cases cur <;> first | trivial | exact ⟨List.mem_singleton_self k, fun _ => trivial⟩

end

section
variable {σ : Type} [Score σ] {w w' : Write σ} {ks ks' : List Bytes}

/-- The keys that a write does not name stay as they are. -/
theorem run_frame (hw : w.keys = some ks) (clock : Nat → Nat) (v : View σ) (i : Nat) {k : Bytes}
    (hk : k ∉ ks) : (w.run clock v i).2.1 k = v k := by
  refine (Prog.all_run (viewCall clock) (fun s => s.1 k = v k) ?_ (w.within hw) rfl).2
  rintro c ⟨v', j⟩ hc hs
  cases c with
  | key k' op =>
    have hne : k ≠ k' := fun h => hk (h ▸ hc)
    exact (View.put_other _ _ hne).trans hs
  | nowMs => exact hs
  | _ => exact hc.elim

/-- What a write does to its keys depends on these alone. -/
theorem run_congr (hw : w.keys = some ks) (clock : Nat → Nat) {v v' : View σ} (i : Nat)
    (h : ∀ k ∈ ks, v k = v' k) :
    (w.run clock v i).1 = (w.run clock v' i).1 ∧ ∀ k ∈ ks,
      (w.run clock v i).2.1 k = (w.run clock v' i).2.1 k := by
  have hsim := Prog.run_sim (viewCall clock) (viewCall clock)
    (fun s t : View σ × Nat => s.2 = t.2 ∧ ∀ k ∈ ks, s.1 k = t.1 k) ?_ (w.within hw) (s := (v, i))
      (t := (v', i)) ⟨rfl, h⟩
  · exact ⟨hsim.1, hsim.2.2⟩
  · rintro c ⟨u, m⟩ ⟨u', m'⟩ hc ⟨rfl, hs⟩
    cases c with
    | key k op =>
      have hkk : u k = u' k := hs k hc
      refine ⟨by simp only [viewCall, Call.spec, hkk], rfl, fun k' hk' => ?_⟩
      simp only [viewCall, Call.spec, hkk]
      by_cases he : k' = k
      · subst he; simp only [View.put_self]
      · rw [View.put_other _ _ he, View.put_other _ _ he]; exact hs k' hk'
    | nowMs => exact ⟨rfl, rfl, hs⟩
    | _ => exact hc.elim

/-- Writes that share no key can be swapped. -/
theorem eff_comm (h : w.apart w' = true) (v : View σ) :
    (w'.eff (w.eff v).2).2 = (w.eff (w'.eff v).2).2 := by
  unfold Write.apart at h
  split at h
  · rename_i ks ks' hw hw'
    have hno : ∀ k ∈ ks, k ∉ ks' := by simpa using h
    have frame : ∀ u : View σ, ∀ k ∉ ks, (w.eff u).2 k = u k := fun u k hk => run_frame hw _ u 0 hk
    have frame' : ∀ u : View σ, ∀ k ∉ ks', (w'.eff u).2 k = u k :=
      fun u k hk => run_frame hw' _ u 0 hk
    funext k
    by_cases hk : k ∈ ks
    · rw [frame' _ k (hno k hk)]
      exact ((run_congr hw _ 0 fun x hx => frame' v x (hno x hx)).2 k hk).symm
    · rw [frame _ k hk]
      by_cases hk' : k ∈ ks'
      · exact (run_congr hw' _ 0 fun x hx => frame v x fun hxs => hno x hxs hx).2 k hk'
      · rw [frame' _ k hk', frame' _ k hk', frame _ k hk]
  · cases h

variable (σ) in
/-- The commands share no key. -/
def independent (a b : Argv) : Bool :=
  match (writeCmd a.1 a.2 : Option (Write σ)), (writeCmd b.1 b.2 : Option (Write σ)) with
  | some w, some w' => w.apart w'
  | _, _ => true

/-- Commands that share no key can be swapped. -/
theorem afterCmd_comm {a b : Argv} (h : independent σ a b = true) (v : View σ) :
    afterCmd (afterCmd v a) b = afterCmd (afterCmd v b) a := by
  unfold independent at h
  simp only [afterCmd, effect]
  cases ha : (writeCmd a.1 a.2 : Option (Write σ)) with
  | none => rfl
  | some w =>
    cases hb : (writeCmd b.1 b.2 : Option (Write σ)) with
    | none => rfl
    | some w' =>
      rw [ha, hb] at h
      exact eff_comm h v

end

end Inmem.L4
