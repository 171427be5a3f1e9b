import Inmem.Core.Probe
import Mathlib.Algebra.BigOperators.Group.Finset.Basic
import Mathlib.Algebra.Order.BigOperators.Group.Finset

/-!
# Which slots linear probing fills

Two tables of one size that keep the probe invariant, and whose elements have the same
homes, may hold these in different slots, but the occupied slots are the same
(`full_iff`). So the order of insertions and any removed elements leave no trace in
them, nor in the sum of the distances of the elements from their homes
(`probeDistance_eq`).

The argument counts on an arc. Let `i` be occupied in one table, and `q` the last empty
slot before it there: the elements on the arc from `q` to `i` have their homes on the
arc, one for each slot. If `i` were empty in the other table, the elements with
a home on the arc would all be on the arc and not at `i`: one too few.
-/
namespace Inmem.Core.Probe

open Inmem.Core.Ring

variable {α β : Type}

/-! ## Sums over slots -/

/-- What is in a slot. -/
def cell (s : Slots α) (i : Nat) : Option α := s[i]?.join

/-- The sum of `f` over the occupied slots. -/
def overSlots (s : Slots α) (f : Nat → α → Nat) : Nat :=
  ∑ i ∈ Finset.range s.length, (cell s i).elim 0 (f i)

/-- The occupied slots. -/
def occupied (s : Slots α) : Finset Nat := (Finset.range s.length).filter fun i => (cell s i).isSome

/-- The sum of the distances of the elements from their homes. -/
def probeDistance (home : α → Nat) (s : Slots α) : Nat :=
  overSlots s fun i e => dist s.length (home e) i

variable {s : Slots α} {s' : Slots β} {home : α → Nat} {home' : β → Nat} {i q : Nat} {e : α}

theorem cell_eq_some : cell s i = some e ↔ At s i e := by
  unfold cell At
  cases s[i]? with
  | none => simp
  | some x => simp

theorem cell_isSome : (cell s i).isSome = true ↔ Full s i := by
  rw [Option.isSome_iff_exists]
  exact exists_congr fun e => cell_eq_some

theorem mem_occupied : i ∈ occupied s ↔ Full s i := by
  rw [occupied, Finset.mem_filter, cell_isSome, Finset.mem_range]
  exact and_iff_right_of_imp fun ⟨_, he⟩ => he.lt

/-- A sum over the stored elements is one over the slots. -/
theorem sum_live (s : Slots α) (f : α → Nat) : ((live s).map f).sum = overSlots s fun _ => f := by
  induction s using List.reverseRecOn with
  | nil => rfl
  | append_singleton s x ih =>
    have hold : ∀ i ∈ Finset.range s.length,
        (cell (s ++ [x]) i).elim 0 f = (cell s i).elim 0 f := by
      intro i hi
      rw [cell, cell, List.getElem?_append_left (Finset.mem_range.1 hi)]
    have hnew : cell (s ++ [x]) s.length = x := by simp [cell]
    unfold overSlots at ih ⊢
    rw [List.length_append, List.length_singleton, Finset.sum_range_succ, Finset.sum_congr rfl hold,
      hnew, ← ih]
    cases x <;> simp [live]

/-! ## Elements near an empty slot -/

/-- An element's path does not cross an empty slot. -/
theorem dist_home (hp : PathFull home s) (hq : Empty s q) (he : At s i e) (hh : home e < s.length) :
    dist s.length q (home e) + dist s.length (home e) i = dist s.length q i := by
  by_cases hle : dist s.length q (home e) ≤ dist s.length q i
  · exact dist_add hq.lt he.lt hh hle
  · -- otherwise the path from the home leads over `q`
    exfalso
    have hvia := dist_via (b := i) hq.lt hh (by omega)
    have hne : dist s.length q i ≠ 0 := fun h0 => hq.not_full ⟨e, dist_eq_zero hq.lt h0 ▸ he⟩
    have hfull := hp i e he (dist s.length (home e) q) (by omega)
    rw [adv_dist hh hq.lt] at hfull
    exact hq.not_full hfull

/-- The positions after `q`, up to `i`. -/
def OnArc (n q i x : Nat) : Prop := 0 < dist n q x ∧ dist n q x ≤ dist n q i

instance decidableOnArc (n q i x : Nat) : Decidable (OnArc n q i x) :=
  inferInstanceAs (Decidable (_ ∧ _))

/-- An element on an arc after an empty slot has its home there. -/
theorem home_onArc (hp : PathFull home s) (hq : Empty s q) {x : Nat} (he : At s x e)
    (hh : home e < s.length) (hx : OnArc s.length q i x) : OnArc s.length q i (home e) := by
  have hsum := dist_home hp hq he hh
  refine ⟨Nat.pos_of_ne_zero fun h0 => ?_, by have := hx.2; omega⟩
  -- the home is not `q`, which is empty
  have hqh : q = home e := dist_eq_zero hq.lt h0
  have hpos := hx.1
  rw [h0, Nat.zero_add] at hsum
  have hfull := hp x e he 0 (by omega)
  rw [adv_zero hh, ← hqh] at hfull
  exact hq.not_full hfull

/-- An element with its home on an arc before an empty slot is on the arc itself. -/
theorem at_onArc (hp : PathFull home s) (hi : Empty s i) {x : Nat} (he : At s x e)
    (hq : q < s.length) (hh : home e < s.length) (harc : OnArc s.length q i (home e)) :
    OnArc s.length q i x ∧ x ≠ i := by
  have hne : x ≠ i := fun hc => hi.not_full ⟨e, hc ▸ he⟩
  refine ⟨?_, hne⟩
  -- the path of the element ends before `i`
  have hlt : dist s.length (home e) x < dist s.length (home e) i := by
    by_contra hge
    have hdne : dist s.length (home e) i ≠ dist s.length (home e) x :=
      fun h => hne (dist_inj hh hi.lt he.lt h).symm
    have hfull := hp x e he (dist s.length (home e) i) (by omega)
    rw [adv_dist hh hi.lt] at hfull
    exact hi.not_full hfull
  have hadd := dist_add hq hi.lt hh harc.2
  have hx := he.lt
  have hi := hi.lt
  obtain ⟨h1, h2⟩ := harc
  unfold OnArc
  unfold Ring.dist at *
  split_ifs at * <;> omega

/-! ## The occupied slots -/

/-- The last empty slot before an occupied one. -/
theorem last_empty (hroom : (live s).length < s.length) (hi : Full s i) :
    ∃ q, Empty s q ∧ ∀ x, x < s.length → OnArc s.length q i x → Full s x := by
  obtain ⟨q₀, hq₀⟩ := exists_empty hroom
  have hlt : i < s.length := by obtain ⟨e, he⟩ := hi; exact he.lt
  -- the least distance from an empty slot to `i`
  have hex : ∃ d q, Empty s q ∧ dist s.length q i = d := ⟨_, q₀, hq₀, rfl⟩
  classical
  obtain ⟨q, hq, hd⟩ := Nat.find_spec hex
  refine ⟨q, hq, fun x hx harc => full_of_not_empty hx fun hemp => ?_⟩
  have hmin := Nat.find_min' hex ⟨x, hemp, rfl⟩
  have hadd := dist_add hq.lt hlt hx harc.2
  have hpos := harc.1
  omega

/-- Whether a home is on the arc, for the elements of a table. -/
def onArc (n q i : Nat) (home : α → Nat) (e : α) : Nat := if OnArc n q i (home e) then 1 else 0

/-- The number of positions after `q`, up to `i`. -/
def arcLength (n q i : Nat) : Nat := ∑ x ∈ Finset.range n, if OnArc n q i x then 1 else 0

/-- A full arc after an empty slot: each of its slots is for an element whose home is on it. -/
theorem arcLength_le (hp : PathFull home s) (hin : ∀ e ∈ live s, home e < s.length) (hq : Empty s q)
    (hrun : ∀ x, x < s.length → OnArc s.length q i x → Full s x) :
    arcLength s.length q i ≤ overSlots s fun _ => onArc s.length q i home := by
  refine Finset.sum_le_sum fun x hx => ?_
  split
  · rename_i hon
    obtain ⟨e, he⟩ := hrun x (Finset.mem_range.1 hx) hon
    have hhome := home_onArc hp hq he (hin e (mem_live.2 ⟨x, he⟩)) hon
    simp only [cell_eq_some.2 he, Option.elim_some, onArc, if_pos hhome, le_refl]
  · exact Nat.zero_le _

/-- An arc that ends in an empty slot: the elements whose home is on it are on it, and none at
its end. -/
theorem lt_arcLength (hp : PathFull home s) (hin : ∀ e ∈ live s, home e < s.length)
    (hq : q < s.length) (hi : Empty s i) (harc : OnArc s.length q i i) :
    overSlots s (fun _ => onArc s.length q i home) < arcLength s.length q i := by
  have hempty : cell s i = none := by
    unfold cell
    rw [show s[i]? = some none from hi]
    rfl
  refine Finset.sum_lt_sum (fun x _ => ?_) ⟨i, Finset.mem_range.2 hi.lt, ?_⟩
  · cases hx : cell s x with
    | none => exact Nat.zero_le _
    | some e =>
      simp only [Option.elim_some, onArc]
      split
      · rename_i hon
        have he := cell_eq_some.1 hx
        have hat := at_onArc hp hi he hq (hin e (mem_live.2 ⟨x, he⟩)) hon
        rw [if_pos hat.1]
      · exact Nat.zero_le _
  · rw [hempty, if_pos harc]
    exact Nat.zero_lt_one

/-- What one table occupies, the other does. -/
theorem full_of_homes (hlen : s'.length = s.length) (hp : PathFull home s) (hp' : PathFull home' s')
    (hin : ∀ e ∈ live s, home e < s.length) (hin' : ∀ e ∈ live s', home' e < s'.length)
    (hperm : ((live s).map home).Perm ((live s').map home')) (hroom : (live s').length < s'.length)
    (hi : Full s' i) : Full s i := by
  have hlt : i < s'.length := by obtain ⟨e, he⟩ := hi; exact he.lt
  obtain ⟨q, hq, hrun⟩ := last_empty hroom hi
  refine full_of_not_empty (hlen ▸ hlt) fun hemp => ?_
  -- `i` is on the arc: it is not `q`
  have harc : OnArc s.length q i i := by
    refine ⟨Nat.pos_of_ne_zero fun h0 => ?_, le_rfl⟩
    obtain rfl : q = i := dist_eq_zero (hlen ▸ hq.lt) h0
    exact hq.not_full hi
  have hcount : overSlots s (fun _ => onArc s.length q i home) = overSlots s' fun _ =>
      onArc s.length q i home' := by
    rw [← sum_live, ← sum_live]
    have hsum := (hperm.map fun x => if OnArc s.length q i x then 1 else 0).sum_eq
    rwa [List.map_map, List.map_map] at hsum
  have hmany := arcLength_le hp' hin' hq hrun
  have hfew := lt_arcLength hp hin (hlen ▸ hq.lt) hemp harc
  rw [hlen] at hmany
  omega

/-- **The occupied slots** depend on the homes of the elements alone. -/
theorem full_iff (hlen : s'.length = s.length) (hp : PathFull home s) (hp' : PathFull home' s')
    (hin : ∀ e ∈ live s, home e < s.length) (hin' : ∀ e ∈ live s', home' e < s'.length)
    (hperm : ((live s).map home).Perm ((live s').map home')) (hroom : (live s).length < s.length) :
    Full s i ↔ Full s' i := by
  have hroom' : (live s').length < s'.length := by
    have hl := hperm.length_eq
    rw [List.length_map, List.length_map] at hl
    omega
  exact ⟨full_of_homes hlen.symm hp' hp hin' hin hperm.symm hroom,
    full_of_homes hlen hp hp' hin hin' hperm hroom'⟩

/-! ## The distances -/

/-- Seen from an empty slot, the distances are what lies between the homes and the places. -/
theorem probeDistance_add (hp : PathFull home s) (hin : ∀ e ∈ live s, home e < s.length)
    (hq : Empty s q) :
    probeDistance home s + ((live s).map fun e => dist s.length q (home e)).sum =
      overSlots s fun i _ => dist s.length q i := by
  rw [sum_live, probeDistance, overSlots, overSlots, overSlots, ← Finset.sum_add_distrib]
  refine Finset.sum_congr rfl fun x _ => ?_
  cases hx : cell s x with
  | none => rfl
  | some e =>
    have he := cell_eq_some.1 hx
    have hsum := dist_home hp hq he (hin e (mem_live.2 ⟨x, he⟩))
    simp only [Option.elim_some]
    omega

/-- **The sum of the distances** depends on the homes of the elements alone. -/
theorem probeDistance_eq (hlen : s'.length = s.length) (hp : PathFull home s)
    (hp' : PathFull home' s') (hin : ∀ e ∈ live s, home e < s.length)
    (hin' : ∀ e ∈ live s', home' e < s'.length)
    (hperm : ((live s).map home).Perm ((live s').map home')) (hroom : (live s).length < s.length) :
    probeDistance home s = probeDistance home' s' := by
  obtain ⟨q, hq⟩ := exists_empty hroom
  have hfull : ∀ x, Full s x ↔ Full s' x := fun x => full_iff hlen hp hp' hin hin' hperm hroom
  have hq' : Empty s' q :=
    (empty_or_full (hlen ▸ hq.lt)).resolve_right fun hf => hq.not_full ((hfull q).2 hf)
  have h1 := probeDistance_add hp hin hq
  have h2 := probeDistance_add hp' hin' hq'
  have hhomes := (hperm.map fun x => dist s.length q x).sum_eq
  rw [List.map_map, List.map_map] at hhomes
  have hplaces : (overSlots s fun x _ => dist s.length q x) =
      overSlots s' fun x _ => dist s'.length q x := by
    unfold overSlots
    rw [hlen]
    refine Finset.sum_congr rfl fun x _ => ?_
    cases hx : cell s x with
    | none =>
      have hno : ¬ Full s' x := fun hf => by
        have := cell_isSome.2 ((hfull x).2 hf)
        rw [hx] at this
        cases this
      rw [Option.not_isSome_iff_eq_none.1 (mt cell_isSome.1 hno)]
      rfl
    | some e =>
      obtain ⟨e', he'⟩ := (hfull x).1 ⟨e, cell_eq_some.1 hx⟩
      rw [cell_eq_some.2 he']
      rfl
  rw [hlen] at h2 hplaces
  simp only [Function.comp_def] at hhomes
  omega

end Inmem.Core.Probe
