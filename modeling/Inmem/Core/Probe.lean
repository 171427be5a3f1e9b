import Inmem.Core.Ring
import Mathlib.Data.List.Perm.Basic

/-!
# Linear probing on a ring of slots

A table is a list of slots, each empty or holding an element `e`; `home e` is
the slot where the search for `e` starts. `PathFull` is the invariant that
makes lookups by linear probing complete: no slot between an element's home
and its place is empty.

* `scan` is the probe loop, `scan_spec` says where it stops.
* `pathFull_fill`, `pathFull_replace`: storing where a probe stopped.
* Deletion leaves a hole. `HoleInv s h i` is the invariant while a scan at `i`
  looks for elements to shift back into the hole `h`: only elements that the
  scan has not reached may still have the hole on their path.
  `holeInv_start`, `holeInv_skip`, `holeInv_move` and `holeInv_stop` are the
  four steps of such a scan; the last one gives `PathFull` back.
* `live` lists the stored elements in slot order; the `live_*` lemmas follow
  it, up to permutation, through every store.
-/
namespace Inmem.Core.Probe

open Inmem.Core.Ring

variable {α : Type}

abbrev Slots (α : Type) := List (Option α)

def At (s : Slots α) (i : Nat) (e : α) : Prop := s[i]? = some (some e)

def Empty (s : Slots α) (i : Nat) : Prop := s[i]? = some none

def Full (s : Slots α) (i : Nat) : Prop := ∃ e, At s i e

/-- The stored elements, in slot order. -/
def live (s : Slots α) : List α := s.filterMap id

/-- Every slot from an element's home up to its place is occupied. -/
def PathFull (home : α → Nat) (s : Slots α) : Prop :=
  ∀ i e, At s i e → ∀ k, k < dist s.length (home e) i → Full s (adv s.length (home e) k)

variable {s : Slots α} {i j h : Nat} {e e' : α} {home : α → Nat}

theorem At.lt (ha : At s i e) : i < s.length := (List.getElem?_eq_some_iff.1 ha).1

theorem Empty.lt (ha : Empty s i) : i < s.length := (List.getElem?_eq_some_iff.1 ha).1

theorem At.inj (ha : At s i e) (hb : At s i e') : e = e' := by
  unfold At at ha hb; rw [ha] at hb; simpa using hb

theorem Empty.not_full (ha : Empty s i) : ¬ Full s i := by
  rintro ⟨e, he⟩; unfold Empty at ha; unfold At at he; rw [ha] at he; simp at he

theorem empty_or_full (hi : i < s.length) : Empty s i ∨ Full s i := by
  cases hx : s[i] with
  | none => exact .inl (by unfold Empty; rw [List.getElem?_eq_getElem hi, hx])
  | some e => exact .inr ⟨e, by unfold At; rw [List.getElem?_eq_getElem hi, hx]⟩

theorem full_of_not_empty (hi : i < s.length) (hn : ¬ Empty s i) : Full s i :=
  (empty_or_full hi).resolve_left hn

theorem at_set {x : Option α} (hi : i < s.length) :
    At (s.set i x) j e ↔ (j = i ∧ x = some e) ∨ (j ≠ i ∧ At s j e) := by
  unfold At
  rw [List.getElem?_set]
  by_cases hj : i = j
  · subst hj; simp [hi]
  · simp [hj, Ne.symm hj]

theorem empty_set {x : Option α} (hi : i < s.length) :
    Empty (s.set i x) j ↔ (j = i ∧ x = none) ∨ (j ≠ i ∧ Empty s j) := by
  unfold Empty
  rw [List.getElem?_set]
  by_cases hj : i = j
  · subst hj; simp [hi]
  · simp [hj, Ne.symm hj]

theorem full_set_some (hi : i < s.length) (hf : Full s j) : Full (s.set i (some e)) j := by
  obtain ⟨x, hx⟩ := hf
  by_cases hj : j = i
  · exact ⟨e, (at_set hi).2 (.inl ⟨hj, rfl⟩)⟩
  · exact ⟨x, (at_set hi).2 (.inr ⟨hj, hx⟩)⟩

theorem full_set_none (hi : i < s.length) (hf : Full s j) (hj : j ≠ i) : Full (s.set i none) j := by
  obtain ⟨x, hx⟩ := hf
  exact ⟨x, (at_set hi).2 (.inr ⟨hj, hx⟩)⟩

/-! ## Stored elements -/

theorem split_at (hi : i < s.length) : s = s.take i ++ s[i] :: s.drop (i + 1) := by
  rw [List.getElem_cons_drop, List.take_append_drop]

theorem set_split {x : Option α} (hi : i < s.length) :
    s.set i x = s.take i ++ x :: s.drop (i + 1) := by
  rw [List.set_eq_take_append_cons_drop, if_pos hi]

theorem mem_live : e ∈ live s ↔ ∃ i, At s i e := by
  unfold live At
  simp only [List.mem_filterMap, id_eq, exists_eq_right]
  exact List.mem_iff_getElem?

theorem live_clear (ha : At s i e) : (live s).Perm (e :: live (s.set i none)) := by
  have hi := ha.lt
  have hs : s[i] = some e := (List.getElem?_eq_some_iff.1 ha).2
  conv => lhs; rw [split_at hi, hs]
  rw [set_split hi]
  simp only [live, List.filterMap_append, List.filterMap_cons, id_eq]
  exact List.perm_middle

theorem live_fill (ha : Empty s i) : (live (s.set i (some e))).Perm (e :: live s) := by
  have hi := ha.lt
  have hs : s[i] = none := (List.getElem?_eq_some_iff.1 ha).2
  conv => rhs; rw [split_at hi, hs]
  rw [set_split hi]
  simp only [live, List.filterMap_append, List.filterMap_cons, id_eq]
  exact List.perm_middle

theorem live_replace (ha : At s i e) (e' : α) :
    (live (s.set i (some e'))).Perm (e' :: live (s.set i none)) := by
  have hc : Empty (s.set i none) i := (empty_set ha.lt).2 (.inl ⟨rfl, rfl⟩)
  have := live_fill (e := e') hc
  rwa [List.set_set] at this

/-- Moving an element into an empty slot. -/
theorem live_move (hh : Empty s h) (ha : At s i e) :
    (live ((s.set h (some e)).set i none)).Perm (live s) := by
  have hne : i ≠ h := fun hc => hh.not_full ⟨e, hc ▸ ha⟩
  have h2 : At (s.set h (some e)) i e := (at_set hh.lt).2 (.inr ⟨hne, ha⟩)
  exact ((live_clear h2).symm.trans (live_fill hh)).cons_inv

/-- A table with fewer elements than slots has an empty slot. -/
theorem exists_empty (hlt : (live s).length < s.length) : ∃ q, Empty s q := by
  by_contra hno
  have hall : ∀ x ∈ s, ∃ e, x = some e := by
    intro x hx
    obtain ⟨q, hq, rfl⟩ := List.getElem_of_mem hx
    obtain ⟨e, he⟩ := full_of_not_empty hq fun hc => hno ⟨q, hc⟩
    exact ⟨e, (List.getElem?_eq_some_iff.1 he).2⟩
  have : (live s).length = s.length := by
    clear hlt hno
    induction s with
    | nil => rfl
    | cons x t ih =>
      obtain ⟨e, rfl⟩ := hall x List.mem_cons_self
      have := ih fun y hy => hall y (List.mem_cons_of_mem _ hy)
      simpa [live] using this
  omega

/-! ## The probe loop -/

/-- Walk from `i` until an empty slot (`false`) or a hit (`true`); `none` when
the fuel runs out first. -/
def scan (step : Nat → Nat) (s : Slots α) (hit : α → Bool) : Nat → Nat → Option (Nat × Bool)
  | 0, _ => none
  | f + 1, i =>
    match s[i]? with
    | none => none
    | some none => some (i, false)
    | some (some e) => if hit e then some (i, true) else scan step s hit f (step i)

/-- The walk stops at the first empty slot or hit; with an empty slot at
distance less than the fuel there is one. -/
theorem scan_spec (step : Nat → Nat) (hit : α → Bool)
    (hstep : ∀ i, i < s.length → step i = next s.length i) {q : Nat} (hq : Empty s q) :
    ∀ f i, i < s.length → dist s.length i q < f →
      ∃ k, k ≤ dist s.length i q ∧
        (∀ m, m < k → ∃ x, At s (adv s.length i m) x ∧ hit x = false) ∧
        ((scan step s hit f i = some (adv s.length i k, false) ∧ Empty s (adv s.length i k)) ∨
          (scan step s hit f i = some (adv s.length i k, true) ∧
            ∃ x, At s (adv s.length i k) x ∧ hit x = true)) := by
  intro f
  induction f with
  | zero => intro i _ hf; omega
  | succ f ih =>
    intro i hi hf
    rcases empty_or_full hi with he | ⟨x, hx⟩
    · refine ⟨0, by omega, by intro m hm; omega, .inl ?_⟩
      rw [adv_zero hi]
      unfold Empty at he
      exact ⟨by simp only [scan, he], he⟩
    · unfold At at hx
      by_cases hh : hit x = true
      · refine ⟨0, by omega, by intro m hm; omega, .inr ?_⟩
        rw [adv_zero hi]
        exact ⟨by simp only [scan, hx, hh, if_true], x, hx, hh⟩
      · have hne : i ≠ q := by rintro rfl; exact hq.not_full ⟨x, hx⟩
        have hn : 0 < s.length := by omega
        have hd := dist_next_left hi hq.lt hne
        obtain ⟨k, hk, hbefore, hstop⟩ := ih (next s.length i) (next_lt hn) (by omega)
        have hkn : k < s.length := by have := dist_lt hi hq.lt; omega
        have hstep' : scan step s hit (f + 1) i = scan step s hit f (next s.length i) := by
          simp only [scan, hx, hh, Bool.false_eq_true, if_false, hstep i hi]
        refine ⟨k + 1, by omega, ?_, ?_⟩
        · intro m hm
          cases m with
          | zero => rw [adv_zero hi]; exact ⟨x, hx, by simpa using hh⟩
          | succ m =>
            rw [← adv_next hi (by omega)]
            exact hbefore m (by omega)
        · rw [hstep', ← adv_next hi hkn]; exact hstop

/-- A probe from the common home of all hits finds a hit if there is one. -/
theorem scan_find (step : Nat → Nat) (hit : α → Bool)
    (hstep : ∀ i, i < s.length → step i = next s.length i) (hp : PathFull home s)
    (hroom : (live s).length < s.length) {i : Nat} (hi : i < s.length)
    (hhome : ∀ e ∈ live s, hit e = true → home e = i) :
    (∃ p, scan step s hit s.length i = some (p, false) ∧ Empty s p ∧
      (∀ k, k < dist s.length i p → Full s (adv s.length i k)) ∧ ∀ e ∈ live s, hit e = false) ∨
    ∃ p e, scan step s hit s.length i = some (p, true) ∧ At s p e ∧ hit e = true := by
  obtain ⟨q, hq⟩ := exists_empty hroom
  have hqd := dist_lt hi hq.lt
  obtain ⟨k, hk, hbefore, ⟨hs, he⟩ | ⟨hs, x, hx, hhit⟩⟩ :=
    scan_spec step hit hstep hq s.length i hi hqd
  · left
    have hkd := dist_adv hi (k := k) (by omega)
    refine ⟨_, hs, he, fun m hm => ?_, fun e hmem => ?_⟩
    · obtain ⟨x, hx, -⟩ := hbefore m (by omega)
      exact ⟨x, hx⟩
    · obtain ⟨p, hpe⟩ := mem_live.1 hmem
      by_contra hc
      have hhe : hit e = true := by simpa using hc
      have hei := hhome e hmem hhe
      have hpath := hp p e hpe
      rw [hei] at hpath
      rcases Nat.lt_trichotomy (dist s.length i p) k with hlt | heq | hgt
      · obtain ⟨x, hx, hxf⟩ := hbefore _ hlt
        rw [adv_dist hi hpe.lt] at hx
        rw [hx.inj hpe, hhe] at hxf; cases hxf
      · rw [← heq, adv_dist hi hpe.lt] at he; exact he.not_full ⟨e, hpe⟩
      · exact he.not_full (hpath k hgt)
  · exact .inr ⟨_, x, hs, hx, hhit⟩

/-! ## Storing -/

/-- Filling the empty slot at which a probe from `home e` stopped. -/
theorem pathFull_fill (hp : PathFull home s) (hi : Empty s i)
    (hpath : ∀ k, k < dist s.length (home e) i → Full s (adv s.length (home e) k)) :
    PathFull home (s.set i (some e)) := by
  intro p x hx k hk
  rw [List.length_set] at hk ⊢
  apply full_set_some hi.lt
  rcases (at_set hi.lt).1 hx with ⟨rfl, hxe⟩ | ⟨-, hx'⟩
  · cases hxe; exact hpath k hk
  · exact hp p x hx' k hk

/-- Overwriting an element by one with the same home. -/
theorem pathFull_replace (hp : PathFull home s) (hi : At s i e) (hhome : home e' = home e) :
    PathFull home (s.set i (some e')) := by
  intro p x hx k hk
  rw [List.length_set] at hk ⊢
  apply full_set_some hi.lt
  rcases (at_set hi.lt).1 hx with ⟨rfl, hxe⟩ | ⟨-, hx'⟩
  · cases hxe
    rw [hhome] at hk ⊢; exact hp p e hi k hk
  · exact hp p x hx' k hk

/-! ## The hole left by a deletion -/

structure HoleInv (home : α → Nat) (s : Slots α) (h i : Nat) : Prop where
  hole : Empty s h
  ilt : i < s.length
  /-- every slot the scan has passed is occupied -/
  run : ∀ k, 0 < k → k ≤ dist s.length h i → Full s (adv s.length h k)
  /-- the hole is only on the path of elements the scan has not reached -/
  path : ∀ p e, At s p e → ∀ k, k < dist s.length (home e) p →
    Full s (adv s.length (home e) k) ∨
      (adv s.length (home e) k = h ∧ dist s.length h i < dist s.length h p)

theorem holeInv_start (hp : PathFull home s) (hi : At s i e) : HoleInv home (s.set i none) i i where
  hole := (empty_set hi.lt).2 (.inl ⟨rfl, rfl⟩)
  ilt := by rw [List.length_set]; exact hi.lt
  run k h0 hk := by rw [dist_self] at hk; omega
  path p x hx k hk := by
    rw [List.length_set] at hk ⊢
    rcases (at_set hi.lt).1 hx with ⟨-, hxe⟩ | ⟨hne, hx'⟩
    · cases hxe
    · by_cases hc : adv s.length (home x) k = i
      · right
        refine ⟨hc, ?_⟩
        rw [dist_self]
        exact Nat.pos_of_ne_zero fun h0 => hne (dist_eq_zero hi.lt h0).symm
      · exact .inl (full_set_none hi.lt (hp p x hx' k hk) hc)

/-- The scan passes an element whose home lies in the arc `(h, next i]`. -/
theorem holeInv_skip (hv : HoleInv home s h i) (ha : At s (next s.length i) e)
    (hhome : home e < s.length)
    (hin : 0 < dist s.length h (home e) ∧
      dist s.length h (home e) ≤ dist s.length h (next s.length i)) :
    HoleInv home s h (next s.length i) := by
  have hh := hv.hole.lt
  have hne : next s.length i ≠ h := fun hc => hv.hole.not_full ⟨e, hc ▸ ha⟩
  have hd := dist_next hh hv.ilt hne
  refine ⟨hv.hole, ha.lt, ?_, ?_⟩
  · intro k h0 hk
    rcases Nat.lt_or_ge (dist s.length h i) k with hlt | hle
    · have : k = dist s.length h (next s.length i) := by omega
      rw [this, adv_dist hh ha.lt]; exact ⟨e, ha⟩
    · exact hv.run k h0 hle
  · intro p x hx k hk
    rcases hv.path p x hx k hk with hf | ⟨hc, hlt⟩
    · exact .inl hf
    · refine .inr ⟨hc, ?_⟩
      rcases Nat.lt_or_ge (dist s.length h (next s.length i)) (dist s.length h p) with hlt' | hge
      · exact hlt'
      -- otherwise `p` is the slot just passed, whose path starts after the hole
      · have hpe : p = next s.length i := dist_inj hh hx.lt ha.lt (by omega)
        subst hpe
        have := ha.inj hx
        subst this
        exfalso
        have hway := dist_add hh ha.lt hhome hin.2
        have hkd := dist_adv hhome (k := k) (by have := dist_lt hhome ha.lt; omega)
        have hsw := dist_swap hh hhome (fun hq => by rw [← hq, dist_self] at hin; omega)
        have hlt1 := dist_lt hh ha.lt
        rw [hc] at hkd
        omega

/-- The scan shifts back an element whose home lies outside the arc. -/
theorem holeInv_move (hv : HoleInv home s h i) (ha : At s (next s.length i) e)
    (hhome : home e < s.length)
    (hout : ¬ (0 < dist s.length h (home e) ∧
      dist s.length h (home e) ≤ dist s.length h (next s.length i))) :
    HoleInv home ((s.set h (some e)).set (next s.length i) none) (next s.length i)
      (next s.length i) := by
  have hh := hv.hole.lt
  generalize hi' : next s.length i = i' at ha hout ⊢
  have hne : i' ≠ h := fun hc => hv.hole.not_full ⟨e, hc ▸ ha⟩
  have hvia := dist_via hh hhome hout
  have hlen : (s.set h (some e)).length = s.length := List.length_set
  have hi2 : i' < (s.set h (some e)).length := by rw [hlen]; exact ha.lt
  have hlen' : ((s.set h (some e)).set i' none).length = s.length := by simp
  refine ⟨(empty_set hi2).2 (.inl ⟨rfl, rfl⟩), by rw [hlen']; exact ha.lt, ?_, ?_⟩
  · intro k h0 hk; rw [hlen', dist_self] at hk; omega
  · intro p x hx k hk
    rw [hlen'] at hk ⊢
    rw [at_set hi2] at hx
    obtain ⟨-, hx⟩ | ⟨hpi, hx⟩ := hx
    · cases hx
    have hpos : dist s.length i' i' < dist s.length i' p := by
      rw [dist_self]
      exact Nat.pos_of_ne_zero fun h0 => hpi (dist_eq_zero ha.lt h0).symm
    by_cases hc : adv s.length (home x) k = i'
    · exact .inr ⟨hc, hpos⟩
    left
    apply full_set_none hi2 _ hc
    rcases (at_set hh).1 hx with ⟨rfl, hxe⟩ | ⟨-, hx'⟩
    · -- the shifted element: its path now ends at the old hole
      cases hxe
      rcases hv.path i' e ha k (by omega) with hf | ⟨hc', -⟩
      · exact full_set_some hh hf
      · have := dist_adv hhome (k := k) (by have := dist_lt hhome hh; omega)
        rw [hc'] at this; omega
    · rcases hv.path p x hx' k hk with hf | ⟨hc', -⟩
      · exact full_set_some hh hf
      · rw [hc']; exact ⟨e, (at_set hh).2 (.inl ⟨rfl, rfl⟩)⟩

/-- The scan reaches an empty slot. -/
theorem holeInv_stop (hv : HoleInv home s h i) (hhome : ∀ p e, At s p e → home e < s.length)
    (ha : Empty s (next s.length i)) : PathFull home s := by
  intro p x hx k hk
  rcases hv.path p x hx k hk with hf | ⟨hc, hlt⟩
  · exact hf
  exfalso
  have hh := hv.hole.lt
  have hxh := hhome p x hx
  have hdl := dist_lt hxh hx.lt
  have hkh : dist s.length (home x) h = k := by
    rw [← hc]; exact dist_adv hxh (by omega)
  have hway := dist_add hxh hx.lt hh (by omega)
  by_cases hne : next s.length i = h
  · -- the scan is back at the hole: it has passed every other slot
    have h1 := dist_lt hh hx.lt
    have h2 := dist_next_left hv.ilt hh
    rw [hne, dist_self] at h2
    by_cases hih : i = h
    · subst hih
      have : s.length = 1 := by
        unfold next at hne; split at hne <;> omega
      omega
    · have h3 := h2 hih
      have h4 := dist_swap hh hv.ilt (Ne.symm hih)
      omega
  · have hd := dist_next hh hv.ilt hne
    rcases Nat.lt_or_ge (dist s.length h (next s.length i)) (dist s.length h p) with hlt' | hge
    · -- the empty slot lies between the hole and `p`, so on the path of `x`
      have hpos : adv s.length (home x) (k + dist s.length h (next s.length i)) =
          next s.length i := by
        rw [← adv_adv hxh (by omega), hc, adv_dist hh ha.lt]
      rcases hv.path p x hx (k + dist s.length h (next s.length i)) (by omega) with hf | ⟨hq, -⟩
      · rw [hpos] at hf; exact ha.not_full hf
      · rw [hpos] at hq; exact hne hq
    · have : p = next s.length i := dist_inj hh hx.lt ha.lt (by omega)
      subst this; exact ha.not_full ⟨x, hx⟩

end Inmem.Core.Probe
