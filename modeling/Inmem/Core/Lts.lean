import Mathlib.Data.List.Basic

/-!
# Labelled transition systems

A system is a partial step function: `step s l = none` when the move `l` cannot be
made in `s`. A run is a list of moves. A condition on moves holds `Along` a run when it
holds of each move in the state it is made in.

* `run_inv`: an invariant kept by the moves that meet the condition holds at the end of
  every run along which they do; `run_keeps` is the case of no condition.
* `run_iff`: a property that a move keeps exactly when it meets the condition holds at
  the end exactly when the condition holds along the run.
* `reached_iff`: the same for all the states of a run, when a move out of a state with the
  property keeps it exactly when it meets the condition.
* `splitFirst`: the first element with a property, and what is around it.
* `foldl_pull`: an action that commutes with those before it can be done first.
-/
namespace Inmem.Core.Lts

section
variable {S L : Type} (step : S → L → Option S)

/-- A run, if every move can be made. -/
def run : S → List L → Option S
  | s, [] => some s
  | s, l :: ls => (step s l).bind fun s' => run s' ls

/-- The condition holds of each move in the state it is made in. -/
def Along (P : S → L → Prop) : S → List L → Prop
  | _, [] => True
  | s, l :: ls => P s l ∧ ∀ s' ∈ step s l, Along P s' ls

instance decidableAlong (P : S → L → Prop) [∀ s l, Decidable (P s l)] :
    ∀ s ls, Decidable (Along step P s ls)
  | _, [] => .isTrue trivial
  | _, _ :: ls =>
    have : ∀ s', Decidable (Along step P s' ls) := fun s' => decidableAlong P s' ls
    inferInstanceAs (Decidable (_ ∧ _))

variable {step}

theorem Along.and_moves {P : S → L → Prop} {Q : L → Prop} {ls : List L} :
    ∀ {s : S}, Along step P s ls → (∀ l ∈ ls, Q l) →
    Along step (fun s l => P s l ∧ Q l) s ls := by
  induction ls with
  | nil => intro s _ _; trivial
  | cons l ls ih =>
    intro s h hq
    exact ⟨⟨h.1, hq l List.mem_cons_self⟩,
      fun s' hs => ih (h.2 s' hs) fun l' hl => hq l' (List.mem_cons_of_mem _ hl)⟩

theorem run_cons {s s' : S} {l : L} {ls : List L} (h : run step s (l :: ls) = some s') :
    ∃ t, step s l = some t ∧ run step t ls = some s' := Option.bind_eq_some_iff.1 h

theorem run_step {s t : S} {l : L} (h : step s l = some t) (ls : List L) :
    run step s (l :: ls) = run step t ls := by
  rw [run, h]; rfl

/-- An invariant kept by the moves that meet the condition holds at the end of a run. -/
theorem run_inv {P : S → L → Prop} {I : S → Prop}
    (h : ∀ s l s', I s → P s l → step s l = some s' → I s') {ls : List L} :
    ∀ {s s' : S}, I s → Along step P s ls → run step s ls = some s' → I s' := by
  induction ls with
  | nil => intro s s' hs _ hr; exact Option.some.inj hr ▸ hs
  | cons l ls ih =>
    intro s s' hs ha hr
    obtain ⟨t, ht, hr⟩ := run_cons hr
    exact ih (h s l t hs ha.1 ht) (ha.2 t ht) hr

/-- An invariant kept by every move holds at the end of a run. -/
theorem run_keeps {I : S → Prop} (h : ∀ s l s', I s → step s l = some s' → I s') {ls : List L} :
    ∀ {s s' : S}, I s → run step s ls = some s' → I s' := by
  induction ls with
  | nil => intro s s' hs hr; exact Option.some.inj hr ▸ hs
  | cons l ls ih =>
    intro s s' hs hr
    obtain ⟨t, ht, hr⟩ := run_cons hr
    exact ih (h s l t hs ht) hr

/-- A property that a move keeps exactly when it meets the condition holds at the end
of a run exactly when the condition holds along it. -/
theorem run_iff {P : S → L → Prop} {I : S → Prop}
    (h : ∀ s l s', step s l = some s' → (I s' ↔ I s ∧ P s l)) {ls : List L} :
    ∀ {s s' : S}, run step s ls = some s' → (I s' ↔ I s ∧ Along step P s ls) := by
  induction ls with
  | nil => intro s s' hr; rw [Option.some.inj hr]; exact ⟨fun hi => ⟨hi, trivial⟩, And.left⟩
  | cons l ls ih =>
    intro s s' hr
    obtain ⟨t, ht, hr⟩ := run_cons hr
    rw [ih hr, h s l t ht, and_assoc]
    have hnext : (∀ t' ∈ step s l, Along step P t' ls) ↔ Along step P t ls := by
      simp only [ht, Option.mem_some_iff, forall_eq']
    exact and_congr_right fun _ => and_congr_right fun _ => hnext.symm

/-- The states that a run passes through. -/
def Reached (step : S → L → Option S) (s : S) (ls : List L) (t : S) : Prop :=
  ∃ pre, pre <+: ls ∧ run step s pre = some t

theorem reached_self (s : S) (ls : List L) : Reached step s ls s := ⟨[], List.nil_prefix, rfl⟩

theorem reached_cons {s t : S} {l : L} (h : step s l = some t) {ls : List L} {u : S} :
    Reached step s (l :: ls) u ↔ u = s ∨ Reached step t ls u := by
  constructor
  · rintro ⟨pre, hp, hr⟩
    cases pre with
    | nil => exact .inl (Option.some.inj hr).symm
    | cons l' pre =>
      obtain ⟨rfl, hpre⟩ := List.cons_prefix_cons.1 hp
      rw [run_step h] at hr
      exact .inr ⟨pre, hpre, hr⟩
  · rintro (rfl | ⟨pre, hp, hr⟩)
    · exact reached_self u _
    · exact ⟨l :: pre, List.cons_prefix_cons.2 ⟨rfl, hp⟩, (run_step h pre).trans hr⟩

/-- All states of a run have the property exactly when the condition holds along it, if
a move out of a state with the property keeps it exactly when it meets the condition. -/
theorem reached_iff {P : S → L → Prop} {I : S → Prop}
    (h : ∀ s l s', I s → step s l = some s' → (I s' ↔ P s l)) {ls : List L} :
    ∀ {s s' : S}, I s → run step s ls = some s' →
    ((∀ t, Reached step s ls t → I t) ↔ Along step P s ls) := by
  induction ls with
  | nil =>
    intro s s' hs _
    refine ⟨fun _ => trivial, ?_⟩
    rintro - t ⟨pre, hp, hr⟩
    rw [List.prefix_nil.1 hp] at hr
    exact Option.some.inj hr ▸ hs
  | cons l ls ih =>
    intro s s' hs hr
    obtain ⟨t, ht, hr⟩ := run_cons hr
    simp only [reached_cons ht, forall_eq_or_imp, hs, true_and, Along, ht, Option.mem_some_iff,
      forall_eq']
    constructor
    · intro hall
      have hit : I t := hall t (reached_self t ls)
      exact ⟨(h s l t hs ht).1 hit, (ih hit hr).1 hall⟩
    · rintro ⟨hp, ha⟩
      exact (ih ((h s l t hs ht).2 hp) hr).2 ha

theorem run_append (ls ls' : List L) :
    ∀ s : S, run step s (ls ++ ls') = (run step s ls).bind fun t => run step t ls' := by
  induction ls with
  | nil => intro s; rfl
  | cons l ls ih =>
    intro s
    simp only [List.cons_append, run]
    cases step s l with
    | none => rfl
    | some t => exact ih t

/-- What holds along a run holds along its first part. -/
theorem Along.before {P : S → L → Prop} {ls ls' : List L} :
    ∀ {s : S}, Along step P s (ls ++ ls') → Along step P s ls := by
  induction ls with
  | nil => intro s _; trivial
  | cons l ls ih => intro s h; exact ⟨h.1, fun s' hs => ih (h.2 s' hs)⟩

/-- And along its second part. -/
theorem Along.after {P : S → L → Prop} {ls ls' : List L} :
    ∀ {s t : S}, Along step P s (ls ++ ls') → run step s ls = some t →
    Along step P t ls' := by
  induction ls with
  | nil => intro s t h hr; exact Option.some.inj hr ▸ h
  | cons l ls ih =>
    intro s t h hr
    obtain ⟨u, hu, hr⟩ := run_cons hr
    exact ih (h.2 u hu) hr

end

section
variable {A : Type}

/-- The first element with the property, with what precedes and what follows it. -/
def splitFirst (p : A → Bool) : List A → Option (List A × A × List A)
  | [] => none
  | a :: as => if p a then some ([], a, as) else (splitFirst p as).map fun r => (a :: r.1, r.2)

theorem splitFirst_eq {p : A → Bool} {as pre post : List A} {a : A}
    (h : splitFirst p as = some (pre, a, post)) : as = pre ++ a :: post ∧ p a = true := by
  induction as generalizing pre with
  | nil => cases h
  | cons b as ih =>
    unfold splitFirst at h
    split at h
    · rename_i hb; cases h; exact ⟨rfl, hb⟩
    · obtain ⟨⟨pre', r⟩, hr, he⟩ := Option.map_eq_some_iff.1 h
      cases he
      obtain ⟨rfl, hp⟩ := ih hr
      exact ⟨rfl, hp⟩

theorem splitFirst_none {p : A → Bool} {as : List A} (h : ∀ a ∈ as, p a = false) :
    splitFirst p as = none := by
  induction as with
  | nil => rfl
  | cons b as ih =>
    rw [splitFirst, h b List.mem_cons_self, ih fun a ha => h a (List.mem_cons_of_mem _ ha)]
    rfl

theorem splitFirst_append {p : A → Bool} {pre : List A} (h : ∀ a ∈ pre, p a = false) {a : A}
    (ha : p a = true) (post : List A) : splitFirst p (pre ++ a :: post) = some (pre, a, post) := by
  induction pre with
  | nil => simp [splitFirst, ha]
  | cons b pre ih =>
    rw [List.cons_append, splitFirst, h b List.mem_cons_self,
      ih fun a ha => h a (List.mem_cons_of_mem _ ha)]
    rfl

/-- An action that commutes with all those before it can be done first. -/
theorem foldl_pull {S : Type} {f : S → A → S} {a : A} {pre : List A}
    (h : ∀ b ∈ pre, ∀ s, f (f s b) a = f (f s a) b) (post : List A) (s : S) :
    (pre ++ a :: post).foldl f s = (a :: (pre ++ post)).foldl f s := by
  induction pre generalizing s with
  | nil => rfl
  | cons b pre ih =>
    have hb := h b List.mem_cons_self s
    have := ih (fun c hc => h c (List.mem_cons_of_mem _ hc)) (f s b)
    simp only [List.cons_append, List.foldl_cons] at this ⊢
    rw [this, hb]

end

end Inmem.Core.Lts
