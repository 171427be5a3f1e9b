import Mathlib.Tactic.Common

/-!
# Programs that make calls

`Prog C R α` is a program that makes calls `c : C`, gets an answer of type
`R c` for each, and ends with an `α`. A handler says what a call answers and does
to a state; `run` executes a program with a handler.

* `All P Q p`: every call `p` can make satisfies `P` and every result `Q`,
  whatever the answers are. `all_run` turns it into an invariant rule.
* `run_sim`: two handlers that answer alike from related states run a program
  to related states with the same result.
* `marks D h p s`: the run makes a call that is answered in a way that `D` marks.
* `Announces D flag p`: once a call was answered in a way that `D` marks, `p` can
  only end with a flagged result. `announces_run`: what unmarked calls keep holds
  after every run that ends without the flag.
-/
namespace Inmem.Core

inductive Prog (C : Type) (R : C → Type) (α : Type) : Type
  | pure (a : α)
  | call (c : C) (k : R c → Prog C R α)

namespace Prog

variable {C : Type} {R : C → Type} {α β S T : Type}

def bind : Prog C R α → (α → Prog C R β) → Prog C R β
  | .pure a, f => f a
  | .call c k, f => .call c fun r => (k r).bind f

instance : Monad (Prog C R) where
  pure := .pure
  bind := bind

/-- Make one call and return its answer. -/
def ask (c : C) : Prog C R (R c) := .call c .pure

@[simp] theorem pure_eq (a : α) : (Pure.pure a : Prog C R α) = .pure a := rfl

@[simp] theorem pure_bind (a : α) (f : α → Prog C R β) : (Prog.pure a >>= f) = f a := rfl

@[simp] theorem call_bind (c : C) (k : R c → Prog C R α) (f : α → Prog C R β) :
    (Prog.call c k >>= f) = .call c fun r => k r >>= f := rfl

@[simp] theorem ask_bind (c : C) (f : R c → Prog C R β) : (ask c >>= f) = .call c f := rfl

theorem bind_assoc {γ : Type} (p : Prog C R α) (f : α → Prog C R β) (g : β → Prog C R γ) :
    (p >>= f) >>= g = p >>= fun a => f a >>= g := by
  induction p with
  | pure a => rfl
  | call c k ih => exact congrArg (Prog.call c) (funext ih)

/-- Execute a program. -/
def run (h : (c : C) → S → R c × S) : Prog C R α → S → α × S
  | .pure a, s => (a, s)
  | .call c k, s => (k (h c s).1).run h (h c s).2

@[simp] theorem run_pure (h : (c : C) → S → R c × S) (a : α) (s : S) :
    (Prog.pure a : Prog C R α).run h s = (a, s) :=
  rfl

@[simp] theorem run_call (h : (c : C) → S → R c × S) (c : C) (k : R c → Prog C R α) (s : S) :
    (Prog.call c k).run h s = (k (h c s).1).run h (h c s).2 := rfl

theorem run_bind (h : (c : C) → S → R c × S) (p : Prog C R α) (f : α → Prog C R β) (s : S) :
    (p >>= f).run h s = (f (p.run h s).1).run h (p.run h s).2 := by
  induction p generalizing s with
  | pure a => rfl
  | call c k ih => exact ih _ _

theorem run_ite (h : (c : C) → S → R c × S) {b : Prop} [Decidable b] (p q : Prog C R α) (s : S) :
    (if b then p else q).run h s = if b then p.run h s else q.run h s :=
  apply_ite (fun p => p.run h s) b p q

/-- Every call satisfies `P` and every result `Q`. -/
def All (P : C → Prop) (Q : α → Prop) : Prog C R α → Prop
  | .pure a => Q a
  | .call c k => P c ∧ ∀ r, (k r).All P Q

variable {P P' : C → Prop} {Q Q' : α → Prop}

theorem All.mono (hP : ∀ c, P c → P' c) (hQ : ∀ a, Q a → Q' a) {p : Prog C R α} (h : p.All P Q) :
    p.All P' Q' := by
  induction p with
  | pure a => exact hQ a h
  | call c k ih => exact ⟨hP c h.1, fun r => ih r (h.2 r)⟩

theorem All.bind {Q' : β → Prop} {p : Prog C R α} {f : α → Prog C R β} (h : p.All P Q)
    (hf : ∀ a, Q a → (f a).All P Q') : (p >>= f).All P Q' := by
  induction p with
  | pure a => exact hf a h
  | call c k ih => exact ⟨h.1, fun r => ih r (h.2 r)⟩

theorem All.ite {c : Prop} [Decidable c] {p q : Prog C R α} (hp : p.All P Q) (hq : q.All P Q) :
    (if c then p else q).All P Q := by
  split
  · exact hp
  · exact hq

theorem all_trivial (p : Prog C R α) : p.All (fun _ => True) fun _ => True := by
  induction p with
  | pure a => trivial
  | call c k ih => exact ⟨trivial, ih⟩

/-- An invariant kept by the calls a program makes holds at its end. -/
theorem all_run (h : (c : C) → S → R c × S) (I : S → Prop) (step : ∀ c s, P c → I s → I (h c s).2)
    {p : Prog C R α} (hp : p.All P Q) {s : S} (hs : I s) : Q (p.run h s).1 ∧ I (p.run h s).2 := by
  induction p generalizing s with
  | pure a => exact ⟨hp, hs⟩
  | call c k ih => exact ih _ (hp.2 _) (step c s hp.1 hs)

/-- Handlers that answer alike from related states run a program alike. -/
theorem run_sim (h : (c : C) → S → R c × S) (g : (c : C) → T → R c × T) (Rel : S → T → Prop)
    (step : ∀ c s t, P c → Rel s t → (h c s).1 = (g c t).1 ∧ Rel (h c s).2 (g c t).2)
    {p : Prog C R α} (hp : p.All P Q) {s : S} {t : T} (hs : Rel s t) :
    (p.run h s).1 = (p.run g t).1 ∧ Rel (p.run h s).2 (p.run g t).2 := by
  induction p generalizing s t with
  | pure a => exact ⟨rfl, hs⟩
  | call c k ih =>
    obtain ⟨h1, h2⟩ := step c s t hp.1 hs
    simp only [run_call, h1]
    exact ih _ (hp.2 _) h2

/-! ## Marked answers -/

variable {D : (c : C) → R c → Bool} {flag : α → Bool}

/-- The run makes a call whose answer `D` marks. -/
def marks (D : (c : C) → R c → Bool) (h : (c : C) → S → R c × S) : Prog C R α → S → Bool
  | .pure _, _ => false
  | .call c k, s => D c (h c s).1 || (k (h c s).1).marks D h (h c s).2

theorem marks_map (h : (c : C) → S → R c × S) (f : α → β) (p : Prog C R α) (s : S) :
    (p >>= fun a => .pure (f a)).marks D h s = p.marks D h s := by
  induction p generalizing s with
  | pure a => rfl
  | call c k ih => exact congrArg (D c (h c s).1 || ·) (ih _ _)

theorem marks_ite (h : (c : C) → S → R c × S) {b : Prop} [Decidable b] (p q : Prog C R α) (s : S) :
    (if b then p else q).marks D h s = if b then p.marks D h s else q.marks D h s :=
  apply_ite (fun p => p.marks D h s) b p q

/-- Handlers that answer alike from related states mark a program alike. -/
theorem marks_sim (h : (c : C) → S → R c × S) (g : (c : C) → T → R c × T) (Rel : S → T → Prop)
    (step : ∀ c s t, P c → Rel s t → (h c s).1 = (g c t).1 ∧ Rel (h c s).2 (g c t).2)
    {p : Prog C R α} (hp : p.All P Q) {s : S} {t : T} (hs : Rel s t) :
    p.marks D h s = p.marks D g t := by
  induction p generalizing s t with
  | pure a => rfl
  | call c k ih =>
    obtain ⟨h1, h2⟩ := step c s t hp.1 hs
    simp only [marks, h1]
    exact congrArg (D c (g c t).1 || ·) (ih _ (hp.2 _) h2)

/-! ## Programs that announce their effects -/

/-- After a call whose answer `D` marks, every result is flagged. -/
def Announces (D : (c : C) → R c → Bool) (flag : α → Bool) : Prog C R α → Prop
  | .pure _ => True
  | .call c k =>
    ∀ r, (D c r = true → (k r).All (fun _ => True) fun a => flag a = true) ∧ (k r).Announces D flag

/-- A program that always flags its result announces everything. -/
theorem All.announces_of_flag {p : Prog C R α} (h : p.All P fun a => flag a = true) :
    p.Announces D flag := by
  induction p with
  | pure a => trivial
  | call c k ih =>
    exact fun r => ⟨fun _ => (h.2 r).mono (fun _ _ => trivial) fun _ ha => ha, ih r (h.2 r)⟩

theorem Announces.ite {c : Prop} [Decidable c] {p q : Prog C R α} (hp : p.Announces D flag)
    (hq : q.Announces D flag) : (if c then p else q).Announces D flag := by
  split
  · exact hp
  · exact hq

theorem Announces.mono {flag' : α → Bool} (hf : ∀ a, flag a = true → flag' a = true)
    {p : Prog C R α} (h : p.Announces D flag) : p.Announces D flag' := by
  induction p with
  | pure a => trivial
  | call c k ih => exact fun r => ⟨fun hd => ((h r).1 hd).mono (fun _ hc => hc) hf, ih r (h r).2⟩

/-- A program that makes no marked call has nothing to announce. -/
theorem All.announces {p : Prog C R α} (h : p.All P Q) (hD : ∀ c r, P c → D c r = false) :
    p.Announces D flag := by
  induction p with
  | pure a => trivial
  | call c k ih => exact fun r => ⟨fun hd => absurd hd (by simp [hD c r h.1]), ih r (h.2 r)⟩

theorem all_map (f : α → β) {Q : β → Prop} {p : Prog C R α} :
    (p >>= fun a => .pure (f a)).All P Q ↔ p.All P fun a => Q (f a) := by
  induction p with
  | pure a => exact Iff.rfl
  | call c k ih => exact and_congr Iff.rfl (forall_congr' ih)

/-- What a program announces does not depend on how its result is presented. -/
theorem announces_map (f : α → β) {flag : β → Bool} {p : Prog C R α} :
    (p >>= fun a => .pure (f a)).Announces D flag ↔ p.Announces D fun a => flag (f a) := by
  induction p with
  | pure a => exact Iff.rfl
  | call c k ih => exact forall_congr' fun r => and_congr (imp_congr Iff.rfl (all_map f)) (ih r)

/-- What unmarked calls keep, a run without a flag keeps. -/
theorem announces_run (h : (c : C) → S → R c × S) (I : S → Prop)
    (step : ∀ c s, D c (h c s).1 = false → I s → I (h c s).2) {p : Prog C R α}
    (hp : p.Announces D flag) {s : S} (hs : I s) (hf : flag (p.run h s).1 = false) :
    I (p.run h s).2 := by
  induction p generalizing s with
  | pure a => exact hs
  | call c k ih =>
    have hd : D c (h c s).1 = false := by
      by_contra hne
      have hall := (hp (h c s).1).1 (by simpa using hne)
      have := (all_run h (fun _ => True) (fun _ _ _ _ => trivial) hall (s := (h c s).2) trivial).1
      rw [run_call, this] at hf
      cases hf
    exact ih _ (hp _).2 (step c s hd hs) hf

end Prog

end Inmem.Core
