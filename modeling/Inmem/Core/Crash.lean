import Inmem.Core.Serial

/-!
# Programs that are cut off

A program may be cut off after any of its calls, and each call may be made in any surroundings that
satisfy `A`. `Guarded h A I Q p s` says what is certain in spite of it when `p` starts in `s`: the
state satisfies `I` until `p` has ended, and if it ends with `a` the state satisfies `Q a`.

* `Guarded.advance`, `Guarded.alone`: it stays true along the calls.
* `Guarded.result`, `Guarded.running`: what it says of a program that has ended, and of one that has
  not.
* `Guarded.mono`, `Guarded.bind`: the rules to prove it with.

`Ends h A n p s`: the program has ended after at most `n` calls.
-/
namespace Inmem.Core.Crash

open Inmem.Core.Serial

variable {E C : Type} {R : C → Type} {α β S : Type} (h : E → (c : C) → S → R c × S) (A : E → Prop)

def Guarded (I : S → Prop) (Q : α → S → Prop) : Prog C R α → S → Prop
  | .pure a, s => Q a s
  | .call c k, s => I s ∧ ∀ e, A e → Guarded I Q (k (h e c s).1) (h e c s).2

variable {h A} {I : S → Prop} {Q : α → S → Prop} {p : Prog C R α} {s : S}

theorem Guarded.advance (hp : Guarded h A I Q p s) {e : E} (he : A e) :
    Guarded h A I Q (advance h e p s).1 (advance h e p s).2 := by
  cases p with
  | pure a => exact hp
  | call c k => exact hp.2 e he

theorem Guarded.alone {p : Prog C R α} {s : S} (hp : Guarded h A I Q p s) (es : List E)
    (hes : ∀ e ∈ es, A e) : Guarded h A I Q (alone h es p s).1 (alone h es p s).2 := by
  induction es generalizing p s with
  | nil => exact hp
  | cons e es ih =>
    exact ih (hp.advance (hes e List.mem_cons_self)) fun x hx => hes x (List.mem_cons_of_mem _ hx)

/-- What a program has ended with. -/
def result : Prog C R α → Option α
  | .pure a => some a
  | .call .. => none

theorem Guarded.result {a : α} (hp : Guarded h A I Q p s) (ha : result p = some a) : Q a s := by
  cases p with
  | pure b => exact Option.some.inj ha ▸ hp
  | call c k => cases ha

theorem Guarded.running (hp : Guarded h A I Q p s) (hnone : Crash.result p = none) : I s := by
  cases p with
  | pure a => cases hnone
  | call c k => exact hp.1

theorem Guarded.mono {Q' : α → S → Prop} (hp : Guarded h A I Q p s) (hQ : ∀ a s, Q a s → Q' a s) :
    Guarded h A I Q' p s := by
  induction p generalizing s with
  | pure a => exact hQ a s hp
  | call c k ih => exact ⟨hp.1, fun e he => ih _ (hp.2 e he)⟩

theorem Guarded.bind {Q' : β → S → Prop} {f : α → Prog C R β} (hp : Guarded h A I Q p s)
    (hf : ∀ a s, Q a s → Guarded h A I Q' (f a) s) : Guarded h A I Q' (p >>= f) s := by
  induction p generalizing s with
  | pure a => exact hf a s hp
  | call c k ih => exact ⟨hp.1, fun e he => ih _ (hp.2 e he)⟩

/-- What has ended stays as it is. -/
theorem alone_longer {es : List E} {a : α} {s' : S} (hend : alone h es p s = (.pure a, s'))
    (es' : List E) : alone h (es ++ es') p s = (.pure a, s') := by
  unfold alone at hend ⊢
  rw [List.foldl_append, hend]
  exact alone_pure h es' a s'

/-! ## Programs that end -/

variable (h A) in
def Ends : Nat → Prog C R α → S → Prop
  | _, .pure _, _ => True
  | 0, .call .., _ => False
  | n + 1, .call c k, s => ∀ e, A e → Ends n (k (h e c s).1) (h e c s).2

theorem ends_pure (n : Nat) (a : α) (s : S) : Ends h A n (.pure a : Prog C R α) s := by
  cases n <;> trivial

theorem Ends.mono {n n' : Nat} (hn : n ≤ n') {p : Prog C R α} {s : S} (hp : Ends h A n p s) :
    Ends h A n' p s := by
  induction n generalizing n' p s with
  | zero =>
    cases p with
    | pure a => exact ends_pure n' a s
    | call c k => exact hp.elim
  | succ n ih =>
    cases p with
    | pure a => exact ends_pure n' a s
    | call c k =>
      obtain ⟨n', rfl⟩ : ∃ m, n' = m + 1 := ⟨n' - 1, by omega⟩
      exact fun e he => ih (by omega) (hp e he)

theorem Ends.bind {n m : Nat} {f : α → Prog C R β} (hf : ∀ a s, Ends h A m (f a) s) {p : Prog C R α}
    {s : S} (hp : Ends h A n p s) : Ends h A (n + m) (p >>= f) s := by
  induction n generalizing p s with
  | zero =>
    cases p with
    | pure a => exact (hf a s).mono (Nat.le_add_left ..)
    | call c k => exact hp.elim
  | succ n ih =>
    cases p with
    | pure a => exact (hf a s).mono (Nat.le_add_left ..)
    | call c k =>
      rw [Nat.succ_add]
      exact fun e he => ih (hp e he)

theorem Ends.alone {n : Nat} {p : Prog C R α} {s : S} (hp : Ends h A n p s) (es : List E)
    (hes : ∀ e ∈ es, A e) (hn : n ≤ es.length) : ∃ a, Crash.result (alone h es p s).1 = some a := by
  induction es generalizing n p s with
  | nil =>
    cases p with
    | pure a => exact ⟨a, rfl⟩
    | call c k =>
      rw [Nat.le_zero.1 hn] at hp
      exact hp.elim
  | cons e es ih =>
    have htail : ∀ x ∈ es, A x := fun x hx => hes x (List.mem_cons_of_mem _ hx)
    cases p with
    | pure a => exact ih (ends_pure es.length a s) htail (Nat.le_refl _)
    | call c k =>
      cases n with
      | zero => exact hp.elim
      | succ n => exact ih (hp e (hes e List.mem_cons_self)) htail (Nat.le_of_succ_le_succ hn)

end Inmem.Core.Crash
