import Inmem.Core.Prog
import Mathlib.Data.List.Basic
import Mathlib.Logic.Function.Basic

/-!
# Programs run side by side

A pool holds the programs of clients that share one state. A schedule says who
makes the next call, and in which surroundings `e : E` the call is made; a call is one
atomic step. `serially` runs the clients one after another, each with its own
surroundings.

The clients fall into components (`comp i`), and a component has a part of the state
to itself (`Local`). `NoOverlap` says that between two calls of one client no other
client of its component makes one.

* `project`: what the clients of a component do, and what becomes of its part, depends
  on the calls of that component alone.
* `interleave_noting`, `interleave_inv`: keeping notes of the answers, and what every call keeps.
* `serialises`: a schedule without overlap within a component comes to the same as
  running the clients in the order of their first calls.
-/
namespace Inmem.Core.Serial

variable {I E C : Type} {R : C → Type} {α S : Type}

/-! ## Schedules -/

section
variable (h : E → (c : C) → S → R c × S)

/-- The next call of a program; nothing once it has ended. -/
def advance (e : E) : Prog C R α → S → Prog C R α × S
  | .pure a, s => (.pure a, s)
  | .call c k, s => (k (h e c s).1, (h e c s).2)

/-- The calls of one program without a pause. -/
def alone (es : List E) (p : Prog C R α) (s : S) : Prog C R α × S :=
  es.foldl (fun m e => advance h e m.1 m.2) (p, s)

/-- The clients' programs, as far as they have come, and the state. -/
abbrev Pool (I C : Type) (R : C → Type) (α S : Type) := (I → Prog C R α) × S

variable [DecidableEq I]

/-- A client makes its next call. -/
def step (m : Pool I C R α S) (x : I × E) : Pool I C R α S :=
  let r := advance h x.2 (m.1 x.1) m.2
  (Function.update m.1 x.1 r.1, r.2)

def interleave (sched : List (I × E)) (m : Pool I C R α S) : Pool I C R α S :=
  sched.foldl (step h) m

/-- The surroundings of a client's own calls. -/
def own (sched : List (I × E)) (i : I) : List E := (sched.filter fun x => x.1 = i).map Prod.snd

/-- A client makes all its calls. -/
def turn (es : I → List E) (m : Pool I C R α S) (i : I) : Pool I C R α S :=
  let r := alone h (es i) (m.1 i) m.2
  (Function.update m.1 i r.1, r.2)

/-- The clients run one after another. -/
def serially (es : I → List E) (order : List I) (m : Pool I C R α S) : Pool I C R α S :=
  order.foldl (turn h es) m

theorem alone_pure (es : List E) (a : α) (s : S) :
    alone h es (.pure a : Prog C R α) s = (.pure a, s) := by
  induction es with
  | nil => rfl
  | cons e es ih => exact ih

/-- A client whose turn does not come stays as it is. -/
theorem serially_other (es : I → List E) {order : List I} {i : I} (hi : i ∉ order) :
    ∀ m : Pool I C R α S,
    (serially h es order m).1 i = m.1 i := by
  induction order with
  | nil => exact fun _ => rfl
  | cons j order ih =>
    intro m
    obtain ⟨hj, hrest⟩ : i ≠ j ∧ i ∉ order := by simpa using hi
    exact (ih hrest (turn h es m j)).trans (Function.update_of_ne hj _ _)

/-- The clients in the order of their first calls. -/
def clients (sched : List (I × E)) : List I := (sched.map Prod.fst).eraseDups

theorem mem_clients {sched : List (I × E)} {i : I} : i ∈ clients sched ↔ i ∈ sched.map Prod.fst :=
  List.mem_eraseDups

theorem filter_fst (sched : List (I × E)) (i : I) :
    (sched.map Prod.fst).filter (fun j => !j == i) =
      (sched.filter fun x => x.1 ≠ i).map Prod.fst := by
  rw [List.filter_map]
  congr 1
  exact List.filter_congr fun x _ => by by_cases hx : x.1 = i <;> simp [hx]

theorem clients_cons (x : I × E) (sched : List (I × E)) :
    clients (x :: sched) = x.1 :: clients (sched.filter fun y => y.1 ≠ x.1) := by
  unfold clients
  rw [List.map_cons, List.eraseDups_cons, filter_fst]

/-- Induction on a schedule, one client at a time. -/
theorem client_induction {P : List (I × E) → Prop} (nil : P [])
    (cons : ∀ x sched, P (sched.filter fun y => y.1 ≠ x.1) → P (x :: sched))
    (sched : List (I × E)) : P sched := by
  induction hn : sched.length using Nat.strongRecOn generalizing sched with
  | _ n ih =>
    cases sched with
    | nil => exact nil
    | cons x sched =>
      have hle := List.length_filter_le (fun y : I × E => decide (y.1 ≠ x.1)) sched
      rw [List.length_cons] at hn
      exact cons x sched (ih _ (by omega) _ rfl)

theorem clients_nodup (sched : List (I × E)) : (clients sched).Nodup := by
  induction sched using client_induction with
  | nil => exact .nil
  | cons x sched ih =>
    rw [clients_cons, List.nodup_cons]
    refine ⟨fun hx => ?_, ih⟩
    obtain ⟨y, hy, he⟩ := List.mem_map.1 (mem_clients.1 hx)
    simpa [he] using (List.mem_filter.1 hy).2

/-! ## One client after another, as a schedule -/

/-- The schedule that serves the clients in the order of their first calls. -/
def regroup (sched : List (I × E)) : List (I × E) :=
  (clients sched).flatMap fun i => sched.filter fun x => x.1 = i

/-- A client makes several calls in a row. -/
theorem interleave_own {i : I} {l : List (I × E)} (hl : ∀ x ∈ l, x.1 = i) : ∀ m : Pool I C R α S,
    interleave h l m =
      (Function.update m.1 i (alone h (l.map Prod.snd) (m.1 i) m.2).1,
        (alone h (l.map Prod.snd) (m.1 i) m.2).2) := by
  induction l with
  | nil => intro m; exact Prod.ext (Function.update_eq_self i m.1).symm rfl
  | cons x l ih =>
    intro m
    obtain rfl : x.1 = i := hl x List.mem_cons_self
    refine (ih (fun y hy => hl y (List.mem_cons_of_mem _ hy)) (step h m x)).trans ?_
    simp only [step, Function.update_self, Function.update_idem]
    rfl

theorem interleave_regroup (sched : List (I × E)) (m : Pool I C R α S) :
    interleave h (regroup sched) m = serially h (own sched) (clients sched) m := by
  unfold regroup serially
  induction clients sched generalizing m with
  | nil => rfl
  | cons i order ih =>
    rw [List.flatMap_cons, interleave, List.foldl_append, List.foldl_cons]
    have hturn : interleave h (sched.filter fun x => x.1 = i) m = turn h (own sched) m i :=
      interleave_own h (fun x hx => by simpa using (List.mem_filter.1 hx).2) m
    rw [← hturn]
    exact ih _

end

/-! ## What the clients were told -/

section
variable (h : E → (c : C) → S → R c × S)

/-- Note every call with its answer. -/
def noting (e : E) (c : C) (s : S × List ((c : C) × R c)) : R c × S × List ((c : C) × R c) :=
  ((h e c s.1).1, (h e c s.1).2, s.2 ++ [⟨c, (h e c s.1).1⟩])

variable [DecidableEq I]

/-- The notes change nothing else. -/
theorem interleave_noting (sched : List (I × E)) :
    ∀ (ps : I → Prog C R α) (s : S) (notes : List ((c : C) × R c)),
    (interleave (noting h) sched (ps, s, notes)).1 = (interleave h sched (ps, s)).1 ∧
      (interleave (noting h) sched (ps, s, notes)).2.1 = (interleave h sched (ps, s)).2 := by
  induction sched with
  | nil => exact fun ps s notes => ⟨rfl, rfl⟩
  | cons x sched ih =>
    intro ps s notes
    simp only [interleave, List.foldl_cons, step] at ih ⊢
    cases ps x.1 with
    | pure a => exact ih _ _ _
    | call c k => exact ih _ _ _

variable {h}

/-- An invariant that the clients' calls keep holds after any schedule. -/
theorem interleave_inv {P : C → Prop} {J : S → Prop} (hstep : ∀ e c s, P c → J s → J (h e c s).2)
    (sched : List (I × E)) :
    ∀ m : Pool I C R α S, (∀ i, (m.1 i).All P fun _ => True) → J m.2 →
      J (interleave h sched m).2 := by
  induction sched with
  | nil => exact fun m _ hJ => hJ
  | cons x sched ih =>
    intro m hP hJ
    refine ih (step h m x) (fun i => ?_) ?_
    · have hx := hP x.1
      by_cases hi : i = x.1
      · rw [step, hi]
        simp only [Function.update_self]
        cases hp : m.1 x.1 with
        | pure a => trivial
        | call c k => rw [hp] at hx; exact hx.2 _
      · rw [step]
        simp only [Function.update_of_ne hi]
        exact hP i
    · have hx := hP x.1
      rw [step]
      cases hp : m.1 x.1 with
      | pure a => exact hJ
      | call c k => rw [hp] at hx; exact hstep x.2 c m.2 hx.1 hJ

end

/-! ## Overlap -/

section
variable [DecidableEq I] {ι : Type} [DecidableEq ι] {comp : I → ι}

/-- Between two calls of one client, no other client that is related to it makes one. -/
def NoOverlap (r : I → I → Prop) : List I → Prop
  | [] => True
  | i :: l => l.Pairwise (fun j k => k = i → r i j → j = i) ∧ NoOverlap r l

instance decidableNoOverlap (r : I → I → Prop) [DecidableRel r] : ∀ l, Decidable (NoOverlap r l)
  | [] => .isTrue trivial
  | _ :: l =>
    have := decidableNoOverlap r l
    inferInstanceAs (Decidable (_ ∧ _))

omit [DecidableEq I] in
theorem NoOverlap.sublist {r : I → I → Prop} {l l' : List I} (hs : l'.Sublist l)
    (h : NoOverlap r l) : NoOverlap r l' := by
  induction hs with
  | slnil => trivial
  | cons i _ ih => exact ih h.2
  | cons_cons i hs ih => exact ⟨h.1.sublist hs, ih h.2⟩

omit [DecidableEq I] in
theorem NoOverlap.mono {r r' : I → I → Prop} (hr : ∀ i j, r' i j → r i j) {l : List I}
    (h : NoOverlap r l) : NoOverlap r' l := by
  induction l with
  | nil => trivial
  | cons i l ih => exact ⟨h.1.imp fun hjk hk hj => hjk hk (hr _ _ hj), ih h.2⟩

/-- A list whose elements with a property come first. -/
theorem filter_append_of_front {β : Type} {p : β → Bool} {l : List β}
    (h : l.Pairwise fun a b => p b = true → p a = true) :
    l.filter p ++ l.filter (fun a => !p a) = l := by
  induction l with
  | nil => rfl
  | cons a l ih =>
    obtain ⟨ha, hl⟩ := List.pairwise_cons.1 h
    cases hp : p a with
    | true => simp [hp, ih hl]
    | false =>
      have hno : ∀ b ∈ l, p b = false := fun b hb => by
        by_contra hc
        exact absurd (ha b hb (by simpa using hc)) (by simp [hp])
      have h1 : l.filter p = [] := List.filter_eq_nil_iff.2 fun b hb => by simp [hno b hb]
      have h2 : l.filter (fun a => !p a) = l := List.filter_eq_self.2 fun b hb => by simp [hno b hb]
      simp [hp, h1, h2]

theorem regroup_cons (x : I × E) (sched : List (I × E)) :
    regroup (x :: sched) = (x :: sched.filter fun y => y.1 = x.1) ++ regroup
      (sched.filter fun y => y.1 ≠ x.1) := by
  unfold regroup
  rw [clients_cons, List.flatMap_cons]
  congr 1
  · simp
  · refine List.flatMap_congr fun i hi => ?_
    obtain ⟨y, hy, rfl⟩ := List.mem_map.1 (mem_clients.1 hi)
    have hne : y.1 ≠ x.1 := by simpa using (List.mem_filter.1 hy).2
    rw [List.filter_cons_of_neg (by simpa using hne.symm), List.filter_filter]
    refine List.filter_congr fun z _ => ?_
    by_cases hz : z.1 = y.1 <;> simp [hz, hne]

/-- Without overlap, the calls of a component stay in their order. -/
theorem regroup_filter (z : ι) (sched : List (I × E))
    (hno : NoOverlap (fun i j => comp i = comp j) (sched.map Prod.fst)) :
    (regroup sched).filter (fun x => comp x.1 = z) = sched.filter fun x => comp x.1 = z := by
  induction sched using client_induction with
  | nil => rfl
  | cons x sched ih =>
    have hrest := ih (hno.2.sublist (List.filter_sublist.map _))
    rw [regroup_cons, List.filter_append, hrest, List.filter_filter]
    by_cases hz : comp x.1 = z
    · -- within the component, the other calls of this client come first
      have hfront : (sched.filter fun y => comp y.1 = z).Pairwise fun a b =>
          decide (b.1 = x.1) = true → decide (a.1 = x.1) = true := by
        refine (List.Pairwise.filter _ (List.pairwise_map.1 hno.1)).imp_of_mem
          fun {a b} ha _ hab hb => ?_
        have hza : comp a.1 = z := by simpa using (List.mem_filter.1 ha).2
        simpa using hab (by simpa using hb) (hz.trans hza.symm)
      rw [List.filter_cons_of_pos (by simpa using hz), List.filter_cons_of_pos (by simpa using hz),
        List.cons_append, ← filter_append_of_front hfront, List.filter_filter, List.filter_filter,
        List.filter_filter]
      congr 2
      · refine List.filter_congr fun y _ => ?_
        by_cases hy : y.1 = x.1 <;> simp [hy]
      · refine List.filter_congr fun y _ => ?_
        by_cases hy : y.1 = x.1 <;> simp [hy]
    · rw [List.filter_cons_of_neg (by simpa using hz), List.filter_cons_of_neg (by simpa using hz),
        List.filter_filter]
      have hnone : sched.filter (fun y => decide (comp y.1 = z) && decide (y.1 = x.1)) = [] :=
        List.filter_eq_nil_iff.2 fun y _ => by
          by_cases hy : y.1 = x.1 <;> simp [hy, hz]
      rw [hnone, List.nil_append]
      refine List.filter_congr fun y _ => ?_
      by_cases hy : y.1 = x.1 <;> simp [hy, hz]

end

/-! ## Locality -/

section
variable {ι L : Type}

/-- A call `T z c` of component `z` reads and changes the part `loc z` of the state
only. `J` is an invariant of the calls. -/
structure Local (h : E → (c : C) → S → R c × S) (J : S → Prop) (T : ι → C → Prop)
    (loc : ι → S → L) : Prop where
  keeps : ∀ {e c s z}, T z c → J s → J (h e c s).2
  answer : ∀ {e c s t z}, T z c → J s → J t → loc z s = loc z t →
    (h e c s).1 = (h e c t).1 ∧ loc z (h e c s).2 = loc z (h e c t).2
  frame : ∀ {e c s z y}, T z c → J s → y ≠ z → loc y (h e c s).2 = loc y s

variable [DecidableEq I] {comp : I → ι}
  {h : E → (c : C) → S → R c × S} {J : S → Prop} {T : ι → C → Prop} {loc : ι → S → L}

/-- Every client makes calls of its own component only. -/
structure Fits (J : S → Prop) (T : ι → C → Prop) (comp : I → ι) (m : Pool I C R α S) : Prop where
  inv : J m.2
  calls : ∀ i, (m.1 i).All (T (comp i)) fun _ => True

/-- The pools agree on what concerns component `z`. -/
structure Agree (comp : I → ι) (loc : ι → S → L) (z : ι) (m m' : Pool I C R α S) : Prop where
  progs : ∀ i, comp i = z → m.1 i = m'.1 i
  part : loc z m.2 = loc z m'.2

theorem Fits.step (hl : Local h J T loc) {m : Pool I C R α S} (hm : Fits J T comp m) (x : I × E) :
    Fits J T comp (step h m x) := by
  have hx := hm.calls x.1
  unfold Serial.step
  cases hp : m.1 x.1 with
  | pure a =>
    refine ⟨hm.inv, ?_⟩
    simp only [advance, ← hp, Function.update_eq_self]
    exact hm.calls
  | call c k =>
    rw [hp] at hx
    refine ⟨hl.keeps hx.1 hm.inv, fun i => ?_⟩
    by_cases hi : i = x.1
    · subst hi; simpa [advance] using hx.2 _
    · simpa [Function.update_of_ne hi] using hm.calls i

theorem Fits.interleave (hl : Local h J T loc) (sched : List (I × E)) :
    ∀ {m : Pool I C R α S}, Fits J T comp m →
    Fits J T comp (interleave h sched m) := by
  induction sched with
  | nil => exact fun hm => hm
  | cons x sched ih => exact fun hm => ih (hm.step hl x)

/-- A call of another component does not concern this one. -/
theorem Agree.skip (hl : Local h J T loc) {z : ι} {m m' : Pool I C R α S} (hm : Fits J T comp m)
    (ha : Agree comp loc z m m') {x : I × E} (hx : comp x.1 ≠ z) :
    Agree comp loc z (step h m x) m' := by
  refine ⟨fun i hi => ?_, ?_⟩
  · have hne : i ≠ x.1 := by rintro rfl; exact hx hi
    exact (Function.update_of_ne hne _ _).trans (ha.progs i hi)
  · have hcalls := hm.calls x.1
    unfold step
    cases hp : m.1 x.1 with
    | pure a => exact ha.part
    | call c k =>
      rw [hp] at hcalls
      exact (hl.frame hcalls.1 hm.inv hx.symm).trans ha.part

/-- Pools that agree on a component agree after a call of it. -/
theorem Agree.step (hl : Local h J T loc) {z : ι} {m m' : Pool I C R α S} (hm : Fits J T comp m)
    (hm' : Fits J T comp m') (ha : Agree comp loc z m m') {x : I × E} (hx : comp x.1 = z) :
    Agree comp loc z (step h m x) (step h m' x) := by
  have hcalls := hm.calls x.1
  unfold Serial.step
  rw [← ha.progs x.1 hx]
  cases hp : m.1 x.1 with
  | pure a =>
    refine ⟨fun i hi => ?_, ha.part⟩
    simp only [advance, Function.update_apply, ha.progs i hi]
  | call c k =>
    rw [hp, hx] at hcalls
    obtain ⟨h1, h2⟩ := hl.answer (e := x.2) hcalls.1 hm.inv hm'.inv ha.part
    refine ⟨fun i hi => ?_, h2⟩
    simp only [advance, Function.update_apply, h1, ha.progs i hi]

/-- **Projection.** What concerns a component depends on its own calls alone. -/
theorem project [DecidableEq ι] (hl : Local h J T loc) (z : ι) (sched : List (I × E)) :
    ∀ {m m' : Pool I C R α S},
    Fits J T comp m → Fits J T comp m' → Agree comp loc z m m' →
    Agree comp loc z (interleave h sched m)
      (interleave h (sched.filter fun x => comp x.1 = z) m') := by
  induction sched with
  | nil => intro m m' _ _ ha; exact ha
  | cons x sched ih =>
    intro m m' hm hm' ha
    by_cases hx : comp x.1 = z
    · rw [List.filter_cons_of_pos (by simpa using hx)]
      exact ih (hm.step hl x) (hm'.step hl x) (ha.step hl hm hm' hx)
    · rw [List.filter_cons_of_neg (by simpa using hx)]
      exact ih (hm.step hl x) hm' (ha.skip hl hm hx)

/-- **Serialisation.** If between two calls of a client no other client of its component
makes one, the clients end as if they had run one after another, and so does
every part of the state. -/
theorem serialises [DecidableEq ι] (hl : Local h J T loc) {m : Pool I C R α S}
    (hm : Fits J T comp m) {sched : List (I × E)}
    (hno : NoOverlap (fun i j => comp i = comp j) (sched.map Prod.fst)) :
    (interleave h sched m).1 = (serially h (own sched) (clients sched) m).1 ∧
      ∀ z, loc z (interleave h sched m).2 = loc z (serially h (own sched) (clients sched) m).2 := by
  have key : ∀ z, Agree comp loc z (interleave h sched m) (interleave h (regroup sched) m) := by
    intro z
    have h1 := project hl z sched hm hm ⟨fun _ _ => rfl, rfl⟩
    have h2 := project hl z (regroup sched) hm hm ⟨fun _ _ => rfl, rfl⟩
    rw [regroup_filter z sched hno] at h2
    exact ⟨fun i hi => (h1.progs i hi).trans (h2.progs i hi).symm, h1.part.trans h2.part.symm⟩
  rw [← interleave_regroup]
  exact ⟨funext fun i => (key (comp i)).progs i rfl, fun z => (key z).part⟩

end

end Inmem.Core.Serial
