import Inmem.Core.Lts

/-!
# Looking at the parts of a state one after another

A reader looks at the parts of a state one by one, while others act on the state in
between. What it has seen at the end need not be any state there ever was: an action
may change a part it has already looked at, and a later one a part that it has yet to.

* `seen_moment`: each part has been seen as it was at one moment of the scan.
* `seen_at`: if up to some moment the actions leave alone what the reader has seen, and
  from then on what it has yet to see, then it has seen the state of that moment.
-/
namespace Inmem.Core.Scan

/-- A state of `size` parts: `look i` is what a reader sees of part `i`. -/
structure System (S A O : Type) where
  size : Nat
  act : S → A → S
  look : Nat → S → O

/-- A reader on its way. -/
structure Reader (S O : Type) where
  state : S
  seen : List O

inductive Move (A : Type)
  | act (a : A)
  | look

section
variable {S A O : Type} (sys : System S A O)

/-- One move, while the scan is not over. -/
def step (c : Reader S O) (m : Move A) : Option (Reader S O) :=
  if c.seen.length < sys.size then
    match m with
    | .act a => some { c with state := sys.act c.state a }
    | .look => some { c with seen := c.seen ++ [sys.look c.seen.length c.state] }
  else none

variable {V : Type} (part : Nat → S → V)

/-- The action leaves alone what has been seen. -/
def Ahead (c : Reader S O) : Move A → Prop
  | .act a => ∀ i < c.seen.length, part i (sys.act c.state a) = part i c.state
  | .look => True

/-- The action leaves alone what has yet to be seen. -/
def Behind (c : Reader S O) : Move A → Prop
  | .act a => ∀ i, c.seen.length ≤ i → part i (sys.act c.state a) = part i c.state
  | .look => True

variable (Shows : O → V → Prop)

/-- So far, the scan shows the state `s`; and it will, if what it has yet to see stays
as it is. -/
structure Agrees (s : S) (c : Reader S O) : Prop where
  seen : ∀ i o, c.seen[i]? = some o → Shows o (part i s)
  rest : ∀ i, c.seen.length ≤ i → part i c.state = part i s

variable {sys part Shows}

theorem step_act {c c' : Reader S O} {a : A} (h : step sys c (.act a) = some c') :
    c' = { c with state := sys.act c.state a } := by
  unfold step at h
  split at h
  · exact (Option.some.inj h).symm
  · cases h

theorem step_look {c c' : Reader S O} (h : step sys c .look = some c') :
    c.seen.length < sys.size ∧ c' =
      { c with seen := c.seen ++ [sys.look c.seen.length c.state] } := by
  unfold step at h
  split at h
  · rename_i hlt
    exact ⟨hlt, (Option.some.inj h).symm⟩
  · cases h

theorem Agrees.look {s : S} {c c' : Reader S O} (h : Agrees part Shows s c)
    (hs : step sys c .look = some c')
    (hlook : ∀ i < sys.size, Shows (sys.look i c.state) (part i c.state)) :
    Agrees part Shows s c' := by
  obtain ⟨hlt, rfl⟩ := step_look hs
  refine ⟨fun i o ho => ?_, fun i hi => h.rest i ?_⟩
  · rcases Nat.lt_or_ge i c.seen.length with hi | hi
    · rw [List.getElem?_append_left hi] at ho
      exact h.seen i o ho
    · -- the part just looked at
      rw [List.getElem?_append_right hi, List.getElem?_singleton] at ho
      split at ho
      · rename_i hz
        obtain rfl : i = c.seen.length := by omega
        cases ho
        rw [← h.rest _ (Nat.le_refl _)]
        exact hlook _ hlt
      · cases ho
  · rw [List.length_append] at hi
    omega

theorem Agrees.behind {s : S} {c : Reader S O} {a : A} (h : Agrees part Shows s c)
    (ha : Behind sys part c (.act a)) : Agrees part Shows s { c with state := sys.act c.state a } :=
  ⟨h.seen, fun i hi => (ha i hi).trans (h.rest i hi)⟩

theorem Agrees.ahead {c : Reader S O} {a : A} (h : Agrees part Shows c.state c)
    (ha : Ahead sys part c (.act a)) :
    Agrees part Shows (sys.act c.state a) { c with state := sys.act c.state a } := by
  refine ⟨fun i o ho => ?_, fun i _ => rfl⟩
  have hi : i < c.seen.length := (List.getElem?_eq_some_iff.1 ho).1
  rw [ha i hi]
  exact h.seen i o ho

/-- **A scan at one moment.** The scan starts in `s` and ends in `last`. Up to `mid` the
moves meet `P`, by which they leave alone what has been seen, and from then on `Q`, by
which they leave alone what has yet to be seen. Then what has been seen is what there
was to see in `mid`. `I` is an invariant of the states, under which `look` shows a part
as it is. -/
theorem seen_at {I : S → Prop} {P Q : Reader S O → Move A → Prop} {s : S} (hI : I s)
    (hkeep : ∀ c m c', I c.state → P c m ∨ Q c m → step sys c m = some c' → I c'.state)
    (hlook : ∀ s, I s → ∀ i < sys.size, Shows (sys.look i s) (part i s))
    (hP : ∀ c m, I c.state → P c m → Ahead sys part c m)
    (hQ : ∀ c m, I c.state → Q c m → Behind sys part c m) {pre post : List (Move A)}
    {mid last : Reader S O} (hpre : Lts.run (step sys) ⟨s, []⟩ pre = some mid)
    (hpost : Lts.run (step sys) mid post = some last) (hahead : Lts.Along (step sys) P ⟨s, []⟩ pre)
    (hbehind : Lts.Along (step sys) Q mid post) :
    ∀ i o, last.seen[i]? = some o → Shows o (part i mid.state) := by
  have hstart : Agrees part Shows s (⟨s, []⟩ : Reader S O) :=
    ⟨fun i o ho => by simp at ho, fun _ _ => rfl⟩
  have hmid : I mid.state ∧ Agrees part Shows mid.state mid := by
    refine Lts.run_inv (I := fun c : Reader S O => I c.state ∧ Agrees part Shows c.state c) ?_
      ⟨hI, hstart⟩ hahead hpre
    rintro c m c' ⟨hi, hc⟩ hp hs
    refine ⟨hkeep c m c' hi (.inl hp) hs, ?_⟩
    cases m with
    | act a =>
      rw [step_act hs]
      exact hc.ahead (hP c _ hi hp)
    | look =>
      rw [show c'.state = c.state by rw [(step_look hs).2]]
      exact hc.look hs (hlook c.state hi)
  have hlast : I last.state ∧ Agrees part Shows mid.state last := by
    refine Lts.run_inv (I := fun c : Reader S O => I c.state ∧
      Agrees part Shows mid.state c) ?_ hmid hbehind hpost
    rintro c m c' ⟨hi, hc⟩ hq hs
    refine ⟨hkeep c m c' hi (.inr hq) hs, ?_⟩
    cases m with
    | act a =>
      rw [step_act hs]
      exact hc.behind (hQ c _ hi hq)
    | look => exact hc.look hs (hlook c.state hi)
  exact hlast.2.seen

/-- What has been seen stays seen. -/
theorem seen_isPrefix {moves : List (Move A)} :
    ∀ {c c' : Reader S O}, Lts.run (step sys) c moves = some c' → c.seen <+: c'.seen := by
  induction moves with
  | nil => intro c c' h; exact Option.some.inj h ▸ List.prefix_refl _
  | cons m moves ih =>
    intro c c' h
    obtain ⟨t, ht, h⟩ := Lts.run_cons h
    refine List.IsPrefix.trans ?_ (ih h)
    cases m with
    | act a => exact (congrArg Reader.seen (step_act ht)).symm ▸ List.prefix_refl _
    | look => rw [(step_look ht).2]; exact List.prefix_append _ _

/-- Every part has been seen as it was at one moment. -/
theorem seen_moment {moves : List (Move A)} :
    ∀ {c c' : Reader S O}, Lts.run (step sys) c moves = some c' →
    ∀ {i o}, c.seen.length ≤ i → c'.seen[i]? = some o →
      ∃ pre post mid, moves = pre ++ .look :: post ∧ Lts.run (step sys) c pre = some mid ∧
      mid.seen.length = i ∧
        o = sys.look i mid.state := by
  induction moves with
  | nil =>
    intro c c' h i o hi ho
    rw [Option.some.inj h] at hi
    have := (List.getElem?_eq_some_iff.1 ho).1
    omega
  | cons m moves ih =>
    intro c c' h i o hi ho
    obtain ⟨t, ht, htail⟩ := Lts.run_cons h
    -- a moment later in the run is one in the whole run
    have hlater : t.seen.length ≤ i → ∃ pre post mid, m :: moves = pre ++ .look :: post ∧
        Lts.run (step sys) c pre = some mid ∧ mid.seen.length = i ∧ o = sys.look i mid.state := by
      intro hi
      obtain ⟨pre, post, mid, rfl, hpre, hlen, hlook⟩ := ih htail hi ho
      exact ⟨m :: pre, post, mid, rfl, (Lts.run_step ht pre).trans hpre, hlen, hlook⟩
    cases m with
    | act a => exact hlater (by rw [step_act ht]; exact hi)
    | look =>
      have hseen : t.seen = c.seen ++ [sys.look c.seen.length c.state] := by rw [(step_look ht).2]
      rcases Nat.eq_or_lt_of_le hi with rfl | hlt
      · refine ⟨[], moves, c, rfl, rfl, rfl, ?_⟩
        obtain ⟨rest, hrest⟩ := seen_isPrefix htail
        rw [← hrest, hseen, List.append_assoc, List.getElem?_append_right (Nat.le_refl _),
          Nat.sub_self] at ho
        exact (Option.some.inj ho).symm
      · exact hlater (by rw [hseen, List.length_append]; exact hlt)

/-- With no action in between, the scan sees the parts of the state it starts in. -/
theorem scan_alone (s : S) (n : Nat) (hn : n ≤ sys.size) :
    Lts.run (step sys) ⟨s, []⟩ (List.replicate n .look) =
      some ⟨s, (List.range n).map fun i => sys.look i s⟩ := by
  induction n with
  | zero => rfl
  | succ n ih =>
    have hlt : n < sys.size := hn
    rw [List.replicate_succ', Lts.run_append, ih (Nat.le_of_lt hlt)]
    simp only [Option.bind_some, Lts.run, step, List.length_map, List.length_range, hlt, if_true]
    rw [List.range_succ, List.map_append]
    rfl

end

end Inmem.Core.Scan
