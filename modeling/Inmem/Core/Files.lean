import Inmem.Core.Crash

/-!
# Files, and how one is replaced

`Fs` is a directory: names, each with the file it stands for, and the contents of the
files. A file that is open goes on being written when its name has been given to another
(a name stands for one file, and no file has two names).

`replace` is the usual way to replace a file as a whole: create another one beside it, write the
contents there, and give it the name. Every system call may fail, and a write may take a part
of what it is given.

* `replace_spec`: until it has ended the old file stands, whatever happens; when it has ended
  well the new one does, and else still the old one. No other name is touched.
* `replace_overlap`: this needs the other file for itself. Of two that run side by side
  one can end well and leave the name on an empty file.
-/
namespace Inmem.Core.Files

open Inmem.Core.Serial Inmem.Core.Crash

variable {N B X D : Type}

/-! ## The directory -/

structure Fs (N B : Type) where
  link : N → Option Nat
  data : Nat → List B
  next : Nat
  known : ∀ p i, link p = some i → i < next
  single : ∀ p q i, link p = some i → link q = some i → p = q

namespace Fs

def read (fs : Fs N B) (p : N) : Option (List B) := (fs.link p).map fs.data

/-- The file's contents, whatever its name. -/
def store (fs : Fs N B) (file : Nat) (bytes : List B) : Fs N B :=
  { fs with data := Function.update fs.data file bytes }

theorem read_store {fs : Fs N B} {file : Nat} {p : N} (h : fs.link p ≠ some file) (bytes : List B) :
    (fs.store file bytes).read p = fs.read p := by
  show (fs.link p).map (Function.update fs.data file bytes) = (fs.link p).map fs.data
  cases hp : fs.link p with
  | none => rfl
  | some i =>
    have hi : i ≠ file := fun he => h (he ▸ hp)
    rw [Option.map_some, Function.update_of_ne hi]
    rfl

/-- A file under one name is under no other. -/
theorem link_other {fs : Fs N B} {file : Nat} {p q : N} (h : fs.link p = some file) (hq : q ≠ p) :
    fs.link q ≠ some file :=
  fun h' => hq (fs.single q p file h' h)

variable [DecidableEq N]

/-- A name for a new file. -/
def add (fs : Fs N B) (p : N) : Fs N B where
  link q := if q = p then some fs.next else fs.link q
  data := Function.update fs.data fs.next []
  next := fs.next + 1
  known q i h := by
    have := fs.known q i
    grind
  single q r i hq hr := by
    have hnew := fun q => fs.known q fs.next
    have := fs.single q r i
    grind

/-- Open for writing: the file is emptied if it exists. -/
def create (fs : Fs N B) (p : N) : Nat × Fs N B :=
  match fs.link p with
  | some i => (i, fs.store i [])
  | none => (fs.next, fs.add p)

/-- Bytes in place of those at `pos`; a gap is filled. -/
def overwrite [Inhabited B] (d : List B) (pos : Nat) (bytes : List B) : List B :=
  (d ++ List.replicate (pos - d.length) default).take pos ++ (bytes ++ d.drop (pos + bytes.length))

def write [Inhabited B] (fs : Fs N B) (file pos : Nat) (bytes : List B) : Fs N B :=
  fs.store file (overwrite (fs.data file) pos bytes)

/-- Give the file of `p` the name `q`. -/
def move (fs : Fs N B) (p q : N) : Fs N B where
  link r := if r = q then fs.link p else if r = p then none else fs.link r
  data := fs.data
  next := fs.next
  known r i h := by
    have := fs.known p i
    have := fs.known r i
    grind
  single r r' i h h' := by
    have hp := fun r => fs.single p r i
    have := fs.single r r' i
    grind

/-- There has to be a file of this name. -/
def rename (fs : Fs N B) (p q : N) : Option (Fs N B) := (fs.link p).map fun _ => fs.move p q

theorem create_again (fs : Fs N B) {p : N} {file : Nat} (h : fs.link p = some file) :
    fs.create p = (file, fs.store file []) := by
  simp only [create, h]

theorem create_link (fs : Fs N B) (p : N) : (fs.create p).2.link p = some (fs.create p).1 := by
  unfold create
  cases h : fs.link p with
  | some i => exact h
  | none => exact if_pos rfl

theorem create_data (fs : Fs N B) (p : N) : (fs.create p).2.data (fs.create p).1 = [] := by
  unfold create
  cases fs.link p with
  | some i => exact Function.update_self ..
  | none => exact Function.update_self ..

theorem create_read (fs : Fs N B) {p q : N} (hq : q ≠ p) : (fs.create p).2.read q = fs.read q := by
  unfold create
  cases h : fs.link p with
  | some i => exact read_store (link_other h hq) []
  | none =>
    show (if q = p then some fs.next else fs.link q).map (Function.update fs.data fs.next []) = _
    rw [if_neg hq]
    exact read_store (fun h => absurd (fs.known q fs.next h) (Nat.lt_irrefl _)) []

theorem move_read {fs : Fs N B} {p q r : N} {file : Nat} (h : fs.link p = some file) (hr : r ≠ p) :
    (fs.move p q).read r = if r = q then some (fs.data file) else fs.read r := by
  show (if r = q then fs.link p else if r = p then none else fs.link r).map fs.data = _
  rw [if_neg hr, h]
  split <;> rfl

theorem overwrite_end [Inhabited B] (d bytes : List B) :
    overwrite d d.length bytes = d ++ bytes := by
  have hgap : d ++ List.replicate (d.length - d.length) default = d := by
    rw [Nat.sub_self]
    exact List.append_nil d
  rw [overwrite, hgap, List.take_length, List.drop_eq_nil_of_le (Nat.le_add_right ..),
    List.append_nil]

end Fs

/-! ## System calls -/

/-- Why it fails: no file has the name, a write (of a full buffer or of the contents) took
nothing, or a call failed for another reason. -/
inductive Failure (X : Type)
  | missing
  | zero (buffered : Bool)
  | other (e : X)
  deriving DecidableEq

/-- What becomes of a system call: it fails, or it goes through; a write then takes at
most so many bytes. -/
inductive Fate (X : Type)
  | fails (e : X)
  | takes (n : Nat)

/-- `produce` makes the contents. -/
inductive Call (N B : Type)
  | create (p : N)
  | produce
  | write (file pos : Nat) (bytes : List B)
  | rename (p q : N)

@[reducible] def Res (X : Type) : Call N B → Type
  | .create _ => Except (Failure X) Nat
  | .produce => List B
  | .write .. => Except (Failure X) Nat
  | .rename .. => Except (Failure X) Unit

/-- The directory, and what the contents were last made from. -/
structure Site (N B D : Type) where
  fs : Fs N B
  made : Option D

section
variable [DecidableEq N] [Inhabited B] (render : D → List B)

def exec : Fate X × D → (c : Call N B) → Site N B D → Res X c × Site N B D
  | (_, d), .produce, s => (render d, { s with made := some d })
  | (.fails e, _), .create _, s => (.error (.other e), s)
  | (.takes _, _), .create p, s => (.ok (s.fs.create p).1, { s with fs := (s.fs.create p).2 })
  | (.fails e, _), .write .., s => (.error (.other e), s)
  | (.takes n, _), .write file pos bytes, s =>
    (.ok (min n bytes.length), { s with fs := s.fs.write file pos (bytes.take n) })
  | (.fails e, _), .rename .., s => (.error (.other e), s)
  | (.takes _, _), .rename p q, s =>
    match s.fs.rename p q with
    | none => (.error .missing, s)
    | some fs => (.ok (), { s with fs })

end

/-! ## Programs -/

abbrev FileProg (N B X α : Type) := Prog (Call N B) (Res X) α

/-- Write all of it from `pos` on. On a failure, what is left and where. -/
def writeLoop (buffered : Bool) (file : Nat) :
    Nat → Nat → List B → FileProg N B X (Except (Failure X × Nat × List B) Unit)
  | _, _, [] => .pure (.ok ())
  | 0, pos, rest => .pure (.error (.zero buffered, pos, rest))
  | f + 1, pos, rest => .call (.write file pos rest) fun
    | .error e => .pure (.error (e, pos, rest))
    | .ok n =>
      if n = 0 then .pure (.error (.zero buffered, pos, rest))
      else writeLoop buffered file f (pos + n) (rest.drop n)

/-- Write through a buffer of `cap` bytes, and flush. Contents that fit into the buffer are still
there when the write fails: what is left of them is tried once more when the writer is dropped. -/
def bufWrite (cap file : Nat) (bytes : List B) : FileProg N B X (Except (Failure X) Unit) := do
  let buffered := decide (bytes.length < cap)
  let r ← writeLoop buffered file bytes.length 0 bytes
  match r with
  | .ok () => pure (.ok ())
  | .error (e, pos, rest) =>
    if buffered then do
      let _ ← (writeLoop buffered file bytes.length pos rest : FileProg N B X _)
      pure (.error e)
    else pure (.error e)

/-- Write the contents into `tmp`, and then give the file the name `path`. -/
def replace (cap : Nat) (tmp path : N) : FileProg N B X (Except (Failure X) Unit) :=
  .call (.create tmp) fun
    | .error e => .pure (.error e)
    | .ok file => .call .produce fun bytes => do
      let r ← bufWrite cap file bytes
      match r with
      | .error e => pure (.error e)
      | .ok () => .call (.rename tmp path) .pure

/-! ## What they leave -/

section
variable {tmp path : N} {file : Nat} {fs₀ : Fs N B} {s : Site N B D} {d : Option D}

/-- The directory is as before, but for `tmp`. -/
def Kept (tmp : N) (fs₀ : Fs N B) (s : Site N B D) : Prop := ∀ q ≠ tmp, s.fs.read q = fs₀.read q

/-- And `tmp` is the open file. -/
structure Beside (tmp : N) (file : Nat) (fs₀ : Fs N B) (d : Option D) (s : Site N B D) : Prop where
  linked : s.fs.link tmp = some file
  made : s.made = d
  kept : Kept tmp fs₀ s

theorem Beside.store (h : Beside tmp file fs₀ d s) (bytes : List B) :
    Beside tmp file fs₀ d { s with fs := s.fs.store file bytes } where
  linked := h.linked
  made := h.made
  kept q hq := (Fs.read_store (Fs.link_other h.linked hq) bytes).trans (h.kept q hq)

theorem take_append_drop_min (n : Nat) (l : List B) : l.take n ++ l.drop (min n l.length) = l := by
  rcases Nat.le_total n l.length with h | h
  · rw [Nat.min_eq_left h, List.take_append_drop]
  · rw [Nat.min_eq_right h, List.drop_length, List.append_nil, List.take_of_length_le h]

variable [DecidableEq N] [Inhabited B] {render : D → List B} {P : D → Prop}

/-- When all has been written, it stands behind what the file held up to `pos`. -/
theorem writeLoop_spec (buffered : Bool) (f : Nat) : ∀ (pos : Nat) (rest : List B) (s : Site N B D),
    Beside tmp file fs₀ d s → Guarded (exec (X := X) render) (fun e => P e.2) (Kept tmp fs₀)
      (fun r s' => Beside tmp file fs₀ d s' ∧
        (r = .ok () → (s.fs.data file).length = pos → s'.fs.data file = s.fs.data file ++ rest))
      (writeLoop buffered file f pos rest) s := by
  induction f with
  | zero =>
    intro pos rest s h
    cases rest with
    | nil => exact ⟨h, fun _ _ => (List.append_nil _).symm⟩
    | cons b t => exact ⟨h, fun hr => by cases hr⟩
  | succ f ih =>
    intro pos rest s h
    cases rest with
    | nil => exact ⟨h, fun _ _ => (List.append_nil _).symm⟩
    | cons b t =>
      refine ⟨h.kept, fun e _ => ?_⟩
      obtain ⟨fate, x⟩ := e
      generalize b :: t = rest
      cases fate with
      | fails e => exact ⟨h, fun hr => by cases hr⟩
      | takes n =>
        have hstore := h.store (Fs.overwrite (s.fs.data file) pos (rest.take n))
        show Guarded _ _ _ _ (if min n rest.length = 0 then _ else _) _
        by_cases hn : min n rest.length = 0
        · rw [if_pos hn]
          exact ⟨hstore, fun hr => by cases hr⟩
        rw [if_neg hn]
        refine (ih _ _ _ hstore).mono fun r s' hQ => ⟨hQ.1, fun hr hpos => ?_⟩
        have hdone : (s.fs.store file (Fs.overwrite (s.fs.data file) pos (rest.take n))).data file =
            s.fs.data file ++ rest.take n := by
          rw [← hpos, Fs.overwrite_end]
          exact Function.update_self ..
        rw [hQ.2 hr (by rw [hdone, List.length_append, hpos, List.length_take]), hdone,
          List.append_assoc, take_append_drop_min]

theorem bufWrite_spec (cap : Nat) (bytes : List B) (h : Beside tmp file fs₀ d s)
    (hempty : s.fs.data file = []) : Guarded (exec (X := X) render) (fun e => P e.2) (Kept tmp fs₀)
      (fun r s' => Beside tmp file fs₀ d s' ∧ (r = .ok () → s'.fs.data file = bytes))
        (bufWrite cap file bytes) s := by
  refine (writeLoop_spec _ bytes.length 0 bytes s h).bind fun r s' hQ => ?_
  rcases r with ⟨e, pos, rest⟩ | u
  · dsimp only
    split
    · exact (writeLoop_spec _ bytes.length pos rest s' hQ.1).bind fun _ _ hQ' =>
        ⟨hQ'.1, fun hr => by cases hr⟩
    · exact ⟨hQ.1, fun hr => by cases hr⟩
  · refine ⟨hQ.1, fun _ => ?_⟩
    rw [hQ.2 rfl (by rw [hempty]; rfl), hempty, List.nil_append]

/-- How it ended: the contents that were made are under the name `path`, or nothing has changed. -/
def Replaced (render : D → List B) (P : D → Prop) (tmp path : N) (fs₀ : Fs N B) :
    Except (Failure X) Unit → Site N B D → Prop
  | .ok (), s => ∃ d, P d ∧ s.made = some d ∧ s.fs.read path = some (render d) ∧
      ∀ q ≠ tmp, q ≠ path → s.fs.read q = fs₀.read q
  | .error _, s => Kept tmp fs₀ s

theorem exec_rename {p q : N} (h : s.fs.link p = some file) (n : Nat) (x : D) :
    exec (X := X) render (.takes n, x) (.rename p q) s =
      (.ok (), { s with fs := s.fs.move p q }) := by
  have hmove : s.fs.rename p q = some (s.fs.move p q) := by rw [Fs.rename, h]; rfl
  simp only [exec, hmove]

/-- **Replacing a file.** Until it has ended the file under `path` is the old one, and so is every
other file but `tmp`. If it ends well, the file is the new one. -/
theorem replace_spec (cap : Nat) (hne : path ≠ tmp) (s : Site N B D) :
    Guarded (exec (X := X) render) (fun e => P e.2) (Kept tmp s.fs)
      (Replaced render P tmp path s.fs)
      (replace cap tmp path) s := by
  have hcreated : ∀ d : Option D, Beside tmp (s.fs.create tmp).1 s.fs d ⟨(s.fs.create tmp).2, d⟩ :=
    fun d =>
    ⟨s.fs.create_link tmp, rfl, fun q hq => s.fs.create_read hq⟩
  refine ⟨fun _ _ => rfl, fun e _ => ?_⟩
  obtain ⟨fate, x⟩ := e
  cases fate with
  | fails e => exact fun _ _ => rfl
  | takes n =>
    refine ⟨(hcreated s.made).kept, fun e hx => ?_⟩
    obtain ⟨fate, x⟩ := e
    refine (bufWrite_spec cap (render x) (hcreated (some x)) (s.fs.create_data tmp)).bind
      fun r s' hQ => ?_
    cases r with
    | error e => exact hQ.1.kept
    | ok u =>
      refine ⟨hQ.1.kept, fun e _ => ?_⟩
      obtain ⟨fate, y⟩ := e
      cases fate with
      | fails e => exact hQ.1.kept
      | takes n =>
        show Replaced render P tmp path s.fs (exec render (.takes n, y) (.rename tmp path) s').1
          (exec render _ _ s').2
        rw [exec_rename hQ.1.linked]
        refine ⟨x, hx, hQ.1.made, ?_, fun q hq hqp => ?_⟩
        · rw [Fs.move_read hQ.1.linked hne, if_pos rfl, hQ.2 rfl]
        · rw [Fs.move_read hQ.1.linked hq, if_neg hqp]
          exact hQ.1.kept q hq

/-! ## It ends -/

theorem writeLoop_ends (buffered : Bool) (f : Nat) : ∀ (pos : Nat) (rest : List B) (s : Site N B D),
    Ends (exec (X := X) render) (fun e => P e.2) f (writeLoop buffered file f pos rest) s := by
  induction f with
  | zero =>
    intro pos rest s
    cases rest <;> exact ends_pure 0 _ s
  | succ f ih =>
    intro pos rest s
    cases rest with
    | nil => exact ends_pure _ _ s
    | cons b t =>
      intro e _
      obtain ⟨fate, x⟩ := e
      cases fate with
      | fails e => exact ends_pure f _ _
      | takes n =>
        show Ends _ _ f (if min n (b :: t).length = 0 then _ else _) _
        split
        · exact ends_pure f _ _
        · exact ih ..

theorem bufWrite_ends (cap : Nat) (bytes : List B) (s : Site N B D) :
    Ends (exec (X := X) render) (fun e => P e.2) (bytes.length + bytes.length)
      (bufWrite cap file bytes) s := by
  refine Ends.bind (fun r s' => ?_) (writeLoop_ends _ bytes.length 0 bytes s)
  rcases r with ⟨e, pos, rest⟩ | u
  · dsimp only
    split
    · exact Ends.bind (m := 0) (fun _ s'' => ends_pure 0 _ s'')
        (writeLoop_ends _ bytes.length pos rest s')
    · exact ends_pure _ _ s'
  · exact ends_pure _ _ s'

/-- The contents are written in at most as many writes as they have bytes, and tried again in as
many. -/
theorem replace_ends (cap : Nat) {m : Nat} (hm : ∀ d, P d → (render d).length ≤ m)
    (s : Site N B D) :
    Ends (exec (X := X) render) (fun e => P e.2) (2 * m + 3) (replace cap tmp path) s := by
  intro e _
  obtain ⟨fate, x⟩ := e
  cases fate with
  | fails e => exact ends_pure _ _ _
  | takes n =>
    intro e hx
    obtain ⟨fate, x⟩ := e
    have hlen := hm x hx
    refine (Ends.bind (m := 1) (fun r s' => ?_) (bufWrite_ends cap (render x) _)).mono (by omega)
    cases r with
    | error e => exact ends_pure 1 _ s'
    | ok u => exact fun e _ => ends_pure 0 _ _

/-! ## Two at a time -/

/-- When all calls go through at once, this is before the last. -/
theorem replace_written (cap : Nat) (s : Site N B D) {d : D} (hd : render d ≠ []) :
    alone (exec (X := X) render) (List.replicate 3 (.takes (render d).length, d))
      (replace cap tmp path) s =
      (.call (.rename tmp path) .pure,
        ⟨(s.fs.create tmp).2.write (s.fs.create tmp).1 0 (render d), some d⟩) := by
  obtain ⟨b, t, hbt⟩ := List.exists_cons_of_ne_nil hd
  show advance (exec render) _ (bufWrite cap (s.fs.create tmp).1 (render d) >>= _)
    ⟨(s.fs.create tmp).2, some d⟩ = _
  rw [hbt, bufWrite]
  simp [writeLoop, advance, exec]

/-- **Two at a time.** Both write into one file: the second empties it when the first has
written its contents, and the first goes on, gives the empty file its name and ends well. -/
theorem replace_overlap (cap : Nat) (hne : path ≠ tmp) (s : Site N B D) {d : D}
    (hd : render d ≠ []) :
    let e : Fate X × D := (.takes (render d).length, d)
    let m := interleave (exec render) [(true, e), (true, e), (true, e), (false, e), (true, e)]
      (fun _ => replace cap tmp path, s)
    m.1 true = .pure (.ok ()) ∧ m.2.fs.read path = some [] := by
  intro e m
  have hfirst :=
    interleave_own (exec (X := X) render) (i := true) (l := List.replicate 3 (true, e)) (by simp)
    (fun _ => replace cap tmp path, s)
  rw [List.map_replicate, replace_written cap s hd] at hfirst
  set written :=
    interleave (exec render) (List.replicate 3 (true, e)) (fun _ => replace cap tmp path, s)
  set fs := (s.fs.create tmp).2.write (s.fs.create tmp).1 0 (render d)
  have hlink : fs.link tmp = some (s.fs.create tmp).1 := s.fs.create_link tmp
  have hemptied : (step (exec render) written (false, e)).1 true = .call (.rename tmp path) .pure ∧
      (step (exec render) written (false, e)).2 = ⟨(fs.create tmp).2, some d⟩ := by
    rw [hfirst]
    exact ⟨rfl, rfl⟩
  rw [fs.create_again hlink] at hemptied
  have hm : m = step (exec render) (step (exec render) written (false, e)) (true, e) := rfl
  rw [hm, step]
  dsimp only
  rw [hemptied.1, hemptied.2, advance, exec_rename (show (fs.store _ []).link tmp = _ from hlink),
    Function.update_self]
  refine ⟨rfl, ?_⟩
  rw [Fs.move_read (show (fs.store _ []).link tmp = _ from hlink) hne, if_pos rfl]
  exact congrArg some (Function.update_self ..)

end

end Inmem.Core.Files
