import DiskLayers.Proofs.Changes
import DiskLayers.World

/-!
# How operations end

An operation is judged by its result, by the moments it writes down, and by the world it leaves.

* `answersOf`          the calls of a list of moments with the answers they got
* `Linked`             moments that lead from one file system to another without a gap
* `World.Undisturbed`  the other processes, once they have their turn, leave the files alone
* `World.Kept`         locks and the turn of the others are what they were
* `World.Reaches`      all along the way nothing changed but at some trails
* `Act.Ends`           running an operation ends so that something holds of result, moments, world

Every `Ends` says that the moments are linked, so that nothing is left out of the journal.
-/

namespace DiskLayers

/-- moments that lead from one file system to another, each where the one before ended -/
def Linked : FileSystem → List Moment → FileSystem → Prop
  | fs, [], fs' => fs' = fs
  | fs, m :: ms, fs' => m.before = fs ∧ Linked m.after ms fs'

theorem Linked.append {fs fs' fs'' : FileSystem} {ms ms' : List Moment} (h : Linked fs ms fs')
    (h' : Linked fs' ms' fs'') : Linked fs (ms ++ ms') fs'' := by
  induction ms generalizing fs with
  | nil =>
    have e : fs' = fs := h
    rw [List.nil_append, ← e]
    exact h'
  | cons m ms ih => exact ⟨h.1, ih h.2⟩

/-- what holds of the files at the start and after every moment holds before every moment -/
theorem Linked.before {fs fs' : FileSystem} {ms : List Moment} {P : FileSystem → Prop}
    (h : Linked fs ms fs') (h0 : P fs) (hP : ∀ m ∈ ms, P m.after) : ∀ m ∈ ms, P m.before := by
  induction ms generalizing fs with
  | nil => intro m hm; cases hm
  | cons m ms ih =>
    intro m' hm'
    rcases List.mem_cons.mp hm' with rfl | hm'
    · rw [h.1]
      exact h0
    · exact ih h.2 (hP m List.mem_cons_self) (fun k hk => hP k (List.mem_cons_of_mem m hk)) m' hm'

/-- the call of a moment with its answer, if there was one -/
def Moment.answered? (m : Moment) : Option (Call × Except ToolError Unit) :=
  match m.event with
  | .called c r => some (c, r)
  | _ => none

def answersOf (ms : List Moment) : List (Call × Except ToolError Unit) :=
  ms.filterMap Moment.answered?

theorem answersOf_nil : answersOf [] = [] := rfl
theorem answersOf_append (ms ms' : List Moment) :
    answersOf (ms ++ ms') = answersOf ms ++ answersOf ms' := List.filterMap_append

theorem callsOf_append (ms ms' : List Moment) : callsOf (ms ++ ms') = callsOf ms ++ callsOf ms' :=
  List.filterMap_append

/-- where nothing is called before and in the end, the answers are those in between -/
theorem answersOf_between {ms₀ : List Moment} {m : Moment} (h : answersOf ms₀ = [])
    (hm : m.answered? = none) (ms : List Moment) : answersOf (ms₀ ++ (ms ++ [m])) = answersOf ms := by
  have hlast : answersOf [m] = [] := by
    rw [answersOf, List.filterMap_cons, hm]
    rfl
  rw [answersOf_append, answersOf_append, h, hlast, List.nil_append, List.append_nil]

theorem Moment.call?_eq (m : Moment) : m.call? = m.answered?.map Prod.fst := by
  obtain ⟨e, before, after⟩ := m
  cases e <;> rfl

theorem call?_of_silent {ms : List Moment} (h : answersOf ms = []) {m : Moment} (hm : m ∈ ms) :
    m.call? = none := by
  rw [m.call?_eq, List.filterMap_eq_nil_iff.mp h m hm]
  rfl

theorem callsOf_eq (ms : List Moment) : callsOf ms = (answersOf ms).map Prod.fst := by
  induction ms with
  | nil => rfl
  | cons m ms ih =>
    rw [callsOf, answersOf, List.filterMap_cons, List.filterMap_cons, m.call?_eq]
    cases m.answered? with
    | none => exact ih
    | some a => exact congrArg (a.1 :: ·) ih

namespace World

def Undisturbed (w : World σ) : Prop :=
  ∀ turn, w.meanwhile = some turn → ∀ shared, (turn shared).files = shared.files

structure Kept (w w' : World σ) : Prop where
  locked : w'.locked = w.locked
  meanwhile : w'.meanwhile = w.meanwhile

theorem Kept.refl (w : World σ) : Kept w w := ⟨rfl, rfl⟩

theorem meanwhile_note (w : World σ) (e : Event) (files : FileSystem) :
    (w.note e files).meanwhile = w.meanwhile := rfl
theorem files_note (w : World σ) (e : Event) (files : FileSystem) : (w.note e files).files = files :=
  rfl

theorem files_yield {w : World σ} {turn : Shared → Shared} (ht : w.meanwhile = some turn) :
    w.yield.files = (turn w.toShared).files := by
  rw [yield, ht]
  rfl

theorem Kept.trans {w w' w'' : World σ} (h : Kept w w') (h' : Kept w' w'') : Kept w w'' :=
  ⟨h'.locked.trans h.locked, h'.meanwhile.trans h.meanwhile⟩

theorem Kept.undisturbed {w w' : World σ} (h : Kept w w') (hw : w.Undisturbed) :
    w'.Undisturbed := by
  intro turn ht
  rw [h.meanwhile] at ht
  exact hw turn ht

/-- All along the way from one world to another nothing changed but at some trails, and nobody
else gets to change anything now who did not before. -/
structure Reaches (T : Set Trail) (w : World σ) (ms : List Moment) (w' : World σ) : Prop where
  undisturbed : w.Undisturbed → w'.Undisturbed
  within : FileSystem.Within T w.files w'.files
  before : ∀ m ∈ ms, FileSystem.Within T w.files m.before
  after : ∀ m ∈ ms, FileSystem.Within T w.files m.after

namespace Reaches
variable {T U : Set Trail} {w w' w'' : World σ} {ms ms' : List Moment}

theorem refl (T : Set Trail) (w : World σ) : w.Reaches T [] w :=
  ⟨id, .refl T _, fun _ hm => absurd hm List.not_mem_nil, fun _ hm => absurd hm List.not_mem_nil⟩

theorem of_note {w₀ : World σ} {e : Event} {files : FileSystem}
    (hu : w.Undisturbed → w₀.Undisturbed) (hw : FileSystem.Within T w.files files) :
    w.Reaches T [⟨e, w.files, files⟩] (w₀.note e files) := by
  refine ⟨hu, hw, fun m hm => ?_, fun m hm => ?_⟩
  · rcases List.mem_singleton.mp hm with rfl
    exact .refl T _
  · rcases List.mem_singleton.mp hm with rfl
    exact hw

theorem mono (h : w.Reaches T ms w') (hTU : T ⊆ U) : w.Reaches U ms w' :=
  ⟨h.undisturbed, h.within.mono hTU, fun m hm => (h.before m hm).mono hTU,
    fun m hm => (h.after m hm).mono hTU⟩

theorem trans (h : w.Reaches T ms w') (h' : w'.Reaches T ms' w'') : w.Reaches T (ms ++ ms') w'' := by
  refine ⟨h'.undisturbed ∘ h.undisturbed, h.within.trans h'.within, fun m hm => ?_, fun m hm => ?_⟩
  · rcases List.mem_append.mp hm with hm | hm
    · exact h.before m hm
    · exact h.within.trans (h'.before m hm)
  · rcases List.mem_append.mp hm with hm | hm
    · exact h.after m hm
    · exact h.within.trans (h'.after m hm)

end Reaches

end World

namespace Act
variable {σ ε ε' α β : Type}

theorem ext {act act' : Act σ ε α} (h : ∀ w, act.runIn w = act'.runIn w) : act = act' := funext h

theorem mapError_bind (g : ε → ε') (act : Act σ ε α) (f : α → Act σ ε β) :
    (act >>= f).mapError g = act.mapError g >>= fun a => (f a).mapError g := by
  apply ext
  intro w
  rw [runIn_mapError, runIn_bind, runIn_bind, runIn_mapError]
  rcases act.runIn w with ⟨r, w'⟩
  cases r <;> rfl

theorem mapError_mapError {ε'' : Type} (g : ε → ε') (g' : ε' → ε'') (act : Act σ ε α) :
    (act.mapError g).mapError g' = act.mapError (g' ∘ g) := by
  apply ext
  intro w
  rw [runIn_mapError, runIn_mapError, runIn_mapError]
  rcases act.runIn w with ⟨r, w'⟩
  cases r <;> rfl

/-- Running an operation ends so that `Q` holds of its result, its moments and the world it
leaves. -/
def Ends (act : Act σ ε α) (w : World σ) (Q : Except ε α → List Moment → World σ → Prop) : Prop :=
  ∃ ms, (act.runIn w).2.journal = w.journal ++ ms ∧ Linked w.files ms (act.runIn w).2.files ∧
    Q (act.runIn w).1 ms (act.runIn w).2

section
variable {w : World σ} {Q R : Except ε α → List Moment → World σ → Prop}

theorem Ends.mono {act : Act σ ε α} (h : act.Ends w Q)
    (hQ : ∀ r ms w', Q r ms w' → R r ms w') : act.Ends w R := by
  obtain ⟨ms, hj, hl, hq⟩ := h
  exact ⟨ms, hj, hl, hQ _ _ _ hq⟩

theorem Ends.of_runIn_eq {act act' : Act σ ε α} (h : act.Ends w Q)
    (he : act'.runIn w = act.runIn w) : act'.Ends w Q := by
  obtain ⟨ms, hj, hl, hq⟩ := h
  refine ⟨ms, ?_, ?_, ?_⟩
  · rw [he]; exact hj
  · rw [he]; exact hl
  · rw [he]; exact hq

theorem ends_of_runIn {act : Act σ ε α} {r : Except ε α} (h : act.runIn w = (r, w))
    (hQ : Q r [] w) : act.Ends w Q := by
  refine ⟨[], ?_, ?_, ?_⟩
  · rw [h, List.append_nil]
  · rw [h]
    rfl
  · rw [h]
    exact hQ

theorem ends_of_note {act : Act σ ε α} {r : Except ε α} {w₀ : World σ} {e : Event}
    {files : FileSystem} (h : act.runIn w = (r, w₀.note e files)) (hj : w₀.journal = w.journal)
    (hf : w₀.files = w.files) (hQ : Q r [⟨e, w.files, files⟩] (w₀.note e files)) :
    act.Ends w Q := by
  refine ⟨[⟨e, w.files, files⟩], ?_, ?_, ?_⟩
  · rw [h]
    show w₀.journal ++ [⟨e, w₀.files, files⟩] = _
    rw [hj, hf]
  · rw [h]
    exact ⟨rfl, rfl⟩
  · rw [h]
    exact hQ

theorem Ends.after_note {act act' : Act σ ε α} {w₀ : World σ} {e : Event} {files : FileSystem}
    (h : act'.Ends (w₀.note e files) fun r ms w' => Q r (⟨e, w.files, files⟩ :: ms) w')
    (he : act.runIn w = act'.runIn (w₀.note e files)) (hj : w₀.journal = w.journal)
    (hf : w₀.files = w.files) : act.Ends w Q := by
  obtain ⟨ms, hjournal, hl, hq⟩ := h
  refine ⟨⟨e, w.files, files⟩ :: ms, ?_, ?_, ?_⟩
  · rw [he, hjournal]
    show (w₀.journal ++ [⟨e, w₀.files, files⟩]) ++ ms = _
    rw [hj, hf, List.append_assoc]
    rfl
  · rw [he]
    exact ⟨rfl, hl⟩
  · rw [he]
    exact hq

theorem ends_pure {a : α} (hQ : Q (.ok a) [] w) : (pure a : Act σ ε α).Ends w Q :=
  ends_of_runIn (runIn_pure a w) hQ

theorem ends_throw {e : ε} (hQ : Q (.error e) [] w) : (throw e : Act σ ε α).Ends w Q :=
  ends_of_runIn (runIn_throw e w) hQ

/-- two operations, one after the other, with the moments of both -/
theorem Ends.bind {act : Act σ ε β} {f : β → Act σ ε α}
    {P : Except ε β → List Moment → World σ → Prop} (h : act.Ends w P)
    (hok : ∀ a ms w', P (.ok a) ms w' → (f a).Ends w' fun r ms' w'' => Q r (ms ++ ms') w'')
    (herr : ∀ e ms w', P (.error e) ms w' → Q (.error e) ms w') : (act >>= f).Ends w Q := by
  obtain ⟨ms, hj, hl, hp⟩ := h
  have hb := runIn_bind act f w
  cases hr : act.runIn w with
  | mk r w' =>
    rw [hr] at hj hl hp hb
    cases r with
    | error e =>
      refine ⟨ms, ?_, ?_, ?_⟩
      · rw [hb]; exact hj
      · rw [hb]; exact hl
      · rw [hb]; exact herr e ms w' hp
    | ok a =>
      obtain ⟨ms', hj', hl', hq⟩ := hok a ms w' hp
      refine ⟨ms ++ ms', ?_, ?_, ?_⟩
      · rw [hb]
        show ((f a).runIn w').2.journal = _
        rw [hj', hj, List.append_assoc]
      · rw [hb]; exact hl.append hl'
      · rw [hb]; exact hq

theorem Ends.mapError {f : ε' → ε} {act : Act σ ε' α}
    (h : act.Ends w fun r ms w' => Q (r.mapError f) ms w') : (act.mapError f).Ends w Q := by
  obtain ⟨ms, hj, hl, hq⟩ := h
  exact ⟨ms, hj, hl, hq⟩

/-- the same where the first operation gets another error -/
theorem Ends.bind_mapError {f : ε' → ε} {act : Act σ ε' β} {g : β → Act σ ε α}
    {P : Except ε' β → List Moment → World σ → Prop} (h : act.Ends w P)
    (hok : ∀ a ms w', P (.ok a) ms w' → (g a).Ends w' fun r ms' w'' => Q r (ms ++ ms') w'')
    (herr : ∀ e ms w', P (.error e) ms w' → Q (.error (f e)) ms w') :
    (act.mapError f >>= g).Ends w Q := by
  have h' : (act.mapError f).Ends w fun r ms w' => ∃ r', P r' ms w' ∧ r = r'.mapError f :=
    Ends.mapError (h.mono fun r ms w' hr => ⟨r, hr, rfl⟩)
  refine h'.bind ?_ ?_
  · rintro a ms w' ⟨r', hr, he⟩
    cases r' with
    | error e => cases he
    | ok b =>
      cases he
      exact hok _ ms w' hr
  · rintro e ms w' ⟨r', hr, he⟩
    cases r' with
    | ok b => cases he
    | error e' =>
      cases he
      exact herr _ ms w' hr

theorem ends_inspect_bind {g : FileSystem → β} {f : β → Act σ ε α}
    (h : (f (g w.files)).Ends w Q) : (inspect g >>= f).Ends w Q := by
  obtain ⟨ms, hj, hl, hq⟩ := h
  have hb : (inspect g >>= f).runIn w = (f (g w.files)).runIn w := by
    rw [runIn_bind, runIn_inspect]
  refine ⟨ms, ?_, ?_, ?_⟩
  · rw [hb]; exact hj
  · rw [hb]; exact hl
  · rw [hb]; exact hq

end

end Act

end DiskLayers
