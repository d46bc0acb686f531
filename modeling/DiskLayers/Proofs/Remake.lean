import DiskLayers.Build.Context
import DiskLayers.Proofs.Calls

/-!
# Making a disk anew

* `Layer.LiesIn`   the files of a layer lie in a directory, under the name of its key
* `Layer.trails`   the trails of its disk and its marker
* `Layer.remake`   the old disk goes, the marker comes, calls are made, the marker goes
* `Remade`         what comes of that

`ends_remake` says that nothing but `Remade` can come of it: a disk that is not finished is never
whole, at no moment.
-/

namespace DiskLayers
open DiskLayers.Path

structure Layer.LiesIn (l : Layer) (dir : Path) (d : Trail) (fs : FileSystem) : Prop where
  valid : isValidName l.identity.name = true
  location : l.location = dir.join (diskName l.identity.name)
  leads : fs.lookup dir = .ok (d, .dir)

namespace Layer

/-- the trail of the disk of a layer in a directory -/
def diskTrail (l : Layer) (d : Trail) : Trail := diskName l.identity.name :: d

/-- the trail of its marker -/
def markerTrail (l : Layer) (d : Trail) : Trail := markerName l.identity.name :: d

def trails (l : Layer) (d : Trail) : Set Trail := {l.diskTrail d, l.markerTrail d}

theorem markerTrail_ne_diskTrail (l : Layer) (d : Trail) : l.markerTrail d ≠ l.diskTrail d :=
  fun h => diskName_ne_markerName _ _ (List.cons.inj h).1.symm

theorem diskTrail_subset (l : Layer) (d : Trail) : {l.diskTrail d} ⊆ l.trails d :=
  fun _ h => Or.inl h
theorem markerTrail_subset (l : Layer) (d : Trail) : {l.markerTrail d} ⊆ l.trails d :=
  fun _ h => Or.inr h

namespace LiesIn
variable {l : Layer} {dir : Path} {d : Trail} {fs fs' : FileSystem} {T : Set Trail}

theorem within (h : l.LiesIn dir d fs) (hw : FileSystem.Within T fs fs') : l.LiesIn dir d fs' :=
  ⟨h.valid, h.location, hw.lookup_dir h.leads⟩

theorem marker (h : l.LiesIn dir d fs) : l.marker = dir.join (markerName l.identity.name) := by
  rw [Layer.marker, h.location]
  exact markerOf_join h.valid (FileSystem.lookup_eq_dir.mp h.leads).1.ne_nil

theorem isWhole_iff (h : l.LiesIn dir d fs) : fs.isWhole l.location = true ↔
    (dir.Fits (diskName l.identity.name) ∧ ∃ b c, fs.node? (l.diskTrail d) = some (.file b c)) ∧
      (dir.Fits (markerName l.identity.name) → fs.node? (l.markerTrail d) = none) := by
  rw [h.location]
  exact FileSystem.isWhole_join h.leads h.valid

theorem isWhole_within (h : l.LiesIn dir d fs) (hw : FileSystem.Within T fs fs')
    (hd : l.diskTrail d ∉ T) (hm : l.markerTrail d ∉ T) :
    fs'.isWhole l.location = fs.isWhole l.location := by
  rw [h.location]
  exact hw.isWhole_join h.leads h.valid hd hm

theorem lookup_eq_error (h : l.LiesIn dir d fs) (hnone : fs.node? (l.diskTrail d) = none) :
    ∃ e, fs.lookup l.location = .error e := by
  rw [h.location, FileSystem.lookup_join h.leads (isPlain_diskName h.valid)]
  by_cases hf : dir.Fits (diskName l.identity.name)
  · refine ⟨.notFound, ?_⟩
    rw [if_pos hf]
    change fs.node? (diskName l.identity.name :: d) = none at hnone
    rw [hnone]
  · exact ⟨.nameTooLong, if_neg hf⟩

theorem not_isWhole_of_absent (h : l.LiesIn dir d fs)
    (ha : dir.Fits (diskName l.identity.name) → fs.node? (l.diskTrail d) = none) :
    fs.isWhole l.location = false := by
  rw [← Bool.not_eq_true, h.isWhole_iff]
  rintro ⟨⟨hf, b, c, hbc⟩, -⟩
  rw [ha hf] at hbc
  cases hbc

theorem not_isWhole_of_marked (h : l.LiesIn dir d fs)
    (hf : dir.Fits (markerName l.identity.name)) (hm : fs.node? (l.markerTrail d) ≠ none) :
    fs.isWhole l.location = false := by
  rw [← Bool.not_eq_true, h.isWhole_iff]
  rintro ⟨-, h'⟩
  exact hm (h' hf)

end LiesIn

/-- The marker of a layer stands beside where its disk belongs. -/
structure MarkedIn (l : Layer) (dir : Path) (d : Trail) (fs : FileSystem) : Prop where
  fits : dir.Fits (markerName l.identity.name)
  stands : ∃ b c, fs.node? (l.markerTrail d) = some (.file b c)

namespace MarkedIn
variable {l : Layer} {dir : Path} {d : Trail} {fs fs' : FileSystem}

theorem within (hm : l.MarkedIn dir d fs) (hw : FileSystem.Within {l.diskTrail d} fs fs') :
    l.MarkedIn dir d fs' := by
  refine ⟨hm.fits, ?_⟩
  rw [hw.same _ (l.markerTrail_ne_diskTrail d)]
  exact hm.stands

theorem node?_ne_none (hm : l.MarkedIn dir d fs) : fs.node? (l.markerTrail d) ≠ none := by
  obtain ⟨b, c, hbc⟩ := hm.stands
  simp [hbc]

theorem node?_ne_dir (hm : l.MarkedIn dir d fs) : fs.node? (l.markerTrail d) ≠ some .dir := by
  obtain ⟨b, c, hbc⟩ := hm.stands
  simp [hbc]

theorem not_isWhole (hm : l.MarkedIn dir d fs) (h : l.LiesIn dir d fs) :
    fs.isWhole l.location = false :=
  h.not_isWhole_of_marked hm.fits hm.node?_ne_none

theorem isPresent (hm : l.MarkedIn dir d fs) (h : l.LiesIn dir d fs) :
    fs.isPresent l.marker = true := by
  rw [h.marker, FileSystem.isPresent_join h.leads (isPlain_markerName h.valid)]
  exact ⟨hm.fits, hm.node?_ne_none⟩

end MarkedIn

end Layer

/-! ## single files -/

/-- At most one event, no call, that changes what stands at one trail. -/
structure World.Touches (t : Trail) (w : World σ) (ms : List Moment) (w' : World σ) : Prop where
  kept : w.Kept w'
  reaches : w.Reaches {t} ms w'
  silent : answersOf ms = []
  after : ∀ m ∈ ms, m.after = w'.files

namespace World.Touches
variable {t : Trail} {w : World σ}

theorem refl (t : Trail) (w : World σ) : w.Touches t [] w :=
  ⟨.refl w, .refl _ w, rfl, fun m hm => by cases hm⟩

theorem of_note {e : Event} {files : FileSystem} (he : ∀ c r, e ≠ .called c r)
    (hw : FileSystem.Within {t} w.files files) :
    w.Touches t [⟨e, w.files, files⟩] (w.note e files) := by
  have hs : (⟨e, w.files, files⟩ : Moment).answered? = none := by
    cases e with
    | called c r => exact absurd rfl (he c r)
    | _ => rfl
  refine ⟨⟨rfl, rfl⟩, .of_note (fun hu => hu) hw, ?_, fun m hm => ?_⟩
  · rw [answersOf, List.filterMap_cons, hs]
    rfl
  · rcases List.mem_singleton.mp hm with rfl
    rfl

theorem node?_diskTrail {l : Layer} {d : Trail} {ms : List Moment} {w' : World σ}
    (h : w.Touches (l.markerTrail d) ms w') :
    w'.files.node? (l.diskTrail d) = w.files.node? (l.diskTrail d) :=
  h.reaches.within.same _ fun e => l.markerTrail_ne_diskTrail d e.symm

end World.Touches

namespace Act
variable {σ : Type} {w : World σ} {dir : Path} {d : Trail} {name : String}
  (h : w.files.lookup dir = .ok (d, .dir)) (hn : IsPlain name.toList)
include h hn

/-- a file is taken away, or there was none, or nothing happens -/
theorem ends_removePath : (removePath (dir.join name) : Act σ StoreError Unit).Ends w fun r ms w' =>
    w.Touches (name :: d) ms w' ∧
      ((r = .ok () ∧ dir.Fits name ∧ w'.files.node? (name :: d) = none) ∨
        ((∃ e, r = .error (.io "remove" (dir.join name) e)) ∧ w' = w ∧ ms = [] ∧
          (dir.Fits name → w.files.node? (name :: d) = some .dir))) := by
  have hact : (removePath (dir.join name) : Act σ StoreError Unit) =
    (removeFile (dir.join name)).mapError (StoreError.io "remove" (dir.join name)) := rfl
  cases hr : w.files.remove (dir.join name) with
  | ok files =>
    have hrun : (removePath (dir.join name) : Act σ StoreError Unit).runIn w =
        (.ok (), w.note (.removed (dir.join name)) files) := by
      rw [hact, runIn_mapError, removeFile, runIn_ofFunction, hr]
      rfl
    obtain ⟨hf, -, hnode, -⟩ := FileSystem.remove_join_eq_ok h hn hr
    have hw := FileSystem.within_remove h hn hr
    refine ends_of_note hrun rfl rfl ⟨.of_note (by simp) hw, Or.inl ⟨rfl, hf, ?_⟩⟩
    show files.node? (name :: d) = none
    rw [hnode, Function.update_self]
  | error e =>
    have hrun : (removePath (dir.join name) : Act σ StoreError Unit).runIn w =
        ((if e = SystemError.notFound then Except.ok () else Except.error e).mapError
          (StoreError.io "remove" (dir.join name)), w) := by
      rw [hact, runIn_mapError, removeFile, runIn_ofFunction, hr]
    rw [FileSystem.remove_join h hn] at hr
    by_cases hf : dir.Fits name
    · rw [if_pos hf] at hr
      cases hnode : w.files.node? (name :: d) with
      | none =>
        rw [hnode] at hr
        cases hr
        exact ends_of_runIn hrun ⟨.refl _ w, Or.inl ⟨rfl, hf, hnode⟩⟩
      | some n =>
        rw [hnode] at hr
        cases n with
        | file b c => cases hr
        | dir =>
          cases hr
          exact ends_of_runIn hrun ⟨.refl _ w, Or.inr ⟨⟨_, rfl⟩, rfl, rfl, fun _ => rfl⟩⟩
    · rw [if_neg hf] at hr
      cases hr
      exact ends_of_runIn hrun
        ⟨.refl _ w, Or.inr ⟨⟨_, rfl⟩, rfl, rfl, fun hf' => absurd hf' hf⟩⟩

/-- a file is written, or nothing happens -/
theorem ends_writePath (text : String) :
    (writePath (dir.join name) text : Act σ StoreError Unit).Ends w fun r ms w' =>
      w.Touches (name :: d) ms w' ∧
        ((r = .ok () ∧ dir.Fits name ∧
            ∃ b, w'.files.node? (name :: d) = some (.file b (.ofText text))) ∨
          ((∃ e, r = .error (.io "write" (dir.join name) e)) ∧ w' = w ∧ ms = [] ∧
            (dir.Fits name → w.files.node? (name :: d) = some .dir))) := by
  have hact : (writePath (dir.join name) text : Act σ StoreError Unit) =
    (writeFile (dir.join name) text).mapError (StoreError.io "write" (dir.join name)) := rfl
  cases hr : w.files.write (dir.join name) (.ofText text) with
  | ok files =>
    have hrun : (writePath (dir.join name) text : Act σ StoreError Unit).runIn w =
        (.ok (), w.note (.wrote (dir.join name)) files) := by
      rw [hact, runIn_mapError, writeFile, change, runIn_ofFunction, hr]
      rfl
    have hw := FileSystem.within_write h hn hr
    have hcases := FileSystem.write_join_cases h hn (.ofText text)
    rw [hr] at hcases
    rcases hcases with ⟨e, he⟩ | ⟨hf, -, b, fs', he, -, hnode⟩
    · cases he
    · cases he
      refine ends_of_note hrun rfl rfl
        ⟨.of_note (by simp) hw, Or.inl ⟨rfl, hf, b, ?_⟩⟩
      show files.node? (name :: d) = _
      rw [hnode, Function.update_self]
  | error e =>
    have hrun : (writePath (dir.join name) text : Act σ StoreError Unit).runIn w =
        (.error (StoreError.io "write" (dir.join name) e), w) := by
      rw [hact, runIn_mapError, writeFile, change, runIn_ofFunction, hr]
      rfl
    refine ends_of_runIn hrun ⟨.refl _ w, Or.inr ⟨⟨e, rfl⟩, rfl, rfl, fun hf => ?_⟩⟩
    by_contra hd
    obtain ⟨fs', hok⟩ := FileSystem.write_join h hn hf hd (.ofText text)
    rw [hok] at hr
    cases hr

end Act

/-! ## disk and marker -/

/-- the error of a call that a layer is made with -/
def Layer.callError (l : Layer) : Call → ToolError → BuildError
  | .execute _ _, e => .executor l.directive l.identity e
  | _, e => .storage l.directive l.identity (.backend e)

def Layer.remake (l : Layer) (act : Act σ BuildError Unit) : Act σ BuildError Unit := do
  l.discard.mapError (.ofStore l)
  l.mark.mapError (.ofStore l)
  act
  l.unmark.mapError (.ofStore l)

/-- What comes of taking disk and marker away: the result, the moments, the files. -/
inductive Discarded (l : Layer) (dir : Path) (d : Trail) (fs : FileSystem) :
    Except StoreError Unit → List Moment → FileSystem → Prop
  /-- neither is there any more -/
  | gone {ms fs'} : dir.Fits (markerName l.identity.name) → fs'.node? (l.diskTrail d) = none →
    fs'.node? (l.markerTrail d) = none → (∀ m ∈ ms, m.after.isWhole l.location = false) →
    Discarded l dir d fs (.ok ()) ms fs'
  /-- there is a directory where the disk should be; nothing has changed -/
  | stuck {e} : fs.node? (l.diskTrail d) = some .dir →
    Discarded l dir d fs (.error (.io "remove" l.location e)) [] fs
  /-- the disk is gone, and nothing stands in its place, but there can be no marker -/
  | refused {e ms fs'} :
    (dir.Fits (markerName l.identity.name) → fs.node? (l.markerTrail d) = some .dir) →
    fs'.isWhole l.location = false → (∀ m ∈ ms, m.after.isWhole l.location = false) →
    (fs'.node? (l.diskTrail d) ≠ none → fs.node? (l.diskTrail d) ≠ none) →
    Discarded l dir d fs (.error (.io "remove" l.marker e)) ms fs'

/-- What comes of making a disk anew with some calls: the result, the moments, the files. -/
inductive Remade (backend : Backend σ) (l : Layer) (dir : Path) (d : Trail) (calls : List Call)
    (fs : FileSystem) : Except BuildError Unit → List Moment → FileSystem → Prop
  /-- there is a directory where the disk should be; nothing has changed -/
  | stuck {e} : fs.node? (l.diskTrail d) = some .dir →
    Remade backend l dir d calls fs (.error (.ofStore l (.io "remove" l.location e))) [] fs
  /-- the old disk is gone, and nothing stands in its place, but there can be no marker -/
  | refused {e ms fs'} : answersOf ms = [] →
    (dir.Fits (markerName l.identity.name) → fs.node? (l.markerTrail d) = some .dir) →
    fs'.isWhole l.location = false → (∀ m ∈ ms, m.after.isWhole l.location = false) →
    (fs'.node? (l.diskTrail d) ≠ none → fs.node? (l.diskTrail d) ≠ none) →
    Remade backend l dir d calls fs (.error (.ofStore l (.io "remove" l.marker e))) ms fs'
  /-- the old disk is gone, and with it the one below, which was the same; the marker stays -/
  | orphaned {ms fs'} : .snapshot l.location l.location ∈ calls → answersOf ms = [] →
    fs'.isWhole l.location = false → (∀ m ∈ ms, m.after.isWhole l.location = false) →
    fs'.node? (l.diskTrail d) = none →
    Remade backend l dir d calls fs (.error (.ofStore l (.missingParent l.location))) ms fs'
  /-- a call has failed and the marker stays -/
  | failed {c e ms fs'} : Answered calls (answersOf ms) (some (c, e)) →
    fs'.isWhole l.location = false → (∀ m ∈ ms, m.after.isWhole l.location = false) →
    Remade backend l dir d calls fs (.error (l.callError c e)) ms fs'
  /-- all calls have succeeded, on files where the disk was not yet there -/
  | made {fs₁ fs₂ ms fs'} : Answered calls (answersOf ms) none →
    dir.Fits (markerName l.identity.name) →
    FileSystem.Within (l.trails d) fs fs₁ → fs₁.node? (l.diskTrail d) = none →
    Performed backend fs₁ calls fs₂ → FileSystem.Within {l.markerTrail d} fs₂ fs' →
    fs'.isWhole l.location = true →
    (∀ m ∈ ms, m.after.isWhole l.location = false ∨ m.after = fs') →
    Remade backend l dir d calls fs (.ok ()) ms fs'

/-- Something is done by making some calls, or nothing can be done since the disk below is the one
that is to be made. -/
def Layer.Calls (backend : Backend σ) (l : Layer) (calls : List Call) (act : Act σ BuildError Unit)
    (v : World σ) : Prop :=
  act.runIn v = (perform backend l.callError calls).runIn v ∨
    .snapshot l.location l.location ∈ calls ∧
      act.runIn v = (.error (.ofStore l (.missingParent l.location)), v)

namespace Act
variable {σ : Type} {w : World σ} {l : Layer} {dir : Path} {d : Trail}

/-- taking the marker away where the disk is gone already, behind some moments -/
theorem ends_unmark_of_absent {v : World σ} {ms : List Moment} (h : l.LiesIn dir d v.files)
    (hk : w.Kept v) (hr : w.Reaches {l.diskTrail d} ms v) (hs : answersOf ms = [])
    (ha : dir.Fits (diskName l.identity.name) → v.files.node? (l.diskTrail d) = none)
    (hw : ∀ m ∈ ms, m.after.isWhole l.location = false)
    (hold : v.files.node? (l.diskTrail d) ≠ none → w.files.node? (l.diskTrail d) ≠ none) :
    (l.unmark : Act σ StoreError Unit).Ends v fun r ms' w' =>
      w.Kept w' ∧ w.Reaches (l.trails d) (ms ++ ms') w' ∧ answersOf (ms ++ ms') = [] ∧
        Discarded l dir d w.files r (ms ++ ms') w'.files := by
  rw [Layer.unmark, h.marker]
  refine (ends_removePath h.leads (isPlain_markerName h.valid)).mono ?_
  rintro r ms' w' ⟨ht, hres⟩
  have hdisk : w'.files.node? (l.diskTrail d) = v.files.node? (l.diskTrail d) :=
    ht.node?_diskTrail
  have hnot : w'.files.isWhole l.location = false :=
    (h.within ht.reaches.within).not_isWhole_of_absent (by rw [hdisk]; exact ha)
  have hmoments : ∀ m ∈ ms ++ ms', m.after.isWhole l.location = false := by
    intro m hm
    rcases List.mem_append.mp hm with hm | hm
    · exact hw m hm
    · rw [ht.after m hm]
      exact hnot
  refine ⟨hk.trans ht.kept, (hr.mono (l.diskTrail_subset d)).trans
    (ht.reaches.mono (l.markerTrail_subset d)), ?_, ?_⟩
  · rw [answersOf_append, hs, ht.silent]
    rfl
  · rcases hres with ⟨rfl, hf, hnone⟩ | ⟨⟨e, rfl⟩, -, -, hdir⟩
    · have hfd := fits_diskName h.valid (FileSystem.lookup_eq_dir.mp h.leads).1.ne_nil hf
      exact .gone hf (by rw [hdisk, ha hfd]) hnone hmoments
    · rw [← h.marker]
      refine .refused (fun hf => ?_) hnot hmoments (hdisk ▸ hold)
      rw [← hr.within.same _ (l.markerTrail_ne_diskTrail d)]
      exact hdir hf

/-- how taking disk and marker away ends -/
theorem ends_discard (h : l.LiesIn dir d w.files) :
    (l.discard : Act σ StoreError Unit).Ends w fun r ms w' =>
      w.Kept w' ∧ w.Reaches (l.trails d) ms w' ∧ answersOf ms = [] ∧
        Discarded l dir d w.files r ms w'.files := by
  have hd := isPlain_diskName h.valid
  have hpresent := FileSystem.isPresent_join h.leads hd
  rw [← h.location] at hpresent
  rw [Layer.discard]
  refine ends_inspect_bind ?_
  by_cases hp : w.files.isPresent l.location = true
  · rw [if_pos hp]
    have hrem := ends_removePath h.leads hd
    rw [← h.location] at hrem
    refine hrem.bind ?_ ?_
    · rintro ⟨⟩ ms v ⟨ht, hres⟩
      rcases hres with ⟨-, -, hnone⟩ | ⟨⟨e, he⟩, -⟩
      · have hv := h.within ht.reaches.within
        refine ends_unmark_of_absent hv ht.kept ht.reaches ht.silent (fun _ => hnone) ?_
          fun hne => absurd hnone hne
        intro m hm
        rw [ht.after m hm]
        exact hv.not_isWhole_of_absent fun _ => hnone
      · cases he
    · rintro e ms v ⟨ht, hres⟩
      rcases hres with ⟨he, -⟩ | ⟨⟨e', he⟩, hv, hms, hdir⟩
      · cases he
      · cases he
        subst hms hv
        exact ⟨ht.kept, ht.reaches.mono (l.diskTrail_subset d), rfl,
          .stuck (hdir (hpresent.mp hp).1)⟩
  · rw [if_neg hp]
    have ha : dir.Fits (diskName l.identity.name) → w.files.node? (l.diskTrail d) = none := by
      intro hf
      by_contra hne
      exact hp (hpresent.mpr ⟨hf, hne⟩)
    have hu := ends_unmark_of_absent h (.refl w) (.refl _ w) answersOf_nil ha
      (fun m hm => absurd hm List.not_mem_nil) id
    simp only [List.nil_append] at hu
    exact hu

theorem ends_mark {v : World σ} (h : l.LiesIn dir d v.files)
    (hf : dir.Fits (markerName l.identity.name)) (hnone : v.files.node? (l.markerTrail d) = none) :
    (l.mark : Act σ StoreError Unit).Ends v fun r ms w' =>
      r = .ok () ∧ v.Touches (l.markerTrail d) ms w' ∧ l.MarkedIn dir d w'.files := by
  rw [Layer.mark, h.marker]
  refine (ends_writePath h.leads (isPlain_markerName h.valid) _).mono ?_
  rintro r ms w' ⟨ht, ⟨rfl, -, b, hfile⟩ | ⟨-, -, -, hdir⟩⟩
  · exact ⟨rfl, ht, hf, b, _, hfile⟩
  · have hd := hdir hf
    change v.files.node? (l.markerTrail d) = some .dir at hd
    rw [hnone] at hd
    cases hd

/-- taking the marker away where it stands beside a file: a whole disk is left -/
theorem ends_unmark_of_marked {v : World σ} (h : l.LiesIn dir d v.files)
    (hm : l.MarkedIn dir d v.files)
    (hdisk : ∃ b c, v.files.node? (l.diskTrail d) = some (.file b c)) :
    (l.unmark : Act σ StoreError Unit).Ends v fun r ms w' =>
      r = .ok () ∧ v.Touches (l.markerTrail d) ms w' ∧ w'.files.isWhole l.location = true := by
  rw [Layer.unmark, h.marker]
  refine (ends_removePath h.leads (isPlain_markerName h.valid)).mono ?_
  rintro r ms w' ⟨ht, ⟨rfl, -, hnone⟩ | ⟨-, -, -, hdir⟩⟩
  · have hfits : dir.Fits (diskName l.identity.name) :=
      fits_diskName h.valid (FileSystem.lookup_eq_dir.mp h.leads).1.ne_nil hm.fits
    refine ⟨rfl, ht, (h.within ht.reaches.within).isWhole_iff.mpr ⟨⟨hfits, ?_⟩, fun _ => hnone⟩⟩
    rw [ht.node?_diskTrail]
    exact hdisk
  · exact absurd (hdir hm.fits) hm.node?_ne_dir

/-- how calls end, and taking the marker away after them, where the marker is and the disk not -/
theorem ends_finish {backend : Backend σ} {act : Act σ BuildError Unit} {calls : List Call}
    {fs : FileSystem} {v : World σ} {ms₀ : List Moment} (h : l.LiesIn dir d v.files)
    (hb : backend.Confined) (hl : backend.LeavesFiles) (hne : calls ≠ [])
    (hc : ∀ c ∈ calls, c.target? = some l.location) (hm : l.MarkedIn dir d v.files)
    (hw : FileSystem.Within (l.trails d) fs v.files) (hd : v.files.node? (l.diskTrail d) = none)
    (hs : answersOf ms₀ = []) (hw₀ : ∀ m ∈ ms₀, m.after.isWhole l.location = false)
    (hact : l.Calls backend calls act v) :
    (act >>= fun _ => l.unmark.mapError (BuildError.ofStore l)).Ends v fun r ms w' =>
      v.Kept w' ∧ v.Reaches (l.trails d) ms w' ∧
        (∀ m ∈ ms, m.call? ≠ none → m.before.isPresent l.marker = true) ∧
        Remade backend l dir d calls fs r (ms₀ ++ ms) w'.files := by
  have hpd := isPlain_diskName h.valid
  have hfd := fits_diskName h.valid (FileSystem.lookup_eq_dir.mp h.leads).1.ne_nil hm.fits
  -- the calls change nothing but the disk, so the marker stands until it is taken away
  have hnot : ∀ fs', FileSystem.Within {l.diskTrail d} v.files fs' →
      fs'.isWhole l.location = false := fun fs' hw' => (hm.within hw').not_isWhole (h.within hw')
  have hshown : ∀ fs', FileSystem.Within {l.diskTrail d} v.files fs' →
      fs'.isPresent l.marker = true := fun fs' hw' => (hm.within hw').isPresent (h.within hw')
  rcases hact with hact | ⟨hself, hact⟩
  case inr =>
    have hrun : (act >>= fun _ => l.unmark.mapError (BuildError.ofStore l)).runIn v =
        (.error (.ofStore l (.missingParent l.location)), v) := by
      rw [runIn_bind, hact]
    refine ends_of_runIn hrun ⟨.refl v, .refl _ v, fun m hm => absurd hm List.not_mem_nil, ?_⟩
    rw [List.append_nil]
    exact .orphaned hself hs (hnot _ (.refl _ _)) hw₀ hd
  have hcalls : act.Ends v _ := (ends_perform l.callError hb hl hpd hfd
    (by rw [← h.location]; exact hc) h.leads (by
      show v.files.node? (l.diskTrail d) ≠ some .dir
      rw [hd]
      simp)).of_runIn_eq hact
  refine hcalls.bind ?_ ?_
  · rintro ⟨⟩ ms v' ⟨hk, hr, failure, ha, hres, hp⟩
    cases failure with
    | some f => cases hres
    | none =>
      have h' := h.within hr.within
      have hfile : v'.files.isFile (dir.join (diskName l.identity.name)) = true := by
        rw [← h.location]
        exact (hp rfl).isFile hl hne hc
      obtain ⟨-, hdisk⟩ := (FileSystem.isFile_join h'.leads hpd).mp hfile
      refine Ends.mapError ((ends_unmark_of_marked h' (hm.within hr.within) hdisk).mono ?_)
      rintro r ms' w' ⟨rfl, ht, hwhole⟩
      refine ⟨hk.trans ht.kept, (hr.mono (l.diskTrail_subset d)).trans
        (ht.reaches.mono (l.markerTrail_subset d)), fun m hm hcall => ?_, ?_⟩
      · rcases List.mem_append.mp hm with hm | hm
        · exact hshown _ (hr.before m hm)
        · exact absurd (call?_of_silent ht.silent hm) hcall
      · refine .made ?_ hm.fits hw hd (hp rfl) ht.reaches.within hwhole fun m hm => ?_
        · rw [answersOf_append, answersOf_append, hs, ht.silent, List.nil_append, List.append_nil]
          exact ha
        · rcases List.mem_append.mp hm with hm | hm
          · exact Or.inl (hw₀ m hm)
          · rcases List.mem_append.mp hm with hm | hm
            · exact Or.inl (hnot _ (hr.after m hm))
            · exact Or.inr (ht.after m hm)
  · rintro e ms v' ⟨hk, hr, failure, ha, hres, -⟩
    cases failure with
    | none => cases hres
    | some f =>
      obtain ⟨c, e'⟩ := f
      cases hres
      refine ⟨hk, hr.mono (l.diskTrail_subset d), fun m hm _ => hshown _ (hr.before m hm),
        .failed ?_ (hnot _ hr.within) fun m hm => ?_⟩
      · rw [answersOf_append, hs]
        exact ha
      · rcases List.mem_append.mp hm with hm | hm
        · exact hw₀ m hm
        · exact hnot _ (hr.after m hm)

/-- how making a disk anew ends, if what is done to it where it is gone is to make some calls -/
theorem ends_remake {backend : Backend σ} (act : Act σ BuildError Unit) (calls : List Call)
    (h : l.LiesIn dir d w.files) (hb : backend.Confined) (hl : backend.LeavesFiles)
    (hne : calls ≠ []) (hc : ∀ c ∈ calls, c.target? = some l.location)
    (hact : ∀ v : World σ, FileSystem.Within (l.trails d) w.files v.files →
      v.files.node? (l.diskTrail d) = none → l.Calls backend calls act v) :
    (l.remake act).Ends w fun r ms w' =>
      w.Kept w' ∧ w.Reaches (l.trails d) ms w' ∧
        (∀ m ∈ ms, m.call? ≠ none → m.before.isPresent l.marker = true) ∧
        Remade backend l dir d calls w.files r ms w'.files := by
  rw [Layer.remake]
  refine (ends_discard h).bind_mapError ?_ ?_
  · rintro ⟨⟩ ms v ⟨hk, hr, hs, hres⟩
    cases hres with
    | gone hf hdisk hmark hw =>
      have hv := h.within hr.within
      refine (ends_mark hv hf hmark).bind_mapError ?_ fun _ _ _ hm => by cases hm.1
      rintro ⟨⟩ ms' v' ⟨-, ht, hm⟩
      -- from here on the marker stands where the disk is not
      have hwithin := hr.within.trans (ht.reaches.within.mono (l.markerTrail_subset d))
      have h' := h.within hwithin
      have hdisk' : v'.files.node? (l.diskTrail d) = none := by
        rw [ht.node?_diskTrail]
        exact hdisk
      have silent : answersOf (ms ++ ms') = [] := by
        rw [answersOf_append, hs, ht.silent]
        rfl
      have hmoments : ∀ m ∈ ms ++ ms', m.after.isWhole l.location = false := by
        intro m hmem
        rcases List.mem_append.mp hmem with hmem | hmem
        · exact hw m hmem
        · rw [ht.after m hmem]
          exact hm.not_isWhole h'
      refine (ends_finish h' hb hl hne hc hm hwithin hdisk' silent hmoments
        (hact v' hwithin hdisk')).mono ?_
      rintro r ms'' w' ⟨hk', hr', hshown, hres⟩
      rw [← List.append_assoc]
      refine ⟨(hk.trans ht.kept).trans hk',
        (hr.trans (ht.reaches.mono (l.markerTrail_subset d))).trans hr', ?_, hres⟩
      intro m hmem hcall
      rcases List.mem_append.mp hmem with hmem | hmem
      · exact absurd (call?_of_silent silent hmem) hcall
      · exact hshown m hmem hcall
  · rintro e ms v ⟨hk, hr, hs, hres⟩
    have silent : ∀ m ∈ ms, m.call? ≠ none → m.before.isPresent l.marker = true :=
      fun m hm hcall => absurd (call?_of_silent hs hm) hcall
    refine ⟨hk, hr, silent, ?_⟩
    generalize v.files = fs' at hres
    cases hres with
    | stuck hdir => exact .stuck hdir
    | refused hdir hnot hw hold => exact .refused hs hdir hnot hw hold

end Act

end DiskLayers
