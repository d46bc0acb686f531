import DiskLayers.Proofs.Keys
import DiskLayers.Proofs.Steps

/-!
# A build as a climb from key to key

* `Store.keyTrails`   the trails of the disk and the marker of a key, and the locks
* `Climbed`           one step of a build: its result, its moments, the files it leaves
* `Ascent`            several steps, one after the other, up to the first that fails

`ends_applyAll` says that a build is an `Ascent`; all that is said about builds goes by induction
on it.
-/

namespace DiskLayers
open DiskLayers.Path

/-- the trails of the disks and the markers of some keys, and all that lies among the locks -/
def Store.keyTrails (r : Trail) (keys : List Identity) : Set Trail :=
  {t | (∃ key ∈ keys, t = diskName key.name :: layersDir :: r ∨
    t = markerName key.name :: layersDir :: r) ∨ t ∈ lockTrails r}

namespace Store
variable {r : Trail} {keys keys' : List Identity} {key : Identity}

theorem keyTrails_mono (h : keys ⊆ keys') : keyTrails r keys ⊆ keyTrails r keys' := by
  rintro t (⟨key, hk, ht⟩ | ht)
  · exact Or.inl ⟨key, h hk, ht⟩
  · exact Or.inr ht

theorem diskName_not_mem_keyTrails (h : key ∉ keys) :
    diskName key.name :: layersDir :: r ∉ keyTrails r keys := by
  rintro (⟨k, hk, ht | ht⟩ | ht)
  · have e : key = k := by
      have := diskName_injective (List.cons.inj ht).1
      cases key; cases k; exact congrArg Identity.mk this
    exact h (e ▸ hk)
  · exact diskName_ne_markerName _ _ (List.cons.inj ht).1
  · exact not_mem_lockTrails (by decide) _ ht

theorem markerName_not_mem_keyTrails (h : key ∉ keys) :
    markerName key.name :: layersDir :: r ∉ keyTrails r keys := by
  rintro (⟨k, hk, ht | ht⟩ | ht)
  · exact diskName_ne_markerName _ _ (List.cons.inj ht).1.symm
  · have e : key = k := by
      have := markerName_injective (List.cons.inj ht).1
      cases key; cases k; exact congrArg Identity.mk this
    exact h (e ▸ hk)
  · exact not_mem_lockTrails (by decide) _ ht

theorem lockTrails_subset_keyTrails : lockTrails r ⊆ keyTrails r keys := fun _ ht => Or.inr ht

end Store

namespace Layer.IsFor
variable {l : Layer} {s : Store} {below : Option Identity} {op : Operation} {key : Identity}

theorem liesIn (h : l.IsFor s below op key) (hv : isValidName key.name = true) {r : Trail}
    {fs : FileSystem} (hs : s.StandsAt r fs) :
    l.LiesIn (s.root.join Store.layersDir) (Store.layersDir :: r) fs := by
  refine ⟨?_, ?_, hs.layers⟩
  · rw [h.identity]; exact hv
  · rw [h.location, h.identity]; rfl

theorem trails_union (h : l.IsFor s below op key) (r : Trail) :
    l.trails (Store.layersDir :: r) ∪ Store.lockTrails r = Store.keyTrails r [key] := by
  ext t
  rw [Layer.trails, Layer.diskTrail, Layer.markerTrail, h.identity]
  constructor
  · rintro (ht | ht)
    · exact Or.inl ⟨key, List.mem_singleton_self key, ht⟩
    · exact Or.inr ht
  · rintro (⟨k, hk, ht⟩ | ht)
    · rw [List.mem_singleton.mp hk] at ht
      exact Or.inl ht
    · exact Or.inr ht

theorem isReusable_eq (h : l.IsFor s below op key) (force : Bool) (fs : FileSystem) :
    isReusable force l fs = ((below.isNone || !force) && fs.isWhole (s.layerPath key)) := by
  rw [isReusable, h.parent, FileSystem.isComplete_eq_isWhole, h.location]

end Layer.IsFor

/-- One step of a build: its result, its moments, the files it leaves.  It touches nothing but
disk, marker and lock of its key, and no call is made unless the marker is there. -/
structure Climbed (backend : Backend σ) (s : Store) (r : Trail) (force : Bool)
    (below : Option Identity) (op : Operation) (key : Identity) (fs : FileSystem)
    (res : Except BuildError StepStatus) (ms : List Moment) (fs' : FileSystem) : Prop where
  realized : ∃ l : Layer, l.IsFor s below op key ∧
    Realized backend r force l (s.root.join Store.layersDir) (Store.layersDir :: r)
      (op.callsOn (below.map s.layerPath) (s.layerPath key)) fs res ms fs'
  within : FileSystem.Within (Store.keyTrails r [key]) fs fs'
  after : ∀ m ∈ ms, FileSystem.Within (Store.keyTrails r [key]) fs m.after
  shown : ∀ m ∈ ms, m.call? ≠ none →
    m.before.isPresent (Layer.markerOf (s.layerPath key)) = true

/-- Steps of a build, one after the other: the result, the reports, the moments, the files. -/
inductive Ascent (backend : Backend σ) (s : Store) (r : Trail) (force : Bool) :
    Option Identity → List Operation → FileSystem →
      Except BuildError Unit → List StepReport → List Moment → FileSystem → Prop
  /-- there is nothing more to do -/
  | top {below fs} : Ascent backend s r force below [] fs (.ok ()) [] [] fs
  /-- the script does not go on like that -/
  | halted {below op ops fs e} : nextKey below op = .error e →
    Ascent backend s r force below (op :: ops) fs (.error (.script e)) [] [] fs
  /-- a step fails -/
  | fallen {below op ops key fs e ms fs'} : nextKey below op = .ok key →
    Climbed backend s r force below op key fs (.error e) ms fs' →
    Ascent backend s r force below (op :: ops) fs (.error e) [] ms fs'
  /-- a step succeeds -/
  | step {below op ops key fs status ms fs' res reports ms' fs''} : nextKey below op = .ok key →
    Climbed backend s r force below op key fs (.ok status) ms fs' →
    Ascent backend s r force (some key) ops fs' res reports ms' fs'' →
    Ascent backend s r force below (op :: ops) fs res (⟨op.descriptor, key, status⟩ :: reports)
      (ms ++ ms') fs''

/-! ## what comes of a step -/

namespace Realized
variable {backend : Backend σ} {r : Trail} {force : Bool} {l : Layer} {dir : Path} {d : Trail}
  {calls : List Call} {fs fs' : FileSystem} {ms : List Moment}

/-- a step that succeeds leaves a whole disk -/
theorem isWhole {status : StepStatus} (h : Realized backend r force l dir d calls fs (.ok status) ms fs') :
    fs'.isWhole l.location = true := by
  generalize hres : (Except.ok status : Except BuildError StepStatus) = res at h
  cases h with
  | found hr =>
    rw [isReusable, Bool.and_eq_true] at hr
    exact hr.2
  | locked => cases hres
  | remade _ _ _ _ hm _ _ =>
    cases hm with
    | stuck => cases hres
    | refused => cases hres
    | orphaned => cases hres
    | failed => cases hres
    | made _ _ _ _ _ _ hw _ => exact hw

theorem status_eq {status : StepStatus} (h : Realized backend r force l dir d calls fs (.ok status) ms fs') :
    status = if isReusable force l fs = true then .cached else .built := by
  generalize hres : (Except.ok status : Except BuildError StepStatus) = res at h
  cases h with
  | found hr =>
    cases hres
    rw [if_pos hr]
  | locked => cases hres
  | remade hr _ _ _ hm _ _ =>
    rw [if_neg (by rw [hr]; simp)]
    cases hm <;> cases hres
    rfl

end Realized

/-! ## running steps -/

namespace Folding
variable {σ : Type} (c : Context) (w : World σ)

theorem runIn_get : (get : Folding σ Context).runIn c w = ((.ok c, c), w) := rfl
theorem runIn_set (c' : Context) : (set c' : Folding σ PUnit).runIn c w = ((.ok ⟨⟩, c'), w) := rfl
theorem runIn_modify (f : Context → Context) :
    (modify f : Folding σ PUnit).runIn c w = ((.ok ⟨⟩, f c), w) := rfl

end Folding

section
variable {σ : Type} (backend : Backend σ) (s : Store) (config : BuildConfig) (op : Operation)
  (ops : List Operation) (c : Context) (w : World σ)

/-- what one operation of a script does -/
theorem applyOne_runIn :
    (applyOne backend s config op).runIn c w =
      match c.extend s op with
      | .error e => ((.error (.script e), c), w)
      | .ok (goal, c') =>
        match (realize backend s config goal.layer goal.parent op).runIn w with
        | (.ok status, w') => ((.ok goal.id, c'.record goal.id goal.layer status), w')
        | (.error e, w') => ((.error e, c'), w') := by
  rw [applyOne, Folding.runIn_bind, Folding.runIn_get]
  dsimp only
  cases c.extend s op with
  | error e => rfl
  | ok found =>
    obtain ⟨goal, c'⟩ := found
    dsimp only
    rw [Folding.runIn_bind, Folding.runIn_set]
    dsimp only
    rw [Folding.runIn_bind, Folding.runIn_ofAct]
    rcases (realize backend s config goal.layer goal.parent op).runIn w with ⟨res, w'⟩
    cases res <;> rfl

theorem applyAll_runIn_cons :
    (applyAll backend s config (op :: ops)).runIn c w =
      match (applyOne backend s config op).runIn c w with
      | ((.ok _, c'), w') => (applyAll backend s config ops).runIn c' w'
      | ((.error e, c'), w') => ((.error e, c'), w') := by
  rw [applyAll, Folding.runIn_bind]
  rcases (applyOne backend s config op).runIn c w with ⟨⟨res, c'⟩, w'⟩
  cases res <;> rfl

end

/-- The disk below a step is that of the step, or is there whatever becomes of the latter. -/
theorem Layer.IsFor.below_stays {l : Layer} {s : Store} {below : Option Identity} {op : Operation}
    {key : Identity} {parent : Option Layer} {r : Trail} {fs₀ : FileSystem}
    (h : l.IsFor s below op key) (hs : s.StandsAt r fs₀)
    (hparent : parent.map Layer.location = below.map s.layerPath)
    (hbelow : ∀ k, below = some k → isValidName k.name = true ∧ fs₀.isFile (s.layerPath k) = true) :
    ∀ p, parent = some p → p.location = l.location ∨ ∀ fs, FileSystem.Within
      (l.trails (Store.layersDir :: r) ∪ Store.lockTrails r) fs₀ fs →
      fs.isFile p.location = true := by
  rintro p rfl
  cases below with
  | none => cases hparent
  | some k =>
    by_cases hne : k = key
    · left
      rw [h.location, ← hne]
      exact Option.some.inj hparent
    right
    intro fs hw
    obtain ⟨hvk, hfile⟩ := hbelow k rfl
    have hloc : p.location = (s.root.join Store.layersDir).join (diskName k.name) :=
      Option.some.inj hparent
    have hplain := isPlain_diskName hvk
    rw [h.trails_union] at hw
    rw [Store.layerPath, FileSystem.isFile_join hs.layers hplain] at hfile
    rw [hloc, FileSystem.isFile_join (hw.lookup_dir hs.layers) hplain, hw.same _ ?_]
    · exact hfile
    · exact Store.diskName_not_mem_keyTrails (fun hmem => hne (List.mem_singleton.mp hmem))

theorem isBase_of_parent {parent : Option Layer} {s : Store} {below : Option Identity} {op : Operation}
    {key : Identity} (hk : nextKey below op = .ok key)
    (hparent : parent.map Layer.location = below.map s.layerPath) (hnone : parent = none) :
    op.isBase = true := by
  rw [hnone] at hparent
  rw [Option.map_eq_none_iff.mp hparent.symm] at hk
  exact isBase_of_nextKey hk

/-- how one step of a build ends -/
theorem ends_climbed {σ : Type} {backend : Backend σ} {s : Store} {r : Trail} (config : BuildConfig)
    {w : World σ} {l : Layer} {below : Option Identity} {op : Operation} {key : Identity}
    {parent : Option Layer} (hb : backend.Confined) (hl : backend.LeavesFiles)
    (hs : s.StandsAt r w.files) (hu : w.Undisturbed) (hk : nextKey below op = .ok key)
    (h : l.IsFor s below op key) (hparent : parent.map Layer.location = below.map s.layerPath)
    (hbelow : ∀ k, below = some k → isValidName k.name = true ∧
      w.files.isFile (s.layerPath k) = true) :
    (realize backend s config l parent op).Ends w fun res ms w' =>
      w.Leaves r w' ∧
        Climbed backend s r config.force below op key w.files res ms w'.files := by
  have hv := isValidName_nextKey hk
  have hlies := h.liesIn hv hs
  have hdisk : l.diskTrail (Store.layersDir :: r) ∉ Store.lockTrails r :=
    Store.not_mem_lockTrails (by decide) _
  have hmark : l.markerTrail (Store.layersDir :: r) ∉ Store.lockTrails r :=
    Store.not_mem_lockTrails (by decide) _
  refine (Act.ends_realize config hs hu hlies hb hl hdisk hmark
    (isBase_of_parent hk hparent) (h.below_stays hs hparent hbelow)).mono ?_
  rintro res ms w' ⟨hreach, hleaves, hshown, hres⟩
  rw [h.trails_union] at hreach
  rw [hparent, h.location] at hres
  refine ⟨hleaves, ⟨l, h, ?_⟩, hreach.within, hreach.after, ?_⟩
  · exact hres
  · intro m hm hcall
    rw [← h.location]
    exact hshown m hm hcall

/-- the key that a chain ends with after some operations -/
def lastKey (below : Option Identity) (ops : List Operation) : Option Identity :=
  (keysFrom below ops).getLast?.or below

theorem lastKey_cons {below : Option Identity} {op : Operation} {key : Identity}
    (h : nextKey below op = .ok key) (ops : List Operation) :
    lastKey below (op :: ops) = lastKey (some key) ops := by
  rw [lastKey, lastKey, keysFrom, h]
  dsimp only
  rw [List.getLast?_cons]
  cases (keysFrom (some key) ops).getLast? <;> rfl

/-- a build is an ascent -/
theorem ends_applyAll {σ : Type} {backend : Backend σ} {s : Store} {r : Trail}
    (config : BuildConfig) (ops : List Operation) (hb : backend.Confined) (hl : backend.LeavesFiles)
    {below : Option Identity} {c : Context} {w : World σ}
    (hc : c.StandsOn s below) (hs : s.StandsAt r w.files) (hu : w.Undisturbed)
    (hbelow : ∀ k, below = some k → isValidName k.name = true ∧
      w.files.isFile (s.layerPath k) = true) :
    ∃ ms reports res c' w', (applyAll backend s config ops).runIn c w = ((res, c'), w') ∧
      w'.journal = w.journal ++ ms ∧ Linked w.files ms w'.files ∧ w.Leaves r w' ∧
      Ascent backend s r config.force below ops w.files res reports ms w'.files ∧
      c'.steps = c.steps ++ reports ∧ c'.tag = c.tag ∧
      (res = .ok () → c'.StandsOn s (lastKey below ops)) := by
  induction ops generalizing below c w with
  | nil =>
    exact ⟨[], [], .ok (), c, w, rfl, (List.append_nil _).symm, rfl, .refl r w, .top,
      (List.append_nil _).symm, rfl, fun _ => hc⟩
  | cons op ops ih =>
    rw [applyAll_runIn_cons, applyOne_runIn]
    rcases Context.extend_cases hc op with ⟨e, hk, he⟩ |
      ⟨key, goal, c₁, hk, he, hfor, hparent, ⟨hsteps, htag, -⟩, hstands⟩
    · rw [he]
      exact ⟨[], [], _, c, w, rfl, (List.append_nil _).symm, rfl, .refl r w, .halted hk,
        (List.append_nil _).symm, rfl, fun hok => by cases hok⟩
    · rw [he]
      dsimp only
      obtain ⟨ms, hj, hlink, hleaves, hclimb⟩ := ends_climbed config hb hl hs hu hk hfor
        hparent hbelow
      rcases hrun : (realize backend s config goal.layer goal.parent op).runIn w with ⟨res, w₁⟩
      rw [hrun] at hj hlink hleaves hclimb
      cases res with
      | error e =>
        exact ⟨ms, [], .error e, c₁, w₁, rfl, hj, hlink, hleaves, .fallen hk hclimb, by
          rw [hsteps, List.append_nil], htag, fun hok => by cases hok⟩
      | ok status =>
        -- the disk of this step is whole, and stands below the next one
        obtain ⟨l, hl', hres⟩ := hclimb.realized
        have hwhole := hres.isWhole
        rw [hl'.location, FileSystem.isWhole, Bool.and_eq_true] at hwhole
        obtain ⟨ms', reports, res, c', w', hrun', hj', hlink', hleaves', hasc, hsteps', htag', hlast⟩ :=
          ih (hstands status) (hs.within hclimb.within) (hleaves.undisturbed hu) (by
            rintro k hk'
            cases hk'
            exact ⟨isValidName_nextKey hk, hwhole.1⟩)
        refine ⟨ms ++ ms', _ :: reports, res, c', w', hrun', ?_, hlink.append hlink', hleaves.trans hleaves',
          .step hk hclimb hasc, ?_, ?_, ?_⟩
        · rw [hj', hj, List.append_assoc]
        · rw [hsteps', Context.record]
          dsimp only
          rw [hsteps, hfor.directive, hfor.identity, List.append_assoc]
          rfl
        · rw [htag']
          exact htag
        · intro hok
          rw [lastKey_cons hk]
          exact hlast hok

namespace Ascent
variable {σ : Type} {backend : Backend σ} {s : Store} {r : Trail} {force : Bool}
  {below : Option Identity} {ops : List Operation} {fs fs' : FileSystem}
  {res : Except BuildError Unit} {reports : List StepReport} {ms : List Moment}

/-- nothing changes but the keys of the steps that were completed, and of the next one -/
theorem within (h : Ascent backend s r force below ops fs res reports ms fs') :
    FileSystem.Within (Store.keyTrails r ((keysFrom below ops).take (reports.length + 1))) fs fs' ∧
      ∀ m ∈ ms, FileSystem.Within
        (Store.keyTrails r ((keysFrom below ops).take (reports.length + 1))) fs m.after := by
  induction h with
  | top => exact ⟨.refl _ _, fun m hm => absurd hm List.not_mem_nil⟩
  | halted => exact ⟨.refl _ _, fun m hm => absurd hm List.not_mem_nil⟩
  | fallen hk hclimb =>
    rw [keysFrom, hk]
    exact ⟨hclimb.within, hclimb.after⟩
  | @step below op ops key fs status ms fs₁ res reports ms' fs₂ hk hclimb hasc ih =>
    rw [keysFrom, hk]
    dsimp only
    rw [List.length_cons, List.take_succ_cons]
    have hfirst : [key] ⊆ key :: (keysFrom (some key) ops).take (reports.length + 1) :=
      fun k hk => by rw [List.mem_singleton.mp hk]; exact List.mem_cons_self
    have hrest : (keysFrom (some key) ops).take (reports.length + 1)
        ⊆ key :: (keysFrom (some key) ops).take (reports.length + 1) :=
      fun k hk => List.mem_cons_of_mem _ hk
    have hw := hclimb.within.mono (Store.keyTrails_mono hfirst)
    refine ⟨hw.trans (ih.1.mono (Store.keyTrails_mono hrest)), fun m hm => ?_⟩
    rcases List.mem_append.mp hm with hm | hm
    · exact (hclimb.after m hm).mono (Store.keyTrails_mono hfirst)
    · exact hw.trans ((ih.2 m hm).mono (Store.keyTrails_mono hrest))

end Ascent

end DiskLayers
