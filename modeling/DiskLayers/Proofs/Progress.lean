import DiskLayers.Proofs.Backing
import DiskLayers.Proofs.Launches
import DiskLayers.Proofs.Order
import DiskLayers.Proofs.Reuse

/-!
# No dead ends

* `Layer.Unobstructed`     nothing is in the way of making the disk of a layer anew
* `FromInside`             a result that is no error from outside

What is not a failed call's fault comes from outside: from the files, from a lock, or from a machine on a
tag (`BuildError.isOutside`).  In a store that is in order, where locks are free and names fit, nothing
comes from there, step by step (`applyAll_inside`) and for a whole build (`build_inside`).  Builds leave
order behind, so that none of them can bring a store into a state that a later build does not get out of
(`builds_never_stuck`).
-/

namespace DiskLayers
open DiskLayers.Path

/-- Nothing is in the way of making the disk of a layer anew: its names fit, and no directory stands where
its files belong. -/
structure Layer.Unobstructed (l : Layer) (dir : Path) (d : Trail) (fs : FileSystem) : Prop where
  lies : l.LiesIn dir d fs
  fits : dir.Fits (markerName l.identity.name)
  disk : fs.node? (l.diskTrail d) ≠ some .dir
  marker : fs.node? (l.markerTrail d) ≠ some .dir

theorem Layer.Unobstructed.within {l : Layer} {dir : Path} {d : Trail} {fs fs' : FileSystem}
    {T : Set Trail} (h : l.Unobstructed dir d fs) (hw : FileSystem.Within T fs fs')
    (hT : ∀ t ∈ l.trails d, t ∉ T) : l.Unobstructed dir d fs' := by
  refine ⟨h.lies.within hw, h.fits, ?_, ?_⟩
  · rw [hw.same _ (hT _ (Or.inl rfl))]
    exact h.disk
  · rw [hw.same _ (hT _ (Or.inr rfl))]
    exact h.marker

def FromInside (res : Except BuildError α) : Prop := ∀ e, res = .error e → e.isOutside = false

theorem fromInside_ok (a : α) : FromInside (.ok a) := fun e he => by cases he

/-- an error comes from inside whatever else could have come -/
theorem FromInside.error {e : BuildError} (h : FromInside (.error e : Except BuildError α)) :
    FromInside (.error e : Except BuildError β) := by
  rintro _ ⟨⟩
  exact h e rfl

theorem Layer.isOutside_callError (l : Layer) (c : Call) (e : ToolError) :
    (l.callError c e).isOutside = false := by
  cases c <;> rfl

/-- What stops the making of a disk that nothing is in the way of comes from inside. -/
theorem Remade.inside {σ : Type} {backend : Backend σ} {l : Layer} {dir : Path} {d : Trail}
    {calls : List Call} {fs fs' : FileSystem} {res : Except BuildError Unit} {ms : List Moment}
    (h : Remade backend l dir d calls fs res ms fs') (hl : l.Unobstructed dir d fs) :
    FromInside res := by
  rintro e rfl
  cases h with
  | stuck hdir => exact absurd hdir hl.disk
  | refused _ hdir => exact absurd (hdir hl.fits) hl.marker
  | orphaned => rfl
  | failed => exact l.isOutside_callError _ _

namespace Act
variable {σ : Type} {backend : Backend σ} {w : World σ} {s : Store} {r : Trail} {l : Layer}
  {dir : Path} {d : Trail} (config : BuildConfig) (hs : s.StandsAt r w.files) (hu : w.Undisturbed)
  (hc : w.Clear r) (hlock : s.LockFits l.kind l.identity) (h : l.Unobstructed dir d w.files)
  (hout : ∀ t ∈ l.trails d, t ∉ Store.lockTrails r) (hb : backend.Confined) (hl : backend.LeavesFiles)
include hs hu hc hlock h

omit h in
theorem ends_acquire_clear (hv : isValidName l.identity.name = true) :
    ((s.acquire l config.command config.lockWait).mapError (.ofStore l) :
      Act σ BuildError Lock).Ends w fun res ms w' => w.Locks r ms w' ∧ ∃ lock, res = .ok lock :=
  (ends_acquireOf config hs hu hv).mono fun _ _ _ h => ⟨h.1, (h.2.1 hc).2 hlock⟩

include hout hb hl

/-- what stops a step comes from inside -/
theorem ends_realize_inside {op : Operation} {parent : Option Layer}
    (hbase : parent = none → op.isBase = true)
    (hp : ∀ p, parent = some p → p.location = l.location ∨ ∀ fs,
      FileSystem.Within (l.trails d ∪ Store.lockTrails r) w.files fs → fs.isFile p.location = true) :
    (realize backend s config l parent op).Ends w fun res _ _ => FromInside res := by
  rw [realize]
  refine ends_inspect_bind ?_
  split
  · exact ends_pure (fromInside_ok _)
  refine (ends_acquire_clear config hs hu hc hlock h.lies.valid).during ?_ ?_
  · rintro lock ms₀ w₀ ⟨hlocks, -⟩
    have hw₀ := hlocks.reaches.within
    refine ends_inspect_bind ?_
    split
    · exact ends_pure (fromInside_ok _)
    have hmake := ends_makeDisk op (h.lies.within hw₀) hb hl hbase fun p hpp =>
      (hp p hpp).imp_right fun hp fs hw => hp fs ((hw₀.mono Set.subset_union_right).trans
        (hw.mono Set.subset_union_left))
    refine hmake.bind (fun _ _ _ _ => ends_pure (fromInside_ok _)) ?_
    rintro e ms w' ⟨-, -, -, hres⟩
    exact (hres.inside (h.within hw₀ hout)).error
  · rintro e ms w' ⟨-, lock, hlock⟩
    cases hlock

/-- what stops the setting of a tag that no machine runs on comes from inside -/
theorem ends_makeTag_inside {terminal : Layer}
    (hp : ∀ fs, FileSystem.Within (l.trails d ∪ Store.lockTrails r) w.files fs →
      fs.isFile terminal.location = true)
    (hunused : ∀ fs, FileSystem.Within (Store.lockTrails r) w.files fs →
      s.ensureUnused fs l.identity.name = .ok ()) :
    (makeTag backend s config l terminal).Ends w fun res _ _ => FromInside res := by
  rw [makeTag_eq]
  refine (ends_acquire_clear config hs hu hc hlock h.lies.valid).during ?_ ?_
  · rintro lock ms₀ w₀ ⟨hlocks, -⟩
    have hw₀ := hlocks.reaches.within
    refine (ends_refuseIfUsed s l.identity.name w₀).bind_mapError ?_ fun e _ _ he => by
      cases he.2.2.trans (hunused _ hw₀)
    rintro ⟨⟩ ms v ⟨-, rfl, -⟩
    refine (ends_remakeTag (h.lies.within hw₀) hb hl fun fs hw => hp fs
      ((hw₀.mono Set.subset_union_right).trans (hw.mono Set.subset_union_left))).mono ?_
    rintro res ms w' ⟨-, -, -, hres⟩
    exact hres.inside (h.within hw₀ hout)
  · rintro e ms w' ⟨-, lock, hlock⟩
    cases hlock

end Act

/-! ## steps and tags in a store that is in order -/

namespace Store.Orderly
variable {σ : Type} {backend : Backend σ} {s : Store} {r : Trail} {current : Path} {fs fs' : FileSystem}

/-- where the files of a key belong no directory stands -/
theorem unobstructed (h : s.Orderly r current fs) {l : Layer} (kind : LayerKind)
    (hv : isValidName l.identity.name = true)
    (hlies : l.location = (s.root.join (lockDir kind)).join (diskName l.identity.name))
    (hfits : (s.root.join (lockDir kind)).Fits (markerName l.identity.name)) :
    l.Unobstructed (s.root.join (lockDir kind)) (lockDir kind :: r) fs :=
  ⟨⟨hv, hlies, h.stands _ (lockDir_mem_directories kind)⟩, hfits,
    h.files _ ⟨kind, _, Or.inl rfl⟩, h.files _ ⟨kind, _, Or.inl rfl⟩⟩

/-- a step that succeeds leaves order behind -/
theorem climbed (h : s.Orderly r current fs) {force : Bool} {below : Option Identity} {op : Operation}
    {key : Identity} {status : StepStatus} {ms : List Moment}
    (hclimb : Climbed backend s r force below op key fs (.ok status) ms fs')
    (hv : isValidName key.name = true) (hfits : (s.root.join layersDir).Fits (markerName key.name))
    (htidy : LocksTidy r fs') : s.Orderly r current fs' := by
  have hw := hclimb.within
  obtain ⟨l, hl, hreal⟩ := hclimb.realized
  have hwhole := hreal.isWhole
  rw [hl.location, layerPath, FileSystem.isWhole_join (h.stands.within hw).layers hv] at hwhole
  obtain ⟨⟨-, b, c, hdisk⟩, hmarker⟩ := hwhole
  refine ⟨h.stands.within hw, ?_, ?_, htidy.dirs, fun name => ?_⟩
  · rw [← h.here, FileSystem.currentPath, hw.current, FileSystem.currentPath]
  · rintro t ⟨kind, name, rfl | rfl⟩
    · by_cases hkey : name :: lockDir kind :: r ∈ keyTrails r [key]
      · rcases hkey with ⟨k, hk, ht | ht⟩ | ht
        · rw [ht, List.mem_singleton.mp hk, hdisk]
          simp
        · rw [ht, List.mem_singleton.mp hk, hmarker hfits]
          simp
        · exact absurd ht (not_mem_lockTrails (lockDir_ne_locksDir kind) _)
      · rw [hw.same _ hkey]
        exact h.files _ ⟨kind, name, Or.inl rfl⟩
    · exact htidy.files kind name
  · rw [hw.same _ ?_]
    · exact h.machines name
    · rintro (⟨k, -, ht | ht⟩ | ht)
      · exact absurd (List.cons.inj (List.cons.inj ht).2).1 (by decide)
      · exact absurd (List.cons.inj (List.cons.inj ht).2).1 (by decide)
      · exact not_mem_lockTrails (by decide) _ ht

end Store.Orderly

section
variable {σ : Type} {backend : Backend σ} {s : Store} {r : Trail} {current : Path} {w : World σ}
  (config : BuildConfig) (ha : s.root.isAbsolute = true) (hb : backend.Confined)
  (hl : backend.LeavesFiles)
include ha hb hl

/-- What stops the steps of a build comes from inside, and if nothing does they leave order behind.  By
induction on the operations. -/
theorem applyAll_inside {ops : List Operation} {below : Option Identity} {c : Context}
    (hc : c.StandsOn s below) (ho : s.Orderly r current w.files) (hu : w.Undisturbed)
    (hclear : w.Clear r) (hbelow : ∀ k, below = some k → isValidName k.name = true ∧
      w.files.isFile (s.layerPath k) = true)
    (hfits : ∀ key ∈ keysFrom below ops, (s.root.join Store.layersDir).Fits (markerName key.name)) :
    let out := (applyAll backend s config ops).runIn c w
    FromInside out.1.1 ∧ (out.1.1 = .ok () → s.Orderly r current out.2.files) := by
  induction ops generalizing below c w with
  | nil => exact ⟨fromInside_ok (), fun _ => ho⟩
  | cons op ops ih =>
    rw [applyAll_runIn_cons, applyOne_runIn]
    rcases Context.extend_cases hc op with ⟨e, hk, he⟩ |
      ⟨key, goal, c₁, hk, he, hfor, hparent, -, hstands⟩
    · rw [he]
      refine ⟨?_, fun hok => by cases hok⟩
      rintro _ ⟨⟩
      rfl
    rw [he]
    dsimp only
    rw [keysFrom, hk] at hfits
    have hv := isValidName_nextKey hk
    have hkind : Store.lockDir goal.layer.kind = Store.layersDir := Context.lockDir_of_extend he
    have hfit := hfits key List.mem_cons_self
    have hfree : goal.layer.Unobstructed (s.root.join Store.layersDir) (Store.layersDir :: r)
        w.files := by
      refine ho.unobstructed .derived ?_ ?_ ?_
      · rw [hfor.identity]
        exact hv
      · rw [hfor.location, hfor.identity]
        rfl
      · rw [hfor.identity]
        exact hfit
    have hlock : s.LockFits goal.layer.kind goal.layer.identity := by
      rw [hfor.identity]
      refine lockFits_of_marker _ hv ha ?_
      rw [hkind]
      exact hfit
    have hout := goal.layer.trails_not_mem_lockTrails
      (show Store.layersDir ≠ Store.locksDir by decide) r
    have hinside := Act.ends_realize_inside config ho.stands hu hclear hlock hfree hout hb hl
      (isBase_of_parent hk hparent) (hfor.below_stays ho.stands hparent hbelow)
    have hclimbs := ends_climbed config hb hl ho.stands hu hk hfor hparent hbelow
    obtain ⟨-, -, -, hres⟩ := hinside
    obtain ⟨ms, -, -, hleaves, hclimb⟩ := hclimbs
    -- the step stops for a reason from inside, or leaves a store in order to the next one
    rcases hrun : (realize backend s config goal.layer goal.parent op).runIn w with ⟨res, w₁⟩
    rw [hrun] at hres hleaves hclimb
    cases res with
    | error e =>
      exact ⟨hres.error, fun hok => by cases hok⟩
    | ok status =>
      have hclear₁ := hleaves.clear hclear
      have ho₁ := ho.climbed hclimb hv hfit hclear₁.tidy
      obtain ⟨l, hl', hreal⟩ := hclimb.realized
      have hwhole := hreal.isWhole
      rw [hl'.location, FileSystem.isWhole, Bool.and_eq_true] at hwhole
      exact ih (hstands status) ho₁ (hleaves.undisturbed hu) hclear₁
        (fun k hk' => by cases hk'; exact ⟨hv, hwhole.1⟩)
        fun k hk' => hfits k (List.mem_cons_of_mem _ hk')

omit ha hb hl in
/-- where there are no machines every tag may be changed -/
theorem Store.Orderly.ensureUnused {fs fs' : FileSystem} (h : s.Orderly r current fs)
    (hw : FileSystem.Within (Store.lockTrails r) fs fs') (tag : String) :
    s.ensureUnused fs' tag = .ok () := by
  have hnone : ∀ name, fs'.node? (name :: Store.instancesDir :: r) = none := fun name => by
    rw [hw.same _ (Store.not_mem_lockTrails (by decide) _)]
    exact h.machines name
  have hrecorded : Recorded s r [] fs' :=
    ⟨List.nodup_nil, by simp, by simp, by simp, by simp, by simp,
      fun name hn => absurd (hnone name) hn, fun name => by rw [hnone]; simp⟩
  exact (hrecorded.ensureUnused_eq_ok (h.stands.within hw)).mpr (by simp)

/-- What stops the setting of a tag comes from inside. -/
theorem tagAs_inside {c : Context} {name : String} {key : Identity} (hv : isValidName name = true)
    (hc : c.StandsOn s (some key)) (hk : isValidName key.name = true)
    (hfile : w.files.isFile (s.layerPath key) = true) (ho : s.Orderly r current w.files)
    (hu : w.Undisturbed) (hclear : w.Clear r)
    (hfits : (s.root.join Store.tagsDir).Fits (markerName name)) :
    FromInside ((tagAs backend s config name).runIn c w).1.1 := by
  obtain ⟨id, terminal, hcur, -, hloc⟩ := hc
  obtain ⟨l, hl'⟩ : ∃ l : Layer, l = { s.tagNamed name with parent := some id } := ⟨_, rfl⟩
  have hname : l.identity = ⟨name⟩ := by rw [hl', Store.tagNamed]
  have hkind : l.kind = .tag := by rw [hl', Store.tagNamed]
  have hpath : l.location = s.tagPath name := by rw [hl', Store.tagNamed]
  have hfree : l.Unobstructed (s.root.join Store.tagsDir) (Store.tagsDir :: r) w.files := by
    refine ho.unobstructed .tag ?_ ?_ ?_
    · rw [hname]
      exact hv
    · rw [hpath, hname]
      rfl
    · rw [hname]
      exact hfits
  have hlock : s.LockFits l.kind l.identity := by
    rw [hkind, hname]
    exact lockFits_of_marker .tag hv ha hfits
  have hout := l.trails_not_mem_lockTrails (show Store.tagsDir ≠ Store.locksDir by decide) r
  have hstays : ∀ fs, FileSystem.Within (l.trails (Store.tagsDir :: r) ∪ Store.lockTrails r) w.files fs →
      fs.isFile terminal.location = true := by
    rw [hloc]
    exact fun fs => ho.stands.layer_stays hk hfile
  obtain ⟨-, -, -, hres⟩ := Act.ends_makeTag_inside config ho.stands hu hclear hlock hfree hout hb hl
    hstays fun fs hw => ho.ensureUnused hw _
  rw [tagAs_runIn_of_current config w hv hcur hl']
  rcases hrun : (makeTag backend s config l terminal).runIn w with ⟨res, w'⟩
  rw [hrun] at hres
  cases res with
  | ok u => exact fromInside_ok name
  | error e => exact hres.error

/-- What stops a build in a store that is in order comes from inside, where locks are free and names
fit. -/
theorem build_inside {ops : List Operation} {tag : Option String} (ho : s.Orderly r current w.files)
    (hu : w.Undisturbed) (hfree : ∀ ref ∈ w.locked, ref.trail ∉ Store.lockTrails r)
    (hroot : config.storeRoot.absolute? current = some s.root)
    (hfits : ∀ key ∈ keysFrom none ops, (s.root.join Store.layersDir).Fits (markerName key.name))
    (htag : ∀ name, tag = some name → isValidName name = true ∧
      (s.root.join Store.tagsDir).Fits (markerName name)) :
    FromInside ((build backend config ops tag).runIn w).1 := by
  by_cases hne : ops = []
  · rw [hne, build_of_nil]
    rintro _ ⟨⟩
    rfl
  have hempty : Context.StandsOn s {} none := rfl
  have hclear : (w.reopened s).Clear r := ⟨hfree, ho.tidy⟩
  rw [build_runIn_reopened ho.stands ha (ho.here ▸ hroot) hne fun name h => (htag name h).1, resume,
    Act.runIn_ofFunction, buildIn_runIn]
  obtain ⟨hsteps, horder⟩ := applyAll_inside (w := w.reopened s) config ha hb hl hempty ho hu hclear
    (by rintro _ ⟨⟩) hfits
  obtain ⟨ms, reports, res, c, w₁, hrun, -, -, hleaves, hasc, -, -, hlast⟩ :=
    ends_applyAll (w := w.reopened s) config ops hb hl hempty ho.stands hu (by rintro _ ⟨⟩)
  rw [hrun] at hsteps horder ⊢
  cases res with
  | error e => exact hsteps.error
  | ok u =>
    obtain ⟨key, hkey, hmem⟩ := lastKey_of_ok hasc hne
    have hstands := hlast rfl
    rw [hkey] at hstands
    cases tag with
    | none =>
      obtain ⟨o, ho', -⟩ := outcome_eq_ok hstands
      dsimp only
      rw [ho']
      exact fromInside_ok o
    | some name =>
      obtain ⟨hv, hfit⟩ := htag name rfl
      have hk := isValidName_of_mem_keysFrom hmem
      have hwhole := isWhole_lastKey hasc (by rintro _ ⟨⟩) hkey
      rw [FileSystem.isWhole, Bool.and_eq_true] at hwhole
      have htags := tagAs_inside config ha hb hl hv hstands hk hwhole.1 (horder rfl)
        (hleaves.undisturbed hu) (hleaves.clear hclear) hfit
      obtain ⟨l, terminal, c', -, -, -, -, hstands', hrun'⟩ :=
        @tagAs_runIn σ backend s config c w₁ name key hv hstands
      dsimp only
      rw [hrun'] at htags ⊢
      rcases hmake : (makeTag backend s config l terminal).runIn w₁ with ⟨res, w₂⟩
      rw [hmake] at htags
      cases res with
      | error e => exact htags.error
      | ok u =>
        obtain ⟨o, ho', -⟩ := outcome_eq_ok hstands'
        dsimp only [Except.map]
        rw [ho']
        exact fromInside_ok o

end

/-! ## builds after builds -/

/-- after a build that succeeds the disk of its tag is whole -/
theorem Raised.isWhole_tag {σ : Type} {backend : Backend σ} {s : Store} {r : Trail} {force : Bool}
    {ops : List Operation} {name : String} {fs fs' : FileSystem} {o : BuildOutcome}
    {reports : List StepReport} {ms : List Moment}
    (h : Raised backend s r force ops (some name) fs (.ok o) reports ms fs') :
    fs'.isWhole (s.tagPath name) = true := by
  generalize hres : (Except.ok o : Except BuildError BuildOutcome) = res at h
  cases h with
  | fallen => cases hres
  | @ended _ _ _ key res₁ _ _ _ _ _ hended herr _ =>
    obtain ⟨l, -, hpath, htagged⟩ := hended.some name rfl
    cases res₁ with
    | error e =>
      rw [herr e rfl] at hres
      cases hres
    | ok u =>
      cases htagged with
      | remade _ _ _ hremade _ =>
        cases hremade with
        | made _ _ _ _ _ _ hwhole _ =>
          rw [← hpath]
          exact hwhole

theorem makingOf_tag {s : Store} {force : Bool} {ops : List Operation} {steps : List PlannedStep}
    {name : String} {p : PlannedStep} {ms : List Moment} (hp : steps.getLast? = some p)
    (h : Answered (s.buildCalls force ops steps (some name)) (answersOf ms) none) :
    makingOf ms (s.tagPath name) = some (.snapshot (s.layerPath p.identity) (s.tagPath name)) := by
  rw [makingOf_of_answered h, Store.buildCalls, hp]
  show (List.filter _ (_ ++ [Call.snapshot (s.layerPath p.identity) (s.tagPath name)])).getLast? = _
  rw [List.filter_append, List.getLast?_append, List.filter_singleton]
  simp [Call.makes?]

/-- No dead ends.  Whatever builds were done in a store that was empty, and however they ended: a build of
operations that can be planned, with keys of their own, fails only with a call.  If all its calls succeed
the build does, and all its disks are whole, with that of its tag, made from the last layer. -/
theorem builds_never_stuck {σ τ : Type} {history : Backend σ} {backend : Backend τ} {s : Store}
    {bs : List BuildRequest} {w : World σ} {v : World τ} {config : BuildConfig} {ops : List Operation}
    {tag : Option String} {steps : List PlannedStep} (ha : s.root.isAbsolute = true)
    (hempty : s.IsEmpty w.files) (hwf : w.files.WellFormed) (hu : w.Undisturbed)
    (hconfined : history.Confined) (hfiles : history.MakesNoDirectories)
    (hroots : ∀ b ∈ bs, b.config.storeRoot.absolute? w.files.currentPath = some s.root)
    (hreached : v.files = (runBuilds history bs w).files) (hv : v.Undisturbed)
    (hfree : ∀ ref ∈ v.locked, ref.trail ∉ Store.lockTrails s.root.trail)
    (hb : backend.Confined) (hl : backend.LeavesFiles)
    (hroot : config.storeRoot.absolute? w.files.currentPath = some s.root)
    (hplan : plan s v.files ops = .ok steps) (hd : (steps.map PlannedStep.identity).Nodup)
    (hfits : ∀ p ∈ steps, (s.root.join Store.layersDir).Fits (markerName p.identity.name))
    (htag : ∀ name, tag = some name → isValidName name = true ∧
      (s.root.join Store.tagsDir).Fits (markerName name)) :
    let out := (build backend config ops tag).runIn v
    ∃ ms, out.2.journal = v.journal ++ ms ∧
      (∀ e, out.1 = .error e → ∃ c cause, (c, .error cause) ∈ answersOf ms ∧ e.tool? = some cause) ∧
      ((∀ a ∈ answersOf ms, a.2 = .ok ()) →
        (∃ o, out.1 = .ok o ∧
          o.steps.map StepReport.identity = steps.map PlannedStep.identity) ∧
        (∀ p ∈ steps, out.2.files.isWhole (s.layerPath p.identity) = true) ∧
        ∀ name, tag = some name → out.2.files.isWhole (s.tagPath name) = true ∧
          ∃ p, steps.getLast? = some p ∧ makingOf ms (s.tagPath name) =
            some (.snapshot (s.layerPath p.identity) (s.tagPath name))) := by
  intro out
  obtain ⟨r, hs⟩ := hempty.standsAt ha
  have horder := (hempty.orderly hs hwf).runBuilds ha hconfined hfiles hu hroots
  rw [← hreached] at horder
  rw [← hs.eq_trail ha] at hfree
  have hne : ops ≠ [] := by
    rintro rfl
    cases hplan
  rw [plan_eq, if_neg hne] at hplan
  have hkeys := keysFrom_of_planFrom hplan
  have hinside := build_inside config ha hb hl horder hv hfree hroot (fun key hk => by
    rw [hkeys] at hk
    obtain ⟨p, hp, rfl⟩ := List.mem_map.mp hk
    exact hfits p hp) htag
  have hends : (build backend config ops tag).Ends v _ :=
    ends_build_standing hb hl hv horder.stands ha (horder.here ▸ hroot)
  obtain ⟨ms, hj, -, -, ⟨-, -, -, hrefused⟩ | ⟨ms', rfl, hraised⟩⟩ := hends
  · rcases hrefused with hnil | ⟨name, rfl, hinvalid⟩
    · exact absurd hnil hne
    · rw [(htag name rfl).1] at hinvalid
      cases hinvalid
  obtain ⟨failure, hans, hblame⟩ := hraised.answered horder.stands hplan hd
    (fun p hp => (cached_of_planFrom hplan hp).symm) (fun name hn => (htag name hn).1) hinside
  have hanswers : answersOf (s.opening v.files ++ ms') = answersOf ms' := by
    rw [answersOf_append, s.answersOf_opening, List.nil_append]
  rw [← hanswers] at hans
  refine ⟨_, hj, fun e he => ?_, fun hall => ?_⟩
  · rcases hans.cases_of_blamed hblame with ⟨⟨o, ho⟩, -⟩ | ⟨j, c, cause, e', -, hlast, hres, htool⟩
    · cases ho.symm.trans he
    · cases hres.symm.trans he
      refine ⟨c, cause, ?_, htool⟩
      rw [hlast]
      exact List.mem_append_right _ (List.mem_singleton_self _)
  cases failure with
  | some f =>
    obtain ⟨c, cause⟩ := f
    obtain ⟨before, after, -, hlast⟩ := hans.eq_of_some
    have hfailed := hall (c, .error cause) (by simp [hlast])
    cases hfailed
  | none =>
    obtain ⟨o, ho⟩ := hblame
    rw [ho] at hraised
    refine ⟨⟨o, ho, ?_⟩, fun p hp => ?_, fun name hname => ?_⟩
    · rw [identities_of_build ho, hkeys]
    · refine hraised.isWhole horder.stands (hkeys ▸ hd) _ ?_
      rw [hkeys]
      exact List.mem_map_of_mem hp
    · subst hname
      obtain ⟨key, hkey⟩ := exists_lastKey hplan hne
      rw [lastKey_of_planFrom hplan] at hkey
      obtain ⟨p, hp, -⟩ := Option.map_eq_some_iff.mp hkey
      exact ⟨hraised.isWhole_tag, p, hp, makingOf_tag hp hans⟩

theorem Backend.makesNoDirectories_touching (refuses : Call → Bool) :
    (Backend.touching refuses : Backend σ).MakesNoDirectories := by
  intro c p hc tools fs t ht hdir
  rcases Backend.touching_cases refuses c tools fs with h | ⟨q, u, b, content, -, -, hw, hnode⟩
  · rwa [h] at hdir
  · by_cases hu : t = u
    · rw [hu, hnode] at hdir
      cases hdir
    · rwa [hw.same t hu] at hdir

theorem Backend.makesNoDirectories_interrupted : (Backend.interrupted : Backend σ).MakesNoDirectories := by
  intro c p hc tools fs t ht
  rw [interrupted, hc]
  exact makesNoDirectories_touching _ c p hc tools fs t ht

/-- what an interrupted build has left is cleared away by the next one -/
theorem builds_never_stuck_interrupted :
    let config : BuildConfig := { storeRoot := ⟨"/"⟩ }
    let w := runBuilds .interrupted [⟨config, [.base "d"], none⟩] (.on .cleared)
    let out := (build (.touching fun _ => false) config [.base "d"] (some "t")).runIn (.on w.files)
    plan ⟨⟨"/"⟩⟩ w.files [.base "d"] = .ok [⟨"BASE:d", ⟨"d"⟩, false⟩] ∧
      w.files.isPresent (Store.layerPath ⟨⟨"/"⟩⟩ ⟨"d"⟩) = true ∧ (∃ o, out.1 = .ok o) ∧
      out.2.files.isWhole (Store.layerPath ⟨⟨"/"⟩⟩ ⟨"d"⟩) = true ∧
      out.2.files.isWhole (Store.tagPath ⟨⟨"/"⟩⟩ "t") = true := by
  intro config w out
  have hplan : plan ⟨⟨"/"⟩⟩ w.files [.base "d"] = .ok [⟨"BASE:d", ⟨"d"⟩, false⟩] := by decide +kernel
  have hleft : w.files.isPresent (Store.layerPath ⟨⟨"/"⟩⟩ ⟨"d"⟩) = true := by decide +kernel
  have hcalls : ∀ a ∈ answersOf out.2.journal, a.2 = .ok () := by decide +kernel
  obtain ⟨ms, hj, -, hall⟩ := @builds_never_stuck Unit Unit .interrupted (.touching fun _ => false)
    ⟨⟨"/"⟩⟩ [⟨config, [.base "d"], none⟩] (.on .cleared) (.on w.files) config [.base "d"] (some "t")
    [⟨"BASE:d", ⟨"d"⟩, false⟩] (by decide) (by decide +kernel) (by decide +kernel)
    (World.undisturbed_on _) Backend.confined_interrupted Backend.makesNoDirectories_interrupted
    (by decide +kernel) rfl (World.undisturbed_on _) (fun ref href => absurd href List.not_mem_nil)
    (Backend.confined_touching _) (Backend.leavesFiles_touching _) (by decide +kernel) hplan
    (by decide +kernel) (by decide +kernel)
    (by rintro _ ⟨⟩; exact ⟨by decide +kernel, by decide +kernel⟩)
  have hms : out.2.journal = ms := hj
  rw [hms] at hcalls
  obtain ⟨⟨o, ho, -⟩, hlayers, htags⟩ := hall hcalls
  have hlayer := hlayers ⟨"BASE:d", ⟨"d"⟩, false⟩ List.mem_cons_self
  exact ⟨hplan, hleft, ⟨o, ho⟩, hlayer, (htags "t" rfl).1⟩

end DiskLayers
