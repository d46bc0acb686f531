import DiskLayers.Build.Run
import DiskLayers.Proofs.Ascent
import DiskLayers.Proofs.Opening

/-!
# Whole builds

* `completed`         the reports of the steps that a build has completed when it ends
* `Store.tagTrails`   the trails of a tag, and the locks
* `resume`            the rest of a build, after what a context tells
* `Ended`             what comes of setting a tag, if there is one to set
* `Raised`            what comes of a build in a store that is open
* `Built`             what comes of a build

`build_runIn` takes a build apart into opening the store and going up the chain.  `ends_resume` says
that nothing but `Raised` can come of what is done in the store, and `ends_build` that nothing but
`Built` can come of all.
-/

namespace DiskLayers
open DiskLayers.Path

def resume (backend : Backend σ) (s : Store) (config : BuildConfig) (c : Context)
    (ops : List Operation) (tag : Option String) : Act σ BuildError BuildOutcome :=
  .ofFunction fun w =>
    match (buildIn backend s config ops tag).runIn c w with
    | ((.error e, _), w') => (.error e, w')
    | ((.ok (), c'), w') => (c'.outcome, w')

section
variable {σ : Type} (backend : Backend σ) (config : BuildConfig) (ops : List Operation)
  (tag : Option String) (w : World σ)

def completed : List StepReport :=
  match (Store.open config.storeRoot : Act σ StoreError Store).runIn w with
  | (.error _, _) => []
  | (.ok s, w') => ((buildIn backend s config ops tag).runIn {} w').1.2.steps

theorem build_of_nil : (build backend config [] tag).runIn w = (.error (.script .empty), w) := by
  rw [build, if_pos rfl]
  rfl

theorem build_of_invalidTag {name : String} (hne : ops ≠ []) (hname : isValidName name = false) :
    (build backend config ops (some name)).runIn w = (.error (.script (.invalidTag name)), w) := by
  rw [build]
  simp only [hne, hname, ↓reduceIte, Bool.not_false]
  rfl

theorem build_refused (h : ¬ (ops ≠ [] ∧ ∀ name, tag = some name → isValidName name = true)) :
    ∃ e, (build backend config ops tag).runIn w = (.error (.script e), w) := by
  by_cases hne : ops = []
  · subst hne
    exact ⟨_, build_of_nil backend config tag w⟩
  · obtain ⟨name, hname⟩ := not_forall.mp fun htag => h ⟨hne, htag⟩
    obtain ⟨rfl, hv⟩ := Classical.not_imp.mp hname
    exact ⟨_, build_of_invalidTag backend config ops w hne (Bool.eq_false_iff.mpr hv)⟩

/-- a build opens the store, goes through the operations, and sets the tag -/
theorem build_runIn (hne : ops ≠ []) (htag : ∀ name, tag = some name → isValidName name = true) :
    (build backend config ops tag).runIn w =
      match (Store.open config.storeRoot : Act σ StoreError Store).runIn w with
      | (.error e, w') => (.error (.openStore e), w')
      | (.ok s, w') =>
        match (buildIn backend s config ops tag).runIn {} w' with
        | ((.error e, _), w'') => (.error e, w'')
        | ((.ok (), c), w'') => (c.outcome, w'') := by
  have hrest : (do
      let s ← (Store.open config.storeRoot).mapError .openStore
      Act.ofFunction fun w =>
        match (buildIn backend s config ops tag).runIn {} w with
        | ((.error e, _), w) => (.error e, w)
        | ((.ok (), c), w) => (c.outcome, w) : Act σ BuildError BuildOutcome).runIn w =
      match (Store.open config.storeRoot : Act σ StoreError Store).runIn w with
      | (.error e, w') => (.error (.openStore e), w')
      | (.ok s, w') =>
        match (buildIn backend s config ops tag).runIn {} w' with
        | ((.error e, _), w'') => (.error e, w'')
        | ((.ok (), c), w'') => (c.outcome, w'') := by
    rw [Act.runIn_bind, Act.runIn_mapError]
    rcases (Store.open config.storeRoot : Act σ StoreError Store).runIn w with ⟨res, w'⟩
    cases res <;> rfl
  rw [build, if_neg hne, ← hrest]
  cases tag with
  | none => rfl
  | some name =>
    dsimp only
    rw [htag name rfl]
    rfl

end

/-- disk and marker of a tag, if there is one to set, and the locks -/
def Store.tagTrails (r : Trail) (tag : Option String) : Set Trail :=
  {t | (∃ name, tag = some name ∧
    (t = diskName name :: tagsDir :: r ∨ t = markerName name :: tagsDir :: r)) ∨ t ∈ lockTrails r}

theorem Store.lockTrails_subset_tagTrails (r : Trail) (tag : Option String) :
    lockTrails r ⊆ tagTrails r tag := fun _ ht => Or.inr ht

theorem Store.not_mem_tagTrails {r : Trail} {tag : Option String} {dir : String} (hd : dir ≠ tagsDir)
    (hd' : dir ≠ locksDir) (name : String) : name :: dir :: r ∉ tagTrails r tag := by
  rintro (⟨x, -, hx | hx⟩ | hx)
  · exact hd (List.cons.inj (List.cons.inj hx).2).1
  · exact hd (List.cons.inj (List.cons.inj hx).2).1
  · exact not_mem_lockTrails hd' _ hx

structure Ended (backend : Backend σ) (s : Store) (r : Trail) (key : Identity)
    (tag : Option String) (fs : FileSystem) (res : Except BuildError Unit) (ms : List Moment)
    (fs' : FileSystem) : Prop where
  within : FileSystem.Within (Store.tagTrails r tag) fs fs'
  after : ∀ m ∈ ms, FileSystem.Within (Store.tagTrails r tag) fs m.after
  none : tag = none → res = .ok () ∧ ms = []
  some : ∀ name, tag = some name → ∃ l : Layer, l.identity.name = name ∧ l.location = s.tagPath name ∧
    Tagged backend s r l (s.root.join Store.tagsDir) (Store.tagsDir :: r)
      [.snapshot (s.layerPath key) (s.tagPath name)] fs res ms fs'

/-- What comes of a build in a store that is open: the result, the reports of the steps it completed,
the moments, the files. -/
inductive Raised (backend : Backend σ) (s : Store) (r : Trail) (force : Bool) (ops : List Operation)
    (tag : Option String) (fs : FileSystem) :
    Except BuildError BuildOutcome → List StepReport → List Moment → FileSystem → Prop
  /-- a step fails -/
  | fallen {e reports ms fs'} : Ascent backend s r force none ops fs (.error e) reports ms fs' →
    Raised backend s r force ops tag fs (.error e) reports ms fs'
  /-- all steps succeed, and setting the tag may -/
  | ended {reports ms fs₁ key res ms' fs' res'} :
    Ascent backend s r force none ops fs (.ok ()) reports ms fs₁ → lastKey none ops = some key →
    Ended backend s r key tag fs₁ res ms' fs' → (∀ e, res = .error e → res' = .error e) →
    (res = .ok () → ∃ o, res' = .ok o ∧ o.steps = reports) →
    Raised backend s r force ops tag fs res' reports (ms ++ ms') fs'

/-- What comes of a build: the result, the reports of the steps it completed, the moments, the
files. -/
inductive Built (backend : Backend σ) (config : BuildConfig) (ops : List Operation)
    (tag : Option String) (fs : FileSystem) :
    Except BuildError BuildOutcome → List StepReport → List Moment → FileSystem → Prop
  /-- the store cannot be opened -/
  | unopened {e ms fs'} : answersOf ms = [] →
    (∀ root, config.storeRoot.absolute? fs.currentPath = some root →
      Opened root fs fs' ∧ ∀ m ∈ ms, Opened root fs m.after) →
    Built backend config ops tag fs (.error (.openStore e)) [] ms fs'
  /-- a step fails -/
  | fallen {s r ms₀ fs₀ e reports ms fs'} :
    config.storeRoot.absolute? fs.currentPath = some s.root → s.root.isAbsolute = true →
    Opened s.root fs fs₀ → s.StandsAt r fs₀ → answersOf ms₀ = [] →
    Ascent backend s r config.force none ops fs₀ (.error e) reports ms fs' →
    (∀ m ∈ ms₀, Opened s.root fs m.after) →
    Built backend config ops tag fs (.error e) reports (ms₀ ++ ms) fs'
  /-- all steps succeed, and setting the tag may -/
  | ended {s r ms₀ fs₀ reports ms fs₁ key res ms' fs' res'} :
    config.storeRoot.absolute? fs.currentPath = some s.root → s.root.isAbsolute = true →
    Opened s.root fs fs₀ → s.StandsAt r fs₀ → answersOf ms₀ = [] →
    Ascent backend s r config.force none ops fs₀ (.ok ()) reports ms fs₁ →
    lastKey none ops = some key → Ended backend s r key tag fs₁ res ms' fs' →
    (∀ e, res = .error e → res' = .error e) →
    (res = .ok () → ∃ o, res' = .ok o ∧ o.steps = reports) →
    (∀ m ∈ ms₀, Opened s.root fs m.after) →
    Built backend config ops tag fs res' reports (ms₀ ++ (ms ++ ms')) fs'

/-- one more layer does not change the end of the chain -/
theorem Context.current?_push {c : Context} {id : LayerId} {l : Layer}
    (h : c.current? = some (id, l)) (l' : Layer) :
    Context.current? { c with arena := (c.arena.push l').2 } = some (id, l) := by
  rw [current?] at h ⊢
  cases hlast : c.chain.getLast? with
  | none => rw [hlast] at h; cases h
  | some id' =>
    rw [hlast] at h
    have h' : ((c.arena.get? id').bind fun l => some (id', l)) = some (id, l) := h
    cases hget : c.arena.get? id' with
    | none => rw [hget] at h'; cases h'
    | some k =>
      rw [hget] at h'
      cases h'
      have hlt : id.index < c.arena.size := by
        rw [Arena.get?, List.getElem?_eq_some_iff] at hget
        exact hget.1
      show (((c.arena.push l').2.get? id).bind fun l => some (id, l)) = some (id, l)
      rw [Arena.get?_push_of_lt c.arena l' hlt, hget]
      rfl

theorem lastKey_of_ok {backend : Backend σ} {s : Store} {r : Trail} {force : Bool}
    {below : Option Identity} {ops : List Operation} {fs fs' : FileSystem}
    {reports : List StepReport} {ms : List Moment}
    (h : Ascent backend s r force below ops fs (.ok ()) reports ms fs') (hne : ops ≠ []) :
    ∃ key, lastKey below ops = some key ∧ key ∈ keysFrom below ops := by
  cases ops with
  | nil => exact absurd rfl hne
  | cons op ops =>
    cases h with
    | step hk _ _ =>
      rw [lastKey, keysFrom, hk]
      dsimp only
      rw [List.getLast?_eq_some_getLast (List.cons_ne_nil _ _)]
      exact ⟨_, rfl, List.getLast_mem _⟩

/-- the last key is whole after steps that all succeeded -/
theorem isWhole_lastKey {backend : Backend σ} {s : Store} {r : Trail} {force : Bool}
    {below : Option Identity} {ops : List Operation} {fs fs' : FileSystem}
    {reports : List StepReport} {ms : List Moment} {key : Identity}
    (h : Ascent backend s r force below ops fs (.ok ()) reports ms fs')
    (hbelow : ∀ k, below = some k → fs.isWhole (s.layerPath k) = true)
    (hlast : lastKey below ops = some key) : fs'.isWhole (s.layerPath key) = true := by
  generalize hres : (Except.ok () : Except BuildError Unit) = res at h
  induction h with
  | top => exact hbelow key hlast
  | halted => cases hres
  | fallen => cases hres
  | @step below op ops k fs status ms fs₁ res reports ms' fs₂ hk hclimb hasc ih =>
    rw [lastKey_cons hk] at hlast
    refine ih (fun k' hk' => ?_) hlast hres
    cases hk'
    obtain ⟨l, hl, hr⟩ := hclimb.realized
    rw [← hl.location]
    exact hr.isWhole

/-! ## the end of a build -/

section
variable {σ : Type} {backend : Backend σ} {s : Store} {r : Trail} (config : BuildConfig)

/-- what a step comes to whose tag was made, or not, in the context with its layer -/
def Context.tagged (c : Context) (name : String) : Except BuildError Unit → Except BuildError String × Context
  | .ok () => (.ok name, { c with tag := some name })
  | .error e => (.error e, c)

/-- setting a tag is making its disk from the layer that was built last -/
theorem tagAs_runIn_of_current {c : Context} (w : World σ) {name : String} {id : LayerId}
    {l terminal : Layer} (hv : isValidName name = true) (hcur : c.current? = some (id, terminal))
    (hl : l = { s.tagNamed name with parent := some id }) :
    (tagAs backend s config name).runIn c w =
      match (makeTag backend s config l terminal).runIn w with
      | (.ok (), w') => ((.ok name, { c with arena := (c.arena.push l).2, tag := some name }), w')
      | (.error e, w') => ((.error e, { c with arena := (c.arena.push l).2 }), w') := by
  rw [tagAs, hv, Bool.not_true, if_neg (by simp)]
  rw [Folding.runIn_bind, Folding.runIn_get]
  dsimp only
  rw [hcur]
  dsimp only
  rw [← hl, Folding.runIn_bind, Folding.runIn_modify]
  dsimp only
  rw [Folding.runIn_bind, Folding.runIn_ofAct]
  rcases (makeTag backend s config l terminal).runIn w with ⟨res, w'⟩
  cases res <;> rfl

variable (backend) in
/-- a tag is refused by the script, or set by making its disk from the end of the chain -/
theorem tagAs_runIn_cases {c : Context} (name : String) :
    (∃ cause, ∀ w, (tagAs backend s config name).runIn c w = ((.error (.script cause), c), w)) ∨
      isValidName name = true ∧ ∃ id terminal, c.current? = some (id, terminal) ∧ ∀ w : World σ,
        let l := { s.tagNamed name with parent := some id }
        (tagAs backend s config name).runIn c w =
          (Context.tagged { c with arena := (c.arena.push l).2 } name
              ((makeTag backend s config l terminal).runIn w).1,
            ((makeTag backend s config l terminal).runIn w).2) := by
  cases hv : isValidName name with
  | false =>
    refine Or.inl ⟨.invalidTag name, fun w => ?_⟩
    rw [tagAs, hv, Bool.not_false, if_pos rfl, Folding.runIn_bind, Folding.runIn_throw]
  | true =>
    cases hcur : c.current? with
    | none =>
      refine Or.inl ⟨.nothingToTag, fun w => ?_⟩
      rw [tagAs, hv, Bool.not_true, if_neg (by simp), Folding.runIn_bind, Folding.runIn_get]
      dsimp only
      rw [hcur]
      rfl
    | some last =>
      obtain ⟨id, terminal⟩ := last
      refine Or.inr ⟨rfl, id, terminal, rfl, fun w => ?_⟩
      dsimp only
      rw [tagAs_runIn_of_current config w hv hcur rfl]
      rcases (makeTag backend s config { s.tagNamed name with parent := some id } terminal).runIn w
        with ⟨res, w'⟩
      cases res <;> rfl

/-- setting a tag leaves a context as it is, but for one more layer in the arena and the tag -/
theorem tagAs_context (c : Context) (w : World σ) (name : String) :
    let out := (tagAs backend s config name).runIn c w
    (out.1.2 = c ∧ ∃ e, out.1.1 = .error e) ∨
      ∃ last l, c.current? = some last ∧
        ((out.1.2 = { c with arena := (c.arena.push l).2, tag := some name } ∧
            out.1.1 = .ok name) ∨
          (out.1.2 = { c with arena := (c.arena.push l).2 } ∧ ∃ e, out.1.1 = .error e)) := by
  dsimp only
  rcases tagAs_runIn_cases backend config (s := s) (c := c) name with
    ⟨cause, hrun⟩ | ⟨-, id, terminal, hcur, hrun⟩
  · rw [hrun]
    exact Or.inl ⟨rfl, _, rfl⟩
  · rw [hrun]
    refine Or.inr ⟨_, { s.tagNamed name with parent := some id }, hcur, ?_⟩
    generalize ((makeTag backend s config _ terminal).runIn w).1 = made
    cases made with
    | ok _ => exact Or.inl ⟨rfl, rfl⟩
    | error e => exact Or.inr ⟨rfl, e, rfl⟩

/-- setting a tag makes its disk from the end of the chain, and leaves the chain as it is -/
theorem tagAs_runIn {c : Context} (w : World σ) {name : String} {key : Identity}
    (hv : isValidName name = true) (hc : c.StandsOn s (some key)) :
    ∃ (l terminal : Layer) (c' : Context), l.identity.name = name ∧ l.location = s.tagPath name ∧
      terminal.location = s.layerPath key ∧ c'.steps = c.steps ∧ c'.StandsOn s (some key) ∧
      (tagAs backend s config name).runIn c w =
        ((((makeTag backend s config l terminal).runIn w).1.map fun _ => name, c'),
          ((makeTag backend s config l terminal).runIn w).2) := by
  obtain ⟨id, terminal, hcur, hkey, hloc⟩ := hc
  obtain ⟨l, hl⟩ : ∃ l : Layer, l = { s.tagNamed name with parent := some id } := ⟨_, rfl⟩
  have hrun := @tagAs_runIn_of_current σ backend s config c w name id l terminal hv hcur hl
  have hstands : ∀ tag, Context.StandsOn s
      { c with arena := (c.arena.push l).2, tag := tag } (some key) := fun tag =>
    ⟨id, terminal, Context.current?_push hcur l, hkey, hloc⟩
  have hname : l.identity.name = name := by rw [hl, Store.tagNamed]
  have hpath : l.location = s.tagPath name := by rw [hl, Store.tagNamed]
  rw [hrun]
  rcases hm : (makeTag backend s config l terminal).runIn w with ⟨res, w'⟩
  cases res with
  | ok u =>
    refine ⟨l, terminal, { c with arena := (c.arena.push l).2, tag := some name }, hname, hpath,
      hloc, rfl, hstands _, ?_⟩
    rw [hm]
    rfl
  | error e =>
    refine ⟨l, terminal, { c with arena := (c.arena.push l).2 }, hname, hpath, hloc, rfl,
      hstands _, ?_⟩
    rw [hm]
    rfl

/-- the disk of a layer is there whatever becomes of a tag -/
theorem Store.StandsAt.layer_stays {l : Layer} {key : Identity} {fs fs' : FileSystem}
    (hs : s.StandsAt r fs) (hk : isValidName key.name = true)
    (hfile : fs.isFile (s.layerPath key) = true)
    (hw : FileSystem.Within (l.trails (Store.tagsDir :: r) ∪ Store.lockTrails r) fs fs') :
    fs'.isFile (s.layerPath key) = true := by
  have hplain := isPlain_diskName hk
  rw [Store.layerPath, FileSystem.isFile_join hs.layers hplain] at hfile
  rw [Store.layerPath, FileSystem.isFile_join (hw.lookup_dir hs.layers) hplain, hw.same _ ?_]
  · exact hfile
  · rintro ((ht | ht) | ht)
    · exact absurd (List.cons.inj (List.cons.inj ht).2).1 (by decide)
    · exact absurd (List.cons.inj (List.cons.inj ht).2).1 (by decide)
    · exact Store.not_mem_lockTrails (by decide) _ ht

/-- how making the disk of a tag ends -/
theorem ends_makeTagOf (l : Layer) {w : World σ} {name : String} {key : Identity}
    {terminal : Layer}
    (hb : backend.Confined) (hl : backend.LeavesFiles) (hs : s.StandsAt r w.files)
    (hu : w.Undisturbed) (hv : isValidName name = true) (hname : l.identity.name = name)
    (hpath : l.location = s.tagPath name) (hk : isValidName key.name = true)
    (hloc : terminal.location = s.layerPath key) (hfile : w.files.isFile (s.layerPath key) = true) :
    (makeTag backend s config l terminal).Ends w fun res ms w' =>
      w.Leaves r w' ∧
        Ended backend s r key (some name) w.files res ms w'.files := by
  have hlies : l.LiesIn (s.root.join Store.tagsDir) (Store.tagsDir :: r) w.files := by
    refine ⟨?_, ?_, hs.tags⟩
    · rw [hname]
      exact hv
    · rw [hpath, hname]
      rfl
  have htrails : l.trails (Store.tagsDir :: r) ∪ Store.lockTrails r ⊆
      Store.tagTrails r (some name) := by
    rintro t ((rfl | rfl) | ht)
    · exact Or.inl ⟨name, rfl, Or.inl (by rw [Layer.diskTrail, hname])⟩
    · exact Or.inl ⟨name, rfl, Or.inr (by rw [Layer.markerTrail, hname])⟩
    · exact Or.inr ht
  have hT := l.trails_not_mem_lockTrails (show Store.tagsDir ≠ Store.locksDir by decide) r
  have hp : ∀ fs, FileSystem.Within (l.trails (Store.tagsDir :: r) ∪ Store.lockTrails r) w.files fs →
      fs.isFile terminal.location = true := by
    rw [hloc]
    exact fun fs => hs.layer_stays hk hfile
  refine (Act.ends_makeTag config hs hu hlies hb hl hT hp).mono ?_
  rintro res ms w' ⟨hreach, hleaves, -, htagged⟩
  refine ⟨hleaves, hreach.within.mono htrails,
    fun m hm => (hreach.after m hm).mono htrails, fun h => (by cases h), fun name' hn => ?_⟩
  cases hn
  rw [hloc, hpath] at htagged
  exact ⟨l, hname, hpath, htagged⟩

theorem ends_tagAs {c : Context} {w : World σ} {name : String} {key : Identity}
    (hb : backend.Confined) (hl : backend.LeavesFiles) (hs : s.StandsAt r w.files)
    (hu : w.Undisturbed) (hv : isValidName name = true) (hc : c.StandsOn s (some key))
    (hk : isValidName key.name = true) (hfile : w.files.isFile (s.layerPath key) = true) :
    ∃ ms res c' w', (tagAs backend s config name).runIn c w = ((res.map fun _ => name, c'), w') ∧
      w'.journal = w.journal ++ ms ∧ Linked w.files ms w'.files ∧ w.Leaves r w' ∧
      Ended backend s r key (some name) w.files res ms w'.files ∧ c'.steps = c.steps ∧
      c'.StandsOn s (some key) := by
  obtain ⟨l, terminal, c', hname, hpath, hloc, hsteps, hstands, hrun⟩ :=
    tagAs_runIn config w hv hc
  obtain ⟨ms, hj, hlink, hleaves, hended⟩ :=
    ends_makeTagOf config l hb hl hs hu hv hname hpath hk hloc hfile
  exact ⟨ms, _, c', _, hrun, hj, hlink, hleaves, hended, hsteps, hstands⟩

theorem outcome_eq_ok {c : Context} {key : Identity} (h : c.StandsOn s (some key)) :
    ∃ o, c.outcome = .ok o ∧ o.steps = c.steps := by
  obtain ⟨id, l, hc, -, -⟩ := h
  rw [Context.outcome, hc]
  exact ⟨_, rfl, rfl⟩

end

section
variable {σ : Type} {backend : Backend σ} (config : BuildConfig) (ops : List Operation)
  (tag : Option String) {w : World σ}

/-- the operations, and then the tag if there is one -/
theorem buildIn_runIn (s : Store) (c : Context) :
    (buildIn backend s config ops tag).runIn c w =
      match (applyAll backend s config ops).runIn c w with
      | ((.error e, c'), w') => ((.error e, c'), w')
      | ((.ok (), c'), w') =>
        match tag with
        | none => ((.ok (), c'), w')
        | some name =>
          match (tagAs backend s config name).runIn c' w' with
          | ((.error e, c''), w'') => ((.error e, c''), w'')
          | ((.ok _, c''), w'') => ((.ok (), c''), w'') := by
  unfold buildIn
  rw [Folding.runIn_bind]
  rcases (applyAll backend s config ops).runIn c w with ⟨⟨res, c'⟩, w'⟩
  cases res with
  | error e => rfl
  | ok u =>
    cases tag with
    | none => rfl
    | some name =>
      dsimp only
      rw [Folding.runIn_bind]
      rcases (tagAs backend s config name).runIn c' w' with ⟨⟨res', c''⟩, w''⟩
      cases res' <;> rfl

/-- how the rest of a build ends in a store that is open -/
theorem ends_resume {s : Store} {r : Trail} (hb : backend.Confined) (hl : backend.LeavesFiles)
    (hs : s.StandsAt r w.files) (hu : w.Undisturbed) (hne : ops ≠ [])
    (htag : ∀ name, tag = some name → isValidName name = true) :
    (resume backend s config {} ops tag).Ends w fun res ms w' => w.Leaves r w' ∧
      Raised backend s r config.force ops tag w.files res
        ((buildIn backend s config ops tag).runIn {} w).1.2.steps ms w'.files := by
  have hempty : Context.StandsOn s {} none := rfl
  obtain ⟨ms₁, reports, res₁, c₁, w₁, hrun₁, hj₁, hlink₁, hleaves₁, hasc, hsteps₁, htag₁, hlast⟩ :=
    ends_applyAll config ops hb hl hempty hs hu (fun k hk => by cases hk)
  rw [Act.Ends, resume, Act.runIn_ofFunction, buildIn_runIn, hrun₁]
  have hreports : c₁.steps = reports := hsteps₁
  cases res₁ with
  | error e =>
    refine ⟨ms₁, hj₁, hlink₁, hleaves₁, ?_⟩
    show Raised backend s r config.force ops tag w.files (.error e) c₁.steps _ _
    rw [hreports]
    exact .fallen hasc
  | ok u =>
    obtain ⟨key, hkey, hmem⟩ := lastKey_of_ok hasc hne
    have hstands := hlast rfl
    rw [hkey] at hstands
    cases tag with
    | none =>
      obtain ⟨o, houtcome, hosteps⟩ := outcome_eq_ok hstands
      dsimp only
      refine ⟨ms₁ ++ [], ?_, ?_, hleaves₁, ?_⟩
      · rw [List.append_nil, hj₁]
      · rw [List.append_nil]
        exact hlink₁
      · rw [hreports, houtcome]
        have hended : Ended backend s r key none w₁.files (.ok ()) [] w₁.files :=
          ⟨.refl _ _, fun m hm => absurd hm List.not_mem_nil, fun _ => ⟨rfl, rfl⟩,
            fun name h => by cases h⟩
        exact .ended hasc hkey hended (fun e h => by cases h)
          (fun _ => ⟨o, rfl, hosteps.trans hreports⟩)
    | some name =>
      have hs₁ := hs.within hasc.within.1
      -- the end of the chain is whole, so there is something to tag
      have hwhole := isWhole_lastKey hasc (fun k hk => by cases hk) hkey
      rw [FileSystem.isWhole, Bool.and_eq_true] at hwhole
      obtain ⟨ms₂, res₂, c₂, w₂, hrun₂, hj₂, hlink₂, hleaves₂, hended, hsteps₂, hstands₂⟩ :=
        ends_tagAs config hb hl hs₁ (hleaves₁.undisturbed hu) (htag name rfl) hstands
          (isValidName_of_mem_keysFrom hmem) hwhole.1
      dsimp only
      rw [hrun₂]
      have hj : w₂.journal = w.journal ++ (ms₁ ++ ms₂) := by
        rw [hj₂, hj₁, List.append_assoc]
      have hlink := hlink₁.append hlink₂
      have hleaves := hleaves₁.trans hleaves₂
      have hreports₂ : c₂.steps = reports := hsteps₂.trans hreports
      cases res₂ with
      | error e =>
        refine ⟨_, hj, hlink, hleaves, ?_⟩
        show Raised backend s r config.force ops (some name) w.files (.error e) c₂.steps _ _
        rw [hreports₂]
        exact .ended hasc hkey hended (fun e' h => by cases h; rfl) (fun h => by cases h)
      | ok v =>
        obtain ⟨o, houtcome, hosteps⟩ := outcome_eq_ok hstands₂
        refine ⟨_, hj, hlink, hleaves, ?_⟩
        show Raised backend s r config.force ops (some name) w.files c₂.outcome c₂.steps _ _
        rw [hreports₂, houtcome]
        exact .ended hasc hkey hended (fun e' h => by cases h)
          (fun _ => ⟨o, rfl, hosteps.trans hreports₂⟩)

/-- how a build ends -/
theorem ends_build (hb : backend.Confined) (hl : backend.LeavesFiles) (hu : w.Undisturbed)
    (hne : ops ≠ []) (htag : ∀ name, tag = some name → isValidName name = true) :
    (build backend config ops tag).Ends w fun res ms w' => w'.Undisturbed ∧
      Built backend config ops tag w.files res (completed backend config ops tag w) ms w'.files := by
  obtain ⟨ms₀, hj₀, hlink₀, hopens⟩ := Act.ends_open (w := w) config.storeRoot
  rw [Act.Ends, build_runIn backend config ops tag w hne htag, completed]
  rcases hopen : (Store.open config.storeRoot : Act σ StoreError Store).runIn w with ⟨res₀, w₀⟩
  rw [hopen] at hj₀ hlink₀ hopens
  cases res₀ with
  | error e =>
    exact ⟨ms₀, hj₀, hlink₀, hopens.kept.undisturbed hu, .unopened hopens.silent hopens.opened⟩
  | ok s =>
    obtain ⟨habs, ha, r, hs⟩ := hopens.stands s rfl
    obtain ⟨ho, hafter⟩ := hopens.opened s.root habs
    have hu₀ := hopens.kept.undisturbed hu
    obtain ⟨ms₁, hj₁, hlink₁, hleaves, hraised⟩ := ends_resume config ops tag hb hl hs hu₀ hne htag
    refine ⟨ms₀ ++ ms₁, ?_, hlink₀.append hlink₁, hleaves.undisturbed hu₀, ?_⟩
    · rw [← List.append_assoc, ← hj₀]
      exact hj₁
    · show Built backend config ops tag w.files
        ((resume backend s config {} ops tag).runIn w₀).1 _ (ms₀ ++ ms₁)
          ((resume backend s config {} ops tag).runIn w₀).2.files
      generalize ((resume backend s config {} ops tag).runIn w₀).1 = res at hraised
      cases hraised with
      | fallen hasc => exact .fallen habs ha ho hs hopens.silent hasc hafter
      | ended hasc hkey hended herr hok =>
        exact .ended habs ha ho hs hopens.silent hasc hkey hended herr hok hafter

end

/-- what lies in the directory of layers, and what setting a tag touches -/
def Store.buildTrails (r : Trail) (tag : Option String) : Set Trail :=
  {t | (∃ name, t = name :: layersDir :: r) ∨ t ∈ tagTrails r tag}

theorem Store.keyTrails_subset_buildTrails (r : Trail) (tag : Option String) (keys : List Identity) :
    keyTrails r keys ⊆ buildTrails r tag := by
  rintro t (⟨k, -, rfl | rfl⟩ | ht)
  · exact Or.inl ⟨_, rfl⟩
  · exact Or.inl ⟨_, rfl⟩
  · exact Or.inr (Or.inr ht)

/-- a build touches nothing in its store but layers, its tag, and locks -/
theorem Raised.within {σ : Type} {backend : Backend σ} {s : Store} {r : Trail} {force : Bool}
    {ops : List Operation} {tag : Option String} {fs fs' : FileSystem}
    {res : Except BuildError BuildOutcome} {reports : List StepReport} {ms : List Moment}
    (h : Raised backend s r force ops tag fs res reports ms fs') :
    FileSystem.Within (Store.buildTrails r tag) fs fs' ∧
      ∀ m ∈ ms, FileSystem.Within (Store.buildTrails r tag) fs m.after := by
  have hsub := Store.keyTrails_subset_buildTrails r tag
  have hsub' : Store.tagTrails r tag ⊆ Store.buildTrails r tag := fun t ht => Or.inr ht
  cases h with
  | fallen hasc => exact ⟨hasc.within.1.mono (hsub _), fun m hm => (hasc.within.2 m hm).mono (hsub _)⟩
  | ended hasc _ hended _ _ =>
    have hw := hasc.within.1.mono (hsub _)
    refine ⟨hw.trans (hended.within.mono hsub'), fun m hm => ?_⟩
    rcases List.mem_append.mp hm with hm | hm
    · exact (hasc.within.2 m hm).mono (hsub _)
    · exact hw.trans ((hended.after m hm).mono hsub')

end DiskLayers
