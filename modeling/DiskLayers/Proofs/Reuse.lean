import DiskLayers.Proofs.Agreement
import DiskLayers.Proofs.Standing

/-!
# What was built is reused

* `StepReport.asCached`    the report of a step whose disk was found
* `Context.SharesLayers`   two contexts with the same chain of the same layers

Where all disks of some operations are whole, an unforced build goes through them and leaves the
world as it is (`applyAll_cached`): no call, no lock, no change of a file.  `build_reuses` says so
of a build after another one that begins with the same operations.
-/

namespace DiskLayers
open DiskLayers.Path

/-- the report of the same step where its disk is found -/
def StepReport.asCached (r : StepReport) : StepReport := { r with status := .cached }

/-! ## contexts with the same layers -/

namespace Context

structure SharesLayers (c c' : Context) : Prop where
  arena : c'.arena = c.arena
  chain : c'.chain = c.chain

variable {c c' d d' : Context} {s : Store} {op : Operation} {goal : Goal}

theorem SharesLayers.current? (h : c.SharesLayers c') : c'.current? = c.current? := by
  rw [Context.current?, Context.current?, h.arena, h.chain]

theorem SharesLayers.record (h : d.SharesLayers d') (id : LayerId) (l : Layer)
    (status status' : StepStatus) : (d.record id l status).SharesLayers (d'.record id l status') :=
  ⟨h.arena, by rw [Context.record, Context.record, h.chain]⟩

/-- what an operation adds to a chain depends on the chain only -/
theorem extend_of_sharesLayers (h : c.SharesLayers c') (he : c.extend s op = .ok (goal, d)) :
    ∃ d', c'.extend s op = .ok (goal, d') ∧ d.SharesLayers d' ∧ d'.steps = c'.steps ∧
      d'.stats = c'.stats := by
  unfold extend at he ⊢
  rw [h.current?, h.arena]
  cases hcur : c.current? with
  | none =>
    rw [hcur] at he
    cases op with
    | base reference =>
      dsimp only at he ⊢
      cases hb : Identity.base? reference with
      | none =>
        rw [hb] at he
        cases he
      | some key =>
        rw [hb] at he
        cases he
        exact ⟨_, rfl, ⟨rfl, h.chain⟩, rfl, rfl⟩
    | _ => cases he
  | some parent =>
    rw [hcur] at he
    dsimp only at he ⊢
    by_cases hbase : op.isBase = true
    · rw [if_pos hbase] at he
      cases he
    · rw [if_neg hbase] at he ⊢
      cases he
      exact ⟨_, rfl, ⟨rfl, h.chain⟩, rfl, rfl⟩

end Context

/-! ## steps whose disks are whole -/

section
variable {σ τ : Type} {backend : Backend σ} {backend' : Backend τ} {s : Store}
  {config config' : BuildConfig}

theorem realize_cached {l : Layer} {parent : Option Layer} {op : Operation} {w : World σ}
    (hforce : config.force = false) (h : w.files.isWhole l.location = true) :
    (realize backend s config l parent op).runIn w = (.ok .cached, w) := by
  have hr : isReusable config.force l w.files = true := by
    rw [isReusable, hforce, FileSystem.isComplete_eq_isWhole, h]
    simp
  rw [realize, Act.runIn_bind, Act.runIn_inspect]
  dsimp only
  rw [if_pos hr]
  rfl

/-- Operations that were once gone through, and whose disks are all whole, are gone through again
without any change of the world.  By induction on the operations; both contexts have the same
layers all along. -/
theorem applyAll_cached {ops : List Operation} {below : Option Identity} {c d c' : Context}
    {w w' : World σ} {v : World τ}
    (hrun : (applyAll backend s config ops).runIn c w = ((.ok (), d), w'))
    (hc : c.StandsOn s below) (hshare : c.SharesLayers c') (hforce : config'.force = false)
    (hwhole : ∀ key ∈ keysFrom below ops, v.files.isWhole (s.layerPath key) = true) :
    ∃ reports d', (applyAll backend' s config' ops).runIn c' v = ((.ok (), d'), v) ∧
      d.SharesLayers d' ∧ d.steps = c.steps ++ reports ∧
      d'.steps = c'.steps ++ reports.map StepReport.asCached ∧ reports.length = ops.length ∧
      d'.stats.built = c'.stats.built := by
  induction ops generalizing below c c' w with
  | nil =>
    have hd : ((Except.ok () : Except BuildError Unit), c) = (.ok (), d) := congrArg Prod.fst hrun
    cases hd
    exact ⟨[], c', rfl, hshare, by simp, by simp, rfl, rfl⟩
  | cons op ops ih =>
    rw [applyAll_runIn_cons, applyOne_runIn] at hrun ⊢
    rcases Context.extend_cases hc op with ⟨e, hk, he⟩ |
      ⟨key, goal, c₁, hk, he, hfor, -, ⟨hsteps, -, -⟩, hstands⟩
    · rw [he] at hrun
      cases congrArg (fun out => out.1.1) hrun
    · obtain ⟨c₁', he', hshare₁, hsteps', hstats'⟩ := Context.extend_of_sharesLayers hshare he
      rw [he] at hrun
      rw [he']
      rw [keysFrom, hk] at hwhole
      -- the world of the first run does not matter here: the disk is whole in the second one
      have hfound : v.files.isWhole goal.layer.location = true := by
        rw [hfor.location]
        exact hwhole key List.mem_cons_self
      dsimp only at hrun ⊢
      rw [realize_cached hforce hfound]
      rcases hreal : (realize backend s config goal.layer goal.parent op).runIn w with ⟨res, w₁⟩
      rw [hreal] at hrun
      cases res with
      | error e => cases congrArg (fun out => out.1.1) hrun
      | ok status =>
        obtain ⟨reports, d', hrun', hshare', hsteps₂, hsteps₂', hlen, hbuilt⟩ :=
          ih hrun (hstands status) (hshare₁.record goal.id goal.layer status .cached)
            fun k hmem => hwhole k (List.mem_cons_of_mem _ hmem)
        refine ⟨⟨op.descriptor, key, status⟩ :: reports, d', hrun', hshare', ?_, ?_, ?_, ?_⟩
        · rw [hsteps₂, Context.record]
          dsimp only
          rw [hsteps, hfor.directive, hfor.identity, List.append_assoc]
          rfl
        · rw [hsteps₂', Context.record]
          dsimp only
          rw [hsteps', hfor.directive, hfor.identity, List.append_assoc]
          rfl
        · rw [List.length_cons, List.length_cons, hlen]
        · rw [hbuilt, Context.record]
          dsimp only
          rw [hstats']
          rfl

/-! ## the end of a build -/

theorem tagAs_keeps (c : Context) (w : World σ) (name : String) :
    let out := (tagAs backend s config name).runIn c w
    out.1.2.steps = c.steps ∧ (out.1.2.current? = c.current? ∧ out.1.2.stats = c.stats) := by
  intro out
  rcases tagAs_context config c w name with
    ⟨hout, -⟩ | ⟨last, l, hcur, ⟨hout, -⟩ | ⟨hout, -⟩⟩
  · rw [show out.1.2 = c from hout]
    exact ⟨rfl, rfl, rfl⟩
  · rw [show out.1.2 = _ from hout, hcur]
    exact ⟨rfl, Context.current?_push hcur l, rfl⟩
  · rw [show out.1.2 = _ from hout, hcur]
    exact ⟨rfl, Context.current?_push hcur l, rfl⟩

/-- operations only add reports to those that are there -/
theorem steps_prefix_applyAll (ops : List Operation) (c : Context) (w : World σ) :
    c.steps <+: ((applyAll backend s config ops).runIn c w).1.2.steps := by
  induction ops generalizing c w with
  | nil => exact List.prefix_rfl
  | cons op ops ih =>
    rw [applyAll_runIn_cons, applyOne_runIn]
    cases he : c.extend s op with
    | error e => exact List.prefix_rfl
    | ok found =>
      obtain ⟨goal, c₁⟩ := found
      obtain ⟨c₁', he', -, hsteps, -⟩ := Context.extend_of_sharesLayers ⟨rfl, rfl⟩ he
      cases he.symm.trans he'
      dsimp only
      rcases (realize backend s config goal.layer goal.parent op).runIn w with ⟨res, w₁⟩
      cases res with
      | error e =>
        dsimp only
        rw [hsteps]
      | ok status =>
        refine List.IsPrefix.trans ?_ (ih (c₁.record goal.id goal.layer status) w₁)
        rw [Context.record]
        dsimp only
        rw [hsteps]
        exact List.prefix_append _ _

theorem steps_prefix_buildIn (ops : List Operation) (tag : Option String) (c : Context)
    (w : World σ) : c.steps <+: ((buildIn backend s config ops tag).runIn c w).1.2.steps := by
  have hall := @steps_prefix_applyAll σ backend s config ops c w
  rw [buildIn_runIn]
  rcases happly : (applyAll backend s config ops).runIn c w with ⟨⟨res, c₁⟩, w₁⟩
  rw [happly] at hall
  cases res with
  | error e => exact hall
  | ok u =>
    cases tag with
    | none => exact hall
    | some name =>
      have hkeeps := (@tagAs_keeps σ backend s config c₁ w₁ name).1
      dsimp only at hkeeps ⊢
      rcases htag : (tagAs backend s config name).runIn c₁ w₁ with ⟨⟨res', c₂⟩, w₂⟩
      rw [htag] at hkeeps
      rw [← hkeeps] at hall
      cases res' <;> exact hall

theorem applyAll_runIn_append (pre rest : List Operation) (c : Context) (w : World σ) :
    (applyAll backend s config (pre ++ rest)).runIn c w =
      match (applyAll backend s config pre).runIn c w with
      | ((.ok (), c'), w') => (applyAll backend s config rest).runIn c' w'
      | ((.error e, c'), w') => ((.error e, c'), w') := by
  induction pre generalizing c w with
  | nil => rfl
  | cons op pre ih =>
    rw [List.cons_append, applyAll_runIn_cons, applyAll_runIn_cons]
    rcases (applyOne backend s config op).runIn c w with ⟨⟨res, c₁⟩, w₁⟩
    cases res with
    | error e => rfl
    | ok id => exact ih c₁ w₁

theorem buildIn_append {pre rest : List Operation} {tag : Option String} {c c' : Context}
    {w w' : World σ} (h : (applyAll backend s config pre).runIn c w = ((.ok (), c'), w')) :
    (buildIn backend s config (pre ++ rest) tag).runIn c w =
      (buildIn backend s config rest tag).runIn c' w' := by
  rw [buildIn_runIn, buildIn_runIn, applyAll_runIn_append, h]

/-- the result of the rest of a build tells the end of the chain and all reports -/
theorem outcome_of_resume {ops : List Operation} {tag : Option String} {c : Context} {w : World σ}
    {o : BuildOutcome} (h : ((resume backend s config c ops tag).runIn w).1 = .ok o) :
    ∃ c' w', (applyAll backend s config ops).runIn c w = ((.ok (), c'), w') ∧ o.steps = c'.steps ∧
      o.stats = c'.stats ∧ c'.current?.map Prod.snd = some o.terminal := by
  have hend : ∀ {c' : Context}, c'.outcome = .ok o → o.steps = c'.steps ∧ o.stats = c'.stats ∧
      c'.current?.map Prod.snd = some o.terminal := by
    intro c' hc
    rw [Context.outcome] at hc
    cases hcur : c'.current? with
    | none =>
      rw [hcur] at hc
      cases hc
    | some last =>
      rw [hcur] at hc
      cases hc
      exact ⟨rfl, rfl, rfl⟩
  rw [resume, Act.runIn_ofFunction, buildIn_runIn] at h
  rcases happly : (applyAll backend s config ops).runIn c w with ⟨⟨res, c₁⟩, w₁⟩
  rw [happly] at h
  cases res with
  | error e => cases h
  | ok u =>
    refine ⟨c₁, w₁, rfl, ?_⟩
    cases tag with
    | none => exact hend h
    | some name =>
      obtain ⟨hsteps, hcur, hstats⟩ := @tagAs_keeps σ backend s config c₁ w₁ name
      dsimp only at h hsteps hcur hstats
      rcases htag : (tagAs backend s config name).runIn c₁ w₁ with ⟨⟨res', c₂⟩, w₂⟩
      rw [htag] at h hsteps hcur hstats
      cases res' with
      | error e => cases h
      | ok v =>
        obtain ⟨h1, h2, h3⟩ := hend h
        exact ⟨h1.trans hsteps, h2.trans hstats, by rw [← hcur]; exact h3⟩

end

theorem isPrefixOf_keysFrom (below : Option Identity) (pre rest : List Operation) :
    keysFrom below pre <+: keysFrom below (pre ++ rest) := by
  induction pre generalizing below with
  | nil => exact List.nil_prefix
  | cons op pre ih =>
    rw [List.cons_append, keysFrom, keysFrom]
    cases nextKey below op with
    | error e => exact List.prefix_rfl
    | ok key => exact (List.prefix_cons_inj key).mpr (ih (some key))

/-! ## the disks after a build -/

section
variable {σ : Type} {backend : Backend σ} {config : BuildConfig} {ops : List Operation}
  {tag : Option String} {fs fs' : FileSystem} {reports : List StepReport} {ms : List Moment}

theorem Ascent.length_eq_of_ok {s : Store} {r : Trail} {force : Bool} {below : Option Identity}
    (h : Ascent backend s r force below ops fs (.ok ()) reports ms fs') :
    (keysFrom below ops).length = reports.length := by
  generalize hres : (Except.ok () : Except BuildError Unit) = res at h
  induction h with
  | top => rfl
  | halted => cases hres
  | fallen => cases hres
  | step hk _ _ ih =>
    rw [keysFrom, hk]
    exact congrArg Nat.succ (ih hres)

/-- after a build that succeeds all disks of its operations are whole -/
theorem Raised.isWhole {s : Store} {r : Trail} {force : Bool} {o : BuildOutcome}
    (h : Raised backend s r force ops tag fs (.ok o) reports ms fs') (hs : s.StandsAt r fs)
    (hd : (keysFrom none ops).Nodup) :
    ∀ key ∈ keysFrom none ops, fs'.isWhole (s.layerPath key) = true := by
  generalize hres : (Except.ok o : Except BuildError BuildOutcome) = res at h
  cases h with
  | fallen => cases hres
  | ended hasc _ hended _ _ =>
    intro k hk
    have hwhole := hasc.isWhole_completed hs hd
    rw [← hasc.length_eq_of_ok, List.take_length] at hwhole
    rw [(Store.KeepsLayer.of_tags (hs.within hasc.within.1) (isValidName_of_mem_keysFrom hk)
      hended.within).isWhole_eq]
    exact hwhole k hk

/-- after a build that succeeds the store is there, and all disks of its operations are whole -/
theorem Built.isWhole {o : BuildOutcome} (h : Built backend config ops tag fs (.ok o) reports ms fs')
    (hd : (keysFrom none ops).Nodup) :
    ∃ (s : Store) (r : Trail), config.storeRoot.absolute? fs.currentPath = some s.root ∧
      s.root.isAbsolute = true ∧ s.StandsAt r fs' ∧ fs'.currentPath = fs.currentPath ∧
      ∀ key ∈ keysFrom none ops, fs'.isWhole (s.layerPath key) = true := by
  generalize hres : (Except.ok o : Except BuildError BuildOutcome) = res at h
  cases h with
  | unopened => cases hres
  | fallen => cases hres
  | @ended s r ms₀ fs₀ reports ms fs₁ key res₁ ms' fs' res habs ha ho hstands hms hasc hlast hended
      herr hok =>
    have hcurrent : fs'.currentPath = fs.currentPath := by
      rw [FileSystem.currentPath, FileSystem.currentPath, hended.within.current,
        hasc.within.1.current, ho.grown.current]
    cases hres
    exact ⟨s, r, habs, ha, (hstands.within hasc.within.1).within hended.within, hcurrent,
      Raised.isWhole (.ended hasc hlast hended herr hok) hstands hd⟩

end

/-! ## two builds -/

section
variable {σ : Type} {backend : Backend σ} {config : BuildConfig} {ops : List Operation}
  {tag : Option String} {w : World σ} {o : BuildOutcome}

theorem ne_nil_of_build (h : ((build backend config ops tag).runIn w).1 = .ok o) : ops ≠ [] := by
  rintro rfl
  rw [build_of_nil] at h
  cases h

theorem isValidName_of_build (h : ((build backend config ops tag).runIn w).1 = .ok o) :
    ∀ name, tag = some name → isValidName name = true := by
  rintro name rfl
  by_contra hv
  rw [build_of_invalidTag backend config ops w (ne_nil_of_build h) (by simpa using hv)] at h
  cases h

theorem identities_of_build (h : ((build backend config ops tag).runIn w).1 = .ok o) :
    o.steps.map StepReport.identity = keysFrom none ops := by
  rcases @build_cases σ backend config ops tag ⟨config.storeRoot⟩ w.files w (ne_nil_of_build h)
    (isValidName_of_build h) with ⟨e, he⟩ | ⟨e, he, -⟩ | ⟨e, he, -⟩ | ⟨o', steps, ho, hplan, hwhat⟩
  · rw [he] at h
    cases h
  · rw [he] at h
    cases h
  · rw [he] at h
    cases h
  · rw [ho] at h
    cases h
    rw [keysFrom_of_planFrom hplan]
    have hsnd := congrArg (List.map Prod.snd) hwhat
    rw [List.map_map, List.map_map] at hsnd
    exact hsnd

theorem applyAll_of_build (h : ((build backend config ops tag).runIn w).1 = .ok o) :
    ∃ (s : Store) (c : Context) (w₀ w₁ : World σ),
      config.storeRoot.absolute? w.files.currentPath = some s.root ∧
      (applyAll backend s config ops).runIn {} w₀ = ((.ok (), c), w₁) ∧ o.steps = c.steps ∧
      c.current?.map Prod.snd = some o.terminal := by
  obtain ⟨ms, -, -, hopens⟩ := Act.ends_open (w := w) config.storeRoot
  rw [build_runIn backend config ops tag w (ne_nil_of_build h) (isValidName_of_build h)] at h
  rcases hopen : (Store.open config.storeRoot : Act σ StoreError Store).runIn w with ⟨res, w₀⟩
  rw [hopen] at h hopens
  cases res with
  | error e => cases h
  | ok s =>
    obtain ⟨habs, -⟩ := hopens.stands s rfl
    obtain ⟨c, w₁, hrun, hsteps, -, hlast⟩ := @outcome_of_resume σ backend s config ops tag {} w₀ o h
    exact ⟨s, c, w₀, w₁, habs, hrun, hsteps, hlast⟩

end

/-- After a build that succeeded, an unforced build that begins with the same operations finds their
disks and leaves the world as it is until it comes to the others, whoever holds locks by then.  The
same build without a tag succeeds and changes nothing at all. -/
theorem build_reuses {σ τ : Type} {backend : Backend σ} {backend' : Backend τ}
    {config config' : BuildConfig} {pre rest rest' : List Operation} {tag tag' : Option String}
    {w : World σ} {v : World τ} {o : BuildOutcome} (hb : backend.Confined)
    (hl : backend.LeavesFiles) (hu : w.Undisturbed)
    (hok : ((build backend config (pre ++ rest) tag).runIn w).1 = .ok o)
    (hd : (o.steps.map StepReport.identity).Nodup)
    (hfiles : v.files = ((build backend config (pre ++ rest) tag).runIn w).2.files)
    (hroot : config'.storeRoot = config.storeRoot) (hforce : config'.force = false)
    (hpre : pre ≠ []) (htag' : ∀ name, tag' = some name → isValidName name = true) :
    let reused := (o.steps.take pre.length).map StepReport.asCached
    let out := (build backend' config' (pre ++ rest') tag').runIn v
    let again := (build backend' config' (pre ++ rest) none).runIn v
    (∃ s c, (Store.open config'.storeRoot : Act τ StoreError Store).runIn v = (.ok s, v.reopened s) ∧
      (applyAll backend' s config' pre).runIn {} (v.reopened s) = ((.ok (), c), v.reopened s) ∧
      c.steps = reused ∧ out = (resume backend' s config' c rest' tag').runIn (v.reopened s)) ∧
    (completed backend' config' (pre ++ rest') tag' v).take pre.length = reused ∧
    (∀ o', out.1 = .ok o' → o'.steps.take pre.length = reused) ∧
    (∃ o', again.1 = .ok o' ∧ o'.terminal = o.terminal ∧ o'.stats.built = 0 ∧
      again.2.calls = v.calls ∧ again.2.files = v.files) := by
  intro reused out again
  have hne := ne_nil_of_build hok
  have hnodup : (keysFrom none (pre ++ rest)).Nodup := identities_of_build hok ▸ hd
  -- what the first build leaves
  obtain ⟨ms, -, -, -, hbuilt⟩ :=
    ends_build config (pre ++ rest) tag hb hl hu hne (isValidName_of_build hok)
  rw [hok, ← hfiles] at hbuilt
  obtain ⟨s, r, habs, ha, hs, hcurrent, hwhole⟩ := hbuilt.isWhole hnodup
  obtain ⟨s', c, w₀, w₁, habs', hrun, hsteps, hlast⟩ := applyAll_of_build hok
  have hstore : s' = s := by
    rw [habs] at habs'
    cases s; cases s'
    exact congrArg Store.mk (Option.some.inj habs').symm
  subst hstore
  have hopened : config'.storeRoot.absolute? v.files.currentPath = some s'.root := by
    rw [hroot, hcurrent]
    exact habs
  have hempty : Context.StandsOn s' {} none := rfl
  have hsame : Context.SharesLayers {} {} := ⟨rfl, rfl⟩
  -- the operations that both builds begin with
  have hfirst := hrun
  rw [applyAll_runIn_append] at hfirst
  rcases hpart : (applyAll backend s' config pre).runIn {} w₀ with ⟨⟨res, c₁⟩, w₂⟩
  rw [hpart] at hfirst
  cases res with
  | error e => cases congrArg (fun out => out.1.1) hfirst
  | ok u =>
    dsimp only at hfirst
    have hkeys : ∀ key ∈ keysFrom none pre, (v.reopened s').files.isWhole (s'.layerPath key) = true := by
      intro key hkey
      exact hwhole key ((isPrefixOf_keysFrom none pre rest).subset hkey)
    obtain ⟨reports, d, hd₁, -, hreports, hdsteps, hlen, -⟩ :=
      @applyAll_cached σ τ backend backend' s' config config' pre none {} c₁ {} w₀ w₂ (v.reopened s')
        hpart hempty hsame hforce hkeys
    have hreused : d.steps = reused := by
      have hprefix := @steps_prefix_applyAll σ backend s' config rest c₁ w₂
      have hfound : c₁.steps = reports := hreports
      rw [hfirst, ← hsteps, hfound] at hprefix
      rw [hdsteps]
      show reports.map StepReport.asCached = (o.steps.take pre.length).map StepReport.asCached
      rw [← hlen, ← List.prefix_iff_eq_take.mp hprefix]
    have hlater : ∀ {steps : List StepReport}, d.steps <+: steps →
        steps.take pre.length = reused := by
      intro steps hprefix
      have hlen' : d.steps.length = pre.length := by
        rw [hdsteps, ← hlen]
        exact List.length_map _
      rw [← hlen', ← List.prefix_iff_eq_take.mp hprefix, hreused]
    have hout : out = (resume backend' s' config' d rest' tag').runIn (v.reopened s') := by
      show (build backend' config' (pre ++ rest') tag').runIn v = _
      rw [build_runIn_reopened hs ha hopened (by simp [hpre]) htag', resume, resume,
        Act.runIn_ofFunction, Act.runIn_ofFunction, buildIn_append hd₁]
    refine ⟨⟨s', d, open_runIn hs ha hopened, hd₁, hreused, hout⟩, ?_, ?_, ?_⟩
    · rw [completed_reopened hs ha hopened, buildIn_append hd₁]
      exact hlater (steps_prefix_buildIn rest' tag' d (v.reopened s'))
    · intro o' ho'
      rw [hout] at ho'
      obtain ⟨d', w', hrest, hsteps', -⟩ := outcome_of_resume ho'
      have hprefix := @steps_prefix_applyAll τ backend' s' config' rest' d (v.reopened s')
      rw [hrest, ← hsteps'] at hprefix
      exact hlater hprefix
    · -- all operations once more
      obtain ⟨-, d', hd', hshare, -, -, -, hbuilt'⟩ :=
        @applyAll_cached σ τ backend backend' s' config config' (pre ++ rest) none {} c {} w₀ w₁
          (v.reopened s') hrun hempty hsame hforce hwhole
      have hagain : again = (d'.outcome, v.reopened s') := by
        show (build backend' config' (pre ++ rest) none).runIn v = _
        rw [build_runIn_reopened hs ha hopened hne (by simp), resume, Act.runIn_ofFunction,
          buildIn_runIn, hd']
      obtain ⟨⟨id, l⟩, hlast', hterminal⟩ := Option.map_eq_some_iff.mp hlast
      obtain ⟨o', ho', hterminal', hstats⟩ : ∃ o', d'.outcome = .ok o' ∧ o'.terminal = l ∧
          o'.stats = d'.stats := by
        rw [Context.outcome, hshare.current?, hlast']
        exact ⟨_, rfl, rfl, rfl⟩
      refine ⟨o', by rw [hagain, ho'], hterminal'.trans hterminal, ?_, ?_, ?_⟩
      · rw [hstats, hbuilt']
      · rw [hagain, World.calls_reopened]
      · rw [hagain]
        rfl

/-- a rebuild finds its disks while somebody else holds the locks of all of them -/
theorem build_reuses_locked :
    let config : BuildConfig := { storeRoot := ⟨"/s"⟩, lockWait := .zero }
    let first := (build (.touching fun _ => false) config [.base "d", .mutate "x"] none).runIn (.on {})
    let v : World Unit := { World.on first.2.files with
      locked := [⟨["d.lock", "layers", "locks", "s"], 0⟩,
        ⟨["cda1f71bcdd8b42467a0.lock", "layers", "locks", "s"], 3⟩] }
    let again := (build (.touching fun _ => true) config [.base "d", .mutate "x"] none).runIn v
    ∃ o, again.1 = .ok o ∧ o.stats.built = 0 ∧ again.2.calls = [] ∧
      again.2.files = first.2.files := by
  intro config first v again
  have hok : first.1.isOk = true := by decide +kernel
  cases ho : first.1 with
  | error e =>
    rw [ho] at hok
    cases hok
  | ok o =>
    have hkeys : (o.steps.map StepReport.identity).Nodup := by
      rw [identities_of_build ho]
      decide +kernel
    obtain ⟨-, -, -, o', ho', -, hbuilt, hcalls, hfiles⟩ :=
      @build_reuses Unit Unit (.touching fun _ => false) (.touching fun _ => true) config config
        [.base "d"] [.mutate "x"] [] none none (.on {}) v o (Backend.confined_touching _)
        (Backend.leavesFiles_touching _) (World.undisturbed_on _) ho hkeys rfl rfl rfl
        (List.cons_ne_nil _ _) (by simp)
    exact ⟨o', ho', hbuilt, hcalls, hfiles⟩

end DiskLayers
