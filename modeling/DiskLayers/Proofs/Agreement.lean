import DiskLayers.Proofs.Trace

/-!
# Plan and build

* `Act.Errs`                 all errors of an operation have a property
* `PlannedStep.report`       what a build reports of a planned step
* `reportsOf`                what a build reports of a plan

`realize` and `makeTag` fail with errors of their own, never with one of the script; so the script
is what plan and build judge alike (`applyAll_cases`).  `plan_agrees_with_build` says it of a whole
build, whatever the tools do; what is cached the plan tells if they keep to their targets.
-/

namespace DiskLayers
open DiskLayers.Path

def Act.Errs (P : ε → Prop) (act : Act σ ε α) : Prop := ∀ w e, (act.runIn w).1 = .error e → P e

namespace Act.Errs
variable {σ ε ε' α β : Type} {P : ε → Prop} {act : Act σ ε α} {f : α → Act σ ε β}

theorem pure (a : α) : (pure a : Act σ ε α).Errs P := fun _ _ h => by cases h

theorem bind (h : act.Errs P) (hf : ∀ a, (f a).Errs P) : (act >>= f).Errs P := by
  intro w e he
  rw [runIn_bind] at he
  rcases hrun : act.runIn w with ⟨res, w'⟩
  rw [hrun] at he
  cases res with
  | ok a => exact hf a w' e he
  | error e' =>
    cases he
    exact h w _ (by rw [hrun])

theorem mapError {act : Act σ ε' α} {g : ε' → ε} (h : ∀ e, P (g e)) : (act.mapError g).Errs P := by
  intro w e he
  rw [runIn_mapError] at he
  cases hres : (act.runIn w).1 with
  | ok a => rw [hres] at he; cases he
  | error e' =>
    rw [hres] at he
    cases he
    exact h e'

theorem inspect (g : FileSystem → α) : (inspect g : Act σ ε α).Errs P := fun _ _ h => by cases h

theorem during {acquire : Act σ ε Lock} (h : acquire.Errs P) (h' : act.Errs P) :
    (Lock.during acquire act).Errs P := by
  intro w e he
  rw [Lock.during, runIn_ofFunction] at he
  rcases hrun : acquire.runIn w with ⟨res, w'⟩
  rw [hrun] at he
  cases res with
  | ok l => exact h' w' e he
  | error e' =>
    cases he
    exact h w _ (by rw [hrun])

end Act.Errs

/-! ## a step is never refused by the script -/

section
variable {σ : Type} (backend : Backend σ) (s : Store) (config : BuildConfig) (l : Layer)

/-- whatever stops a step, its error names the step -/
theorem errs_realize (parent : Option Layer) (op : Operation) :
    (realize backend s config l parent op).Errs
      (fun e => e.step? = some (l.directive, l.identity)) := by
  have hstore : ∀ e : StoreError, (BuildError.ofStore l e).step? = some (l.directive, l.identity) :=
    fun _ => rfl
  have happly : ∀ e : ApplyError, (BuildError.ofApply l e).step? = some (l.directive, l.identity) := by
    intro e
    cases e <;> rfl
  have hmake : (makeDisk backend l parent op).Errs
      (fun e => e.step? = some (l.directive, l.identity)) := by
    rw [makeDisk]
    refine .bind (.mapError hstore) fun _ => .bind (.mapError hstore) fun _ => ?_
    cases parent with
    | none => exact .bind (.mapError happly) fun _ => .mapError hstore
    | some p =>
      exact .bind (.mapError hstore) fun _ => .bind (.mapError happly) fun _ => .mapError hstore
  rw [realize]
  refine .bind (.inspect _) fun reusable => ?_
  by_cases h : reusable = true
  · rw [if_pos h]
    exact .pure _
  · rw [if_neg h]
    refine .during (.mapError hstore) (.bind (.inspect _) fun reusable => ?_)
    by_cases h : reusable = true
    · rw [if_pos h]
      exact .pure _
    · rw [if_neg h]
      exact .bind hmake fun _ => .pure _

theorem errs_makeTag (terminal : Layer) :
    (makeTag backend s config l terminal).Errs
      (fun e => e.step? = some (l.directive, l.identity)) :=
  .during (.mapError fun _ => rfl) (.mapError fun _ => rfl)

end

/-! ## what is reported of a plan -/

/-- what a build reports of a planned step whose disk may or may not be reused -/
def PlannedStep.report (p : PlannedStep) (reusable : Bool) : StepReport :=
  ⟨p.directive, p.identity, if reusable && p.cached then .cached else .built⟩

/-- What a build reports of a plan.  Above the base image nothing is reused if all is to be made
anew. -/
def reportsOf (force : Bool) : List PlannedStep → List StepReport
  | [] => []
  | p :: rest => p.report true :: rest.map (·.report !force)

/-- the directive and the key of a step that is planned -/
def PlannedStep.what (p : PlannedStep) : String × Identity := (p.directive, p.identity)

/-- the directive and the key of a step that was done -/
def StepReport.what (r : StepReport) : String × Identity := (r.directive, r.identity)

section
variable {σ : Type} {backend : Backend σ} {s s' : Store} {config : BuildConfig}
  {below : Option Identity} {ops : List Operation} {fs : FileSystem} {c : Context} {w : World σ}

/-- Operations go as the plan says, unless something else than the script stops them.  By induction
on the operations: the chain ends with the key that the next one is planned above. -/
theorem applyAll_cases (hc : c.StandsOn s below) :
    let out := (applyAll backend s config ops).runIn c w
    (∃ e, out.1.1 = .error e ∧ e.step? ≠ none) ∨
      (∃ cause, out.1.1 = .error (.script cause) ∧ planFrom s' fs below ops = .error cause) ∨
      ∃ steps reports, out.1.1 = .ok () ∧ planFrom s' fs below ops = .ok steps ∧
        out.1.2.steps = c.steps ++ reports ∧
        reports.map StepReport.what = steps.map PlannedStep.what ∧
        out.1.2.StandsOn s (lastKey below ops) := by
  intro out
  induction ops generalizing below c w with
  | nil => exact Or.inr (Or.inr ⟨[], [], rfl, rfl, (List.append_nil _).symm, rfl, hc⟩)
  | cons op ops ih =>
    have hout : out = (applyAll backend s config (op :: ops)).runIn c w := rfl
    rw [applyAll_runIn_cons, applyOne_runIn] at hout
    rcases Context.extend_cases hc op with ⟨cause, hk, he⟩ |
      ⟨key, goal, c₁, hk, he, hfor, -, ⟨hsteps, -, -⟩, hstands⟩
    · rw [he] at hout
      refine Or.inr (Or.inl ⟨cause, by rw [hout], ?_⟩)
      rw [planFrom, hk]
      rfl
    · rw [he] at hout
      dsimp only at hout
      rcases hrun : (realize backend s config goal.layer goal.parent op).runIn w with ⟨res, w₁⟩
      rw [hrun] at hout
      cases res with
      | error e =>
        refine Or.inl ⟨e, by rw [hout], ?_⟩
        rw [errs_realize backend s config goal.layer goal.parent op w e (by rw [hrun])]
        simp
      | ok status =>
        dsimp only at hout
        have hplan : planFrom s' fs below (op :: ops)
            = (planFrom s' fs (some key) ops).map (PlannedStep.of s' fs op key :: ·) := by
          rw [planFrom, hk]
          show (planFrom s' fs (some key) ops).bind _ = _
          cases planFrom s' fs (some key) ops <;> rfl
        rw [hout, hplan, lastKey_cons hk]
        rcases ih (w := w₁) (hstands status) with ⟨e, hres, hstep⟩ | ⟨cause, hres, herr⟩ |
          ⟨steps, reports, hres, hok, hsteps', hwhat, hlast'⟩
        · exact Or.inl ⟨e, hres, hstep⟩
        · exact Or.inr (Or.inl ⟨cause, hres, by rw [herr]; rfl⟩)
        · refine Or.inr (Or.inr ⟨PlannedStep.of s' fs op key :: steps,
            ⟨op.descriptor, key, status⟩ :: reports, hres, by rw [hok]; rfl, ?_, ?_, hlast'⟩)
          · rw [hsteps', Context.record]
            dsimp only
            rw [hsteps, hfor.directive, hfor.identity, List.append_assoc]
            rfl
          · rw [List.map_cons, List.map_cons, hwhat]
            rfl

theorem exists_lastKey (hplan : planFrom s fs none ops = .ok steps) (hne : ops ≠ []) :
    ∃ key, lastKey none ops = some key := by
  cases ops with
  | nil => exact absurd rfl hne
  | cons op ops =>
    obtain ⟨key, rest, -, -, rfl⟩ := planFrom_cons_eq_ok hplan
    rw [lastKey_of_planFrom hplan, List.getLast?_cons]
    exact ⟨_, rfl⟩

end

/-- Several steps that succeed are reported as they were planned.  By induction on the ascent; above
the base image a disk may be reused unless all is to be made anew. -/
theorem Ascent.reports_eq {σ : Type} {backend : Backend σ} {s : Store} {r : Trail} {force : Bool}
    {below : Option Identity} {ops : List Operation} {fs fs' fs₀ : FileSystem}
    {reports : List StepReport} {ms : List Moment} {steps : List PlannedStep}
    (h : Ascent backend s r force below ops fs (.ok ()) reports ms fs') (hs : s.StandsAt r fs)
    (hplan : planFrom s fs₀ below ops = .ok steps)
    (hd : (steps.map PlannedStep.identity).Nodup)
    (hsame : ∀ p ∈ steps, fs.isWhole (s.layerPath p.identity) = p.cached) :
    reports = if below.isNone then reportsOf force steps else steps.map (·.report !force) := by
  generalize hres : (Except.ok () : Except BuildError Unit) = res at h
  induction h generalizing steps with
  | top =>
    cases hplan
    split <;> rfl
  | halted => cases hres
  | fallen => cases hres
  | @step below op ops key fs status ms fs₁ res reports ms' fs₂ hk hclimb hasc ih =>
    obtain ⟨key', rest, hk', hrest, rfl⟩ := planFrom_cons_eq_ok hplan
    rw [hk] at hk'
    cases hk'
    obtain ⟨hnot, hd'⟩ := List.nodup_cons.mp hd
    have hsame' := hclimb.keeps_planned hs hrest hnot fun p hp =>
      hsame p (List.mem_cons_of_mem _ hp)
    have hreports := ih (hs.within hclimb.within) hrest hd' hsame' hres
    rw [if_neg (by simp)] at hreports
    obtain ⟨l, hl, hreal⟩ := hclimb.realized
    have hwhole := hsame _ List.mem_cons_self
    have hstatus : (⟨op.descriptor, key, status⟩ : StepReport) =
        (PlannedStep.of s fs₀ op key).report (below.isNone || !force) := by
      rw [hreal.status_eq, hl.isReusable_eq, PlannedStep.report, ← hwhole]
      rfl
    rw [hreports, hstatus]
    cases below <;> rfl

/-! ## a whole build -/

section
variable {σ : Type} {backend : Backend σ} {config : BuildConfig} {ops : List Operation}
  {tag : Option String} {s : Store} {fs : FileSystem} {w : World σ}

/-- A build goes as the plan says, unless something else than the script stops it. -/
theorem build_cases (hne : ops ≠ []) (htag : ∀ name, tag = some name → isValidName name = true) :
    let out := (build backend config ops tag).runIn w
    (∃ e, out.1 = .error (.openStore e)) ∨ (∃ e, out.1 = .error e ∧ e.step? ≠ none) ∨
      (∃ cause, out.1 = .error (.script cause) ∧ planFrom s fs none ops = .error cause) ∨
      ∃ o steps, out.1 = .ok o ∧ planFrom s fs none ops = .ok steps ∧
        o.steps.map StepReport.what = steps.map PlannedStep.what := by
  intro out
  have hout : out = (build backend config ops tag).runIn w := rfl
  rw [build_runIn backend config ops tag w hne htag] at hout
  rcases hopen : (Store.open config.storeRoot : Act σ StoreError Store).runIn w with ⟨res₀, w₀⟩
  rw [hopen] at hout
  cases res₀ with
  | error e => exact Or.inl ⟨e, by rw [hout]⟩
  | ok s₀ =>
    dsimp only at hout
    rw [buildIn_runIn] at hout
    have hempty : Context.StandsOn s₀ {} none := rfl
    have hcases := @applyAll_cases σ backend s₀ s config none ops fs {} w₀ hempty
    rcases hrun : (applyAll backend s₀ config ops).runIn {} w₀ with ⟨⟨res, c⟩, w₁⟩
    rw [hrun] at hout hcases
    rcases hcases with ⟨e, rfl, hstep⟩ | ⟨cause, rfl, hplan⟩ |
      ⟨steps, reports, rfl, hplan, hsteps, hwhat, hstands⟩
    · exact Or.inr (Or.inl ⟨e, by rw [hout], hstep⟩)
    · exact Or.inr (Or.inr (Or.inl ⟨cause, by rw [hout], hplan⟩))
    · -- all operations are done, and there may be a tag to set
      obtain ⟨key, hkey⟩ := exists_lastKey hplan hne
      rw [hkey] at hstands
      have hreports : c.steps = reports := hsteps
      have hdone : ∀ {c' : Context}, c'.StandsOn s₀ (some key) → c'.steps = c.steps → ∀ w',
          out = (c'.outcome, w') → ∃ o steps, out.1 = .ok o ∧ planFrom s fs none ops = .ok steps ∧
            o.steps.map StepReport.what = steps.map PlannedStep.what := by
        intro c' hstands' hsteps' w' hout'
        obtain ⟨o, houtcome, ho⟩ := outcome_eq_ok hstands'
        refine ⟨o, steps, by rw [hout', houtcome], hplan, ?_⟩
        rw [ho, hsteps', hreports, hwhat]
      cases tag with
      | none => exact Or.inr (Or.inr (Or.inr (hdone hstands rfl w₁ hout)))
      | some name =>
        obtain ⟨l, terminal, c', -, -, -, hsteps', hstands', hrun'⟩ :=
          @tagAs_runIn σ backend s₀ config c w₁ name key (htag name rfl) hstands
        dsimp only at hout
        rw [hrun'] at hout
        cases hres : ((makeTag backend s₀ config l terminal).runIn w₁).1 with
        | error e =>
          rw [hres] at hout
          refine Or.inr (Or.inl ⟨e, by rw [hout]; rfl, ?_⟩)
          rw [errs_makeTag backend s₀ config l terminal w₁ e hres]
          simp
        | ok u =>
          rw [hres] at hout
          exact Or.inr (Or.inr (Or.inr (hdone hstands' hsteps' _ hout)))

/-- a build that succeeds reports what was planned -/
theorem Built.reports_eq {steps : List PlannedStep} {o : BuildOutcome} {reports : List StepReport}
    {ms : List Moment} {fs' : FileSystem}
    (h : Built backend config ops tag fs (.ok o) reports ms fs')
    (hs : Store.openReadOnly fs config.storeRoot = .ok s) (hwf : fs.WellFormed)
    (hset : s.root.IsSettled fs) (hplan : planFrom s fs none ops = .ok steps)
    (hd : (steps.map PlannedStep.identity).Nodup) : o.steps = reportsOf config.force steps := by
  generalize hres : (Except.ok o : Except BuildError BuildOutcome) = res at h
  cases h with
  | unopened => cases hres
  | fallen => cases hres
  | @ended s' r ms₀ fs₀ reports ms fs₁ key res₁ ms' fs' res habs ha ho hstands hms hasc hlast hended
      herr hok =>
    cases eq_of_openReadOnly hs habs
    have hreports := hasc.reports_eq hstands hplan hd
      (planned_of_opened ha ho hstands hwf hset hplan)
    cases res₁ with
    | error e =>
      rw [herr e rfl] at hres
      cases hres
    | ok u =>
      obtain ⟨o', ho', hsteps⟩ := hok rfl
      rw [ho'] at hres
      cases hres
      rw [hsteps, hreports]
      rfl

end

/-- Plan and build agree.  If the build succeeds, whatever the tools and the other processes do, the
plan has its steps; if the plan succeeds, the build is never refused for its script; if the plan is
refused, so is the build, unless something stops it before.  If tools keep to their targets and
nobody else is there, the plan also tells which disks are reused. -/
theorem plan_agrees_with_build {σ : Type} {backend : Backend σ} {config : BuildConfig}
    {ops : List Operation} {tag : Option String} {s : Store} {w : World σ}
    (hs : Store.openReadOnly w.files config.storeRoot = .ok s) :
    let out := (build backend config ops tag).runIn w
    (∀ o, out.1 = .ok o → ∃ steps, plan s w.files ops = .ok steps ∧
      o.steps.map StepReport.what = steps.map PlannedStep.what ∧
      (backend.Confined → backend.LeavesFiles → w.Undisturbed → w.files.WellFormed →
        s.root.IsSettled w.files → (steps.map PlannedStep.identity).Nodup →
          o.steps = reportsOf config.force steps)) ∧
    ((∀ name, tag = some name → isValidName name = true) →
      (∀ steps, plan s w.files ops = .ok steps → ∀ cause, out.1 ≠ .error (.script cause)) ∧
      (∀ cause, plan s w.files ops = .error cause → (∀ o, out.1 ≠ .ok o) ∧
        (out.1 = .error (.script cause) ∨ (∃ e, out.1 = .error (.openStore e)) ∨
          ∃ e, out.1 = .error e ∧ e.step? ≠ none))) := by
  intro out
  have hout : out = (build backend config ops tag).runIn w := rfl
  have never : ∀ {e o}, out.1 = .error e → out.1 ≠ .ok o := by
    intro e o he ho
    cases ho.symm.trans he
  by_cases hne : ops = []
  · -- both refuse an empty script
    subst hne
    rw [build_of_nil] at hout
    have he : out.1 = .error (.script .empty) := by rw [hout]
    refine ⟨fun o ho => absurd ho (never he), fun _ => ⟨fun steps hplan => ?_, fun cause hplan => ?_⟩⟩
    · cases hplan
    · cases hplan
      exact ⟨fun o => never he, Or.inl he⟩
  rw [plan_eq, if_neg hne]
  refine ⟨fun o ho => ?_, fun htag => ?_⟩
  · have htag : ∀ name, tag = some name → isValidName name = true := by
      rintro name rfl
      by_contra hv
      rw [build_of_invalidTag backend config ops w hne (Bool.eq_false_iff.mpr hv)] at hout
      exact never (by rw [hout]) ho
    rcases @build_cases σ backend config ops tag s w.files w hne htag with ⟨e, he⟩ | ⟨e, he, -⟩ |
      ⟨cause, he, -⟩ | ⟨o', steps, ho', hplan, hwhat⟩
    · exact absurd ho (never he)
    · exact absurd ho (never he)
    · exact absurd ho (never he)
    · cases ho.symm.trans ho'
      refine ⟨steps, hplan, hwhat, fun hb hl hu hwf hset hd => ?_⟩
      obtain ⟨ms, -, -, -, hbuilt⟩ := ends_build config ops tag hb hl hu hne htag
      rw [ho] at hbuilt
      exact hbuilt.reports_eq hs hwf hset hplan hd
  · have hcases := @build_cases σ backend config ops tag s w.files w hne htag
    refine ⟨fun steps hplan cause hscript => ?_, fun cause hplan => ?_⟩
    · rcases hcases with ⟨e, he⟩ | ⟨e, he, hstep⟩ | ⟨cause', -, herr⟩ | ⟨o, steps', ho, -, -⟩
      · cases hscript.symm.trans he
      · cases hscript.symm.trans he
        exact hstep rfl
      · cases herr.symm.trans hplan
      · cases hscript.symm.trans ho
    · rcases hcases with ⟨e, he⟩ | ⟨e, he, hstep⟩ | ⟨cause', he, herr⟩ | ⟨o, steps', -, hok, -⟩
      · exact ⟨fun o => never he, Or.inr (Or.inl ⟨e, he⟩)⟩
      · exact ⟨fun o => never he, Or.inr (Or.inr ⟨e, he, hstep⟩)⟩
      · cases herr.symm.trans hplan
        exact ⟨fun o => never he, Or.inl he⟩
      · cases hok.symm.trans hplan

/-- a base image that is reused, and a layer above it that is made anew -/
theorem plan_agrees_with_build_forced :
    let out := (build (.touching fun _ => false) { storeRoot := ⟨"/"⟩, force := true }
      [.base "d", .mutate "x"] none).runIn (.on .stocked)
    ∃ o, out.1 = .ok o ∧ o.steps =
      [⟨"BASE:d", ⟨"d"⟩, .cached⟩, ⟨"MUTATE:x", ⟨"cda1f71bcdd8b42467a0"⟩, .built⟩] := by
  have hok : ((build (.touching fun _ => false) { storeRoot := ⟨"/"⟩, force := true }
      [.base "d", .mutate "x"] none).runIn (.on .stocked)).1.isOk = true := by
    decide +kernel
  have h := (@plan_agrees_with_build Unit (.touching fun _ => false)
    { storeRoot := ⟨"/"⟩, force := true } [.base "d", .mutate "x"] none ⟨⟨"/"⟩⟩ (.on .stocked)
    (by decide +kernel)).1
  have hplan : plan ⟨⟨"/"⟩⟩ (World.on .stocked).files [.base "d", .mutate "x"] =
      .ok [⟨"BASE:d", ⟨"d"⟩, true⟩, ⟨"MUTATE:x", ⟨"cda1f71bcdd8b42467a0"⟩, false⟩] := by
    decide +kernel
  dsimp only at h ⊢
  rw [hplan] at h
  generalize (build _ _ _ _).runIn (.on .stocked) = out at h hok ⊢
  cases ho : out.1 with
  | error e =>
    rw [ho] at hok
    cases hok
  | ok o =>
    obtain ⟨steps, hsteps, -, hreports⟩ := h o ho
    cases hsteps
    refine ⟨o, rfl, hreports (Backend.confined_touching _) (Backend.leavesFiles_touching _)
      (World.undisturbed_on _) ?_ (Or.inl ?_) ?_⟩
    · decide +kernel
    · decide +kernel
    · decide +kernel

/-- A store whose path leads up again from a directory that is not there looks empty to a plan, and
full to a build. -/
theorem plan_differs_from_build :
    let s := Store.detour
    let out := (build (.touching fun _ => false) { storeRoot := s.root } [.base "d"] none).runIn
      (.on .stocked)
    (Backend.touching (σ := Unit) fun _ => false).Confined ∧
      (Backend.touching (σ := Unit) fun _ => false).LeavesFiles ∧
      (World.on .stocked).Undisturbed ∧ FileSystem.stocked.WellFormed ∧
      Store.openReadOnly .stocked s.root = .ok s ∧
      plan s .stocked [.base "d"] = .ok [⟨"BASE:d", ⟨"d"⟩, false⟩] ∧
      out.1.map BuildOutcome.steps = .ok [⟨"BASE:d", ⟨"d"⟩, .cached⟩] := by
  refine ⟨Backend.confined_touching _, Backend.leavesFiles_touching _, World.undisturbed_on _,
    ?_, ?_, ?_, ?_⟩
  · decide +kernel
  · decide +kernel
  · decide +kernel
  · decide +kernel

end DiskLayers
