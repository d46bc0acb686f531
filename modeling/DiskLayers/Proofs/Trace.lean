import DiskLayers.Proofs.Containment

/-!
# The calls of a build

* `BuildError.isOutside`  an error that no call is to blame for
* `BuildError.tool?`      the failure of the tool behind an error
* `Blamed`                the result that a failed call leads to
* `Store.callsAbove`      the calls of some steps, from what a plan says of them
* `Store.buildCalls`      the calls of a build

A step whose disk is whole makes no call, and no step changes that of another one; so the plan
tells all calls before the first is made.  `build_calls` says so of a whole build.
-/

namespace DiskLayers
open DiskLayers.Path

namespace BuildError

/-- An error for which no call is to blame: it comes from the files, from a lock, or from a machine
that uses a tag. -/
def isOutside : BuildError → Bool
  | .openStore _ => true
  | .storage _ _ cause => cause.isOutside
  | .script _ | .executor _ _ _ => false

def tool? : BuildError → Option ToolError
  | .storage _ _ (.backend e) | .executor _ _ e => some e
  | _ => none

end BuildError

theorem Layer.tool?_callError (l : Layer) (c : Call) (e : ToolError) :
    (l.callError c e).tool? = some e := by
  cases c <;> rfl

def Blamed (res : Except BuildError α) : Option (Call × ToolError) → Prop
  | none => ∃ a, res = .ok a
  | some (_, e) => ∃ e', res = .error e' ∧ e'.tool? = some e

/-! ## the calls of one step -/

section
variable {σ : Type} {backend : Backend σ} {s : Store} {r : Trail} {force : Bool} {l : Layer} {dir : Path}
  {d : Trail} {calls : List Call} {fs fs' : FileSystem} {ms : List Moment}

/-- making a disk anew makes the calls for it -/
theorem Remade.answered {res : Except BuildError Unit}
    (h : Remade backend l dir d calls fs res ms fs')
    (hself : .snapshot l.location l.location ∉ calls)
    (hout : ∀ e, res = .error e → e.isOutside = false) :
    ∃ failure, Answered calls (answersOf ms) failure ∧ Blamed res failure := by
  cases h with
  | stuck => cases hout _ rfl
  | refused => cases hout _ rfl
  | orphaned hmem _ _ _ => exact absurd hmem hself
  | failed hans _ _ => exact ⟨_, hans, _, rfl, l.tool?_callError _ _⟩
  | made hans _ _ _ _ _ _ _ => exact ⟨none, hans, (), rfl⟩

/-- a step makes the calls for its disk, unless that may be reused -/
theorem Realized.answered {res : Except BuildError StepStatus}
    (h : Realized backend r force l dir d calls fs res ms fs')
    (hself : .snapshot l.location l.location ∉ calls)
    (hout : ∀ e, res = .error e → e.isOutside = false) :
    ∃ failure, Answered (if isReusable force l fs = true then [] else calls) (answersOf ms) failure ∧
      Blamed res failure := by
  cases h with
  | found hr =>
    rw [if_pos hr]
    exact ⟨none, .done, .cached, rfl⟩
  | locked => cases hout _ rfl
  | @remade fs₀ fs' res ms₀ ms m hr hs _ _ hm hm' _ =>
    rw [if_neg (by rw [hr]; simp), answersOf_between hs hm']
    obtain ⟨failure, hans, hblame⟩ := hm.answered hself fun e he => hout e (by rw [he]; rfl)
    refine ⟨failure, hans, ?_⟩
    cases failure with
    | none =>
      obtain ⟨a, rfl⟩ := hblame
      exact ⟨.built, rfl⟩
    | some f =>
      obtain ⟨e, rfl, he⟩ := hblame
      exact ⟨e, rfl, he⟩

/-- making a tag makes the call for it -/
theorem Tagged.answered {res : Except BuildError Unit}
    (h : Tagged backend s r l dir d calls fs res ms fs')
    (hself : .snapshot l.location l.location ∉ calls)
    (hout : ∀ e, res = .error e → e.isOutside = false) :
    ∃ failure, Answered calls (answersOf ms) failure ∧ Blamed res failure := by
  cases h with
  | refused he _ _ =>
    have hno := hout _ rfl
    rw [BuildError.ofStore, BuildError.isOutside, he] at hno
    cases hno
  | @remade fs₀ fs' res ms₀ ms m hs _ _ hm hm' =>
    rw [answersOf_between hs hm']
    exact hm.answered hself hout

end

/-! ## the calls of several steps -/

namespace Store

/-- The calls of some steps above a key, if each disk is as the plan says.  One that is cached is
reused, but when all disks above the base image are to be made anew. -/
def callsAbove (s : Store) (force : Bool) (below : Option Identity) :
    List (Operation × PlannedStep) → List Call
  | [] => []
  | (op, p) :: rest =>
    (if (below.isNone || !force) && p.cached then []
      else op.callsOn (below.map s.layerPath) (s.layerPath p.identity)) ++
        s.callsAbove force (some p.identity) rest

/-- The calls of a build: those of its steps, and then the one that makes the disk of the tag. -/
def buildCalls (s : Store) (force : Bool) (ops : List Operation) (steps : List PlannedStep)
    (tag : Option String) : List Call :=
  s.callsAbove force none (ops.zip steps) ++
    (steps.getLast?.bind fun p =>
      tag.map fun name => Call.snapshot (s.layerPath p.identity) (s.tagPath name)).toList

end Store

section
variable {σ : Type} {backend : Backend σ} {s : Store} {r : Trail} {force : Bool}
  {below : Option Identity} {ops : List Operation} {fs fs' : FileSystem}
  {res : Except BuildError Unit} {reports : List StepReport} {ms : List Moment}

/-- a step leaves the disks of all later ones as they were planned -/
theorem Climbed.keeps_planned {op : Operation} {key : Identity} {fs₀ : FileSystem}
    {status : Except BuildError StepStatus} {steps : List PlannedStep}
    (h : Climbed backend s r force below op key fs status ms fs') (hs : s.StandsAt r fs)
    (hplan : planFrom s fs₀ (some key) ops = .ok steps)
    (hd : key ∉ steps.map PlannedStep.identity)
    (hsame : ∀ p ∈ steps, fs.isWhole (s.layerPath p.identity) = p.cached) :
    ∀ p ∈ steps, fs'.isWhole (s.layerPath p.identity) = p.cached := by
  intro p hp
  have hmem : p.identity ∈ steps.map PlannedStep.identity := List.mem_map_of_mem hp
  have hne : p.identity ∉ [key] := by
    intro hmem'
    rw [List.mem_singleton.mp hmem'] at hmem
    exact hd hmem
  have hv : isValidName p.identity.name = true :=
    isValidName_of_mem_keysFrom (by rw [keysFrom_of_planFrom hplan]; exact hmem)
  rw [← hsame p hp]
  exact h.within.isWhole_join hs.layers hv (Store.diskName_not_mem_keyTrails hne)
    (Store.markerName_not_mem_keyTrails hne)

/-- a step makes the calls that the plan tells -/
theorem Climbed.answered {op : Operation} {key : Identity} {status : Except BuildError StepStatus}
    {p : PlannedStep} {steps : List PlannedStep}
    (h : Climbed backend s r force below op key fs status ms fs') (hk : nextKey below op = .ok key)
    (hkey : p.identity = key) (hbelow : ∀ k, below = some k → isValidName k.name = true)
    (hd : (below.toList ++ (p :: steps).map PlannedStep.identity).Nodup)
    (hwhole : fs.isWhole (s.layerPath p.identity) = p.cached)
    (hout : ∀ e, status = .error e → e.isOutside = false) :
    ∃ failure, Answered (if (below.isNone || !force) && p.cached then []
      else op.callsOn (below.map s.layerPath) (s.layerPath p.identity)) (answersOf ms) failure ∧
        Blamed status failure := by
  subst hkey
  obtain ⟨l, hl, hreal⟩ := h.realized
  have hself : .snapshot l.location l.location ∉
      op.callsOn (below.map s.layerPath) (s.layerPath p.identity) := by
    intro hmem
    obtain ⟨k, rfl, hpath⟩ := Option.map_eq_some_iff.mp (Operation.below_of_mem_callsOn hmem)
    rw [hl.location] at hpath
    have hkey := s.layerPath_inj (hbelow k rfl) (isValidName_nextKey hk) hpath
    exact (List.nodup_cons.mp hd).1 (hkey ▸ List.mem_cons_self)
  obtain ⟨failure, hans, hblame⟩ := hreal.answered hself hout
  rw [hl.isReusable_eq, hwhole] at hans
  exact ⟨failure, hans, hblame⟩

/-- The steps make the calls that the plan tells.  By induction on the ascent: a step leaves the
disks of all later ones as they were planned. -/
theorem Ascent.answered {steps : List PlannedStep} {fs₀ : FileSystem}
    (h : Ascent backend s r force below ops fs res reports ms fs') (hs : s.StandsAt r fs)
    (hplan : planFrom s fs₀ below ops = .ok steps)
    (hbelow : ∀ k, below = some k → isValidName k.name = true)
    (hd : (below.toList ++ steps.map PlannedStep.identity).Nodup)
    (hsame : ∀ p ∈ steps, fs.isWhole (s.layerPath p.identity) = p.cached)
    (hout : ∀ e, res = .error e → e.isOutside = false) :
    ∃ failure, Answered (s.callsAbove force below (ops.zip steps)) (answersOf ms) failure ∧
      Blamed res failure := by
  induction h generalizing steps with
  | top =>
    cases hplan
    exact ⟨none, .done, (), rfl⟩
  | halted hk =>
    obtain ⟨key, rest, hk', -, -⟩ := planFrom_cons_eq_ok hplan
    rw [hk] at hk'
    cases hk'
  | @fallen below op ops key fs e ms fs' hk hclimb =>
    obtain ⟨key', rest, hk', -, rfl⟩ := planFrom_cons_eq_ok hplan
    rw [hk] at hk'
    cases hk'
    obtain ⟨p, hp, hkey⟩ : ∃ p, PlannedStep.of s fs₀ op key = p ∧ p.identity = key := ⟨_, rfl, rfl⟩
    rw [hp] at hsame hd ⊢
    obtain ⟨failure, hans, hblame⟩ := hclimb.answered hk hkey hbelow hd (hsame p List.mem_cons_self)
      fun e' he' => by
        cases he'
        exact hout e rfl
    cases failure with
    | none =>
      obtain ⟨a, ha⟩ := hblame
      cases ha
    | some f =>
      obtain ⟨c, e'⟩ := f
      obtain ⟨e'', he'', htool⟩ := hblame
      cases he''
      refine ⟨some (c, e'), ?_, e, rfl, htool⟩
      rw [List.zip_cons_cons, Store.callsAbove]
      exact hans.append_of_failed _
  | @step below op ops key fs status ms fs₁ res reports ms' fs₂ hk hclimb hasc ih =>
    obtain ⟨key', rest, hk', hrest, rfl⟩ := planFrom_cons_eq_ok hplan
    rw [hk] at hk'
    cases hk'
    obtain ⟨p, hp, hkey⟩ : ∃ p, PlannedStep.of s fs₀ op key = p ∧ p.identity = key := ⟨_, rfl, rfl⟩
    rw [hp] at hsame hd ⊢
    obtain ⟨failure, hans, hblame⟩ := hclimb.answered hk hkey hbelow hd (hsame p List.mem_cons_self)
      fun e' he' => by cases he'
    have hd' := (List.nodup_append.mp hd).2.1
    rw [List.map_cons, hkey] at hd'
    -- keys differ, so the step touched no disk that a later one is planned on
    have hsame' := hclimb.keeps_planned hs hrest (List.nodup_cons.mp hd').1 fun p hp =>
      hsame p (List.mem_cons_of_mem _ hp)
    obtain ⟨failure', hans', hblame'⟩ := ih (hs.within hclimb.within) hrest
      (fun k hk' => Option.some.inj hk' ▸ isValidName_nextKey hk) hd' hsame' hout
    cases failure with
    | some f =>
      obtain ⟨e, he, -⟩ := hblame
      cases he
    | none =>
      refine ⟨failure', ?_, hblame'⟩
      rw [hkey] at hans
      rw [List.zip_cons_cons, Store.callsAbove, answersOf_append, hkey]
      exact hans.append hans'

end

/-! ## the calls of a whole build -/

theorem lastKey_of_planFrom {s : Store} {fs : FileSystem} {ops : List Operation}
    {steps : List PlannedStep} (h : planFrom s fs none ops = .ok steps) :
    lastKey none ops = steps.getLast?.map PlannedStep.identity := by
  rw [lastKey, keysFrom_of_planFrom h, List.getLast?_map]
  cases steps.getLast? <;> rfl

/-- what the answers to some calls are if all are made up to the first that fails -/
theorem Answered.cases_of_blamed {calls : List Call} {answers : List (Call × Except ToolError Unit)}
    {failure : Option (Call × ToolError)} {res : Except BuildError α}
    (h : Answered calls answers failure) (hblame : Blamed res failure) :
    ((∃ a, res = .ok a) ∧ answers = calls.map (·, .ok ())) ∨
      ∃ j c e e', calls[j]? = some c ∧
        answers = (calls.take j).map (·, .ok ()) ++ [(c, .error e)] ∧
        res = .error e' ∧ e'.tool? = some e := by
  cases failure with
  | none => exact Or.inl ⟨hblame, h.eq_of_none⟩
  | some f =>
    obtain ⟨c, e⟩ := f
    obtain ⟨before, after, hcalls, hans⟩ := h.eq_of_some
    obtain ⟨e', hres, htool⟩ := hblame
    refine Or.inr ⟨before.length, c, e, e', ?_, ?_, hres, htool⟩
    · rw [hcalls, List.getElem?_append_right (Nat.le_refl _), Nat.sub_self]
      rfl
    · rw [hans, hcalls, List.take_left]

/-- the calls of a build in a store that is open, if nothing from outside stops it -/
theorem Raised.answered {σ : Type} {backend : Backend σ} {s : Store} {r : Trail} {force : Bool}
    {ops : List Operation} {tag : Option String} {fs fs' fs₀ : FileSystem}
    {res : Except BuildError BuildOutcome} {reports : List StepReport} {ms : List Moment}
    {steps : List PlannedStep} (h : Raised backend s r force ops tag fs res reports ms fs')
    (hs : s.StandsAt r fs) (hplan : planFrom s fs₀ none ops = .ok steps)
    (hd : (steps.map PlannedStep.identity).Nodup)
    (hsame : ∀ p ∈ steps, fs.isWhole (s.layerPath p.identity) = p.cached)
    (htag : ∀ name, tag = some name → isValidName name = true)
    (hout : ∀ e, res = .error e → e.isOutside = false) :
    ∃ failure, Answered (s.buildCalls force ops steps tag) (answersOf ms) failure ∧
      Blamed res failure := by
  cases h with
  | @fallen e reports ms fs' hasc =>
    obtain ⟨failure, hans, hblame⟩ := hasc.answered hs hplan (by simp) hd hsame fun e' he' => by
      cases he'
      exact hout e rfl
    cases failure with
    | none =>
      obtain ⟨a, he⟩ := hblame
      cases he
    | some f =>
      obtain ⟨c, e₁⟩ := f
      obtain ⟨e₂, he, htool⟩ := hblame
      cases he
      exact ⟨some (c, e₁), hans.append_of_failed _, e, rfl, htool⟩
  | @ended reports ms fs₁ key res₁ ms' fs' res hasc hlast hended herr hok =>
    obtain ⟨failure, hans, hblame⟩ := hasc.answered hs hplan (by simp) hd hsame fun e' he' => by
      cases he'
    rw [answersOf_append]
    cases failure with
    | some f =>
      obtain ⟨e, he, -⟩ := hblame
      cases he
    | none =>
      rw [lastKey_of_planFrom hplan, Option.map_eq_some_iff] at hlast
      obtain ⟨p, hp, rfl⟩ := hlast
      rw [Store.buildCalls, hp]
      cases tag with
      | none =>
        obtain ⟨hres, hms'⟩ := hended.none rfl
        obtain ⟨o, ho, -⟩ := hok hres
        rw [hms', answersOf_nil, List.append_nil]
        refine ⟨none, ?_, o, ho⟩
        show Answered (_ ++ []) _ _
        rw [List.append_nil]
        exact hans
      | some name =>
        obtain ⟨l, -, -, htagged⟩ := hended.some name rfl
        -- the disk of a tag is never that of a layer, so it is not made from itself
        have hself : .snapshot l.location l.location ∉
            [Call.snapshot (s.layerPath p.identity) (s.tagPath name)] := by
          intro hmem
          obtain ⟨hbelow, hdisk⟩ := Call.snapshot.inj (List.mem_singleton.mp hmem)
          have hkey : p.identity ∈ keysFrom none ops := by
            rw [keysFrom_of_planFrom hplan]
            exact List.mem_map_of_mem (List.mem_of_getLast? hp)
          exact Store.layerPath_ne_tagPath (isValidName_of_mem_keysFrom hkey) (htag name rfl)
            (hbelow.symm.trans hdisk)
        obtain ⟨failure', hans', hblame'⟩ := htagged.answered hself fun e he => hout e (herr e he)
        refine ⟨failure', hans.append hans', ?_⟩
        cases failure' with
        | none =>
          obtain ⟨u, hu⟩ := hblame'
          obtain ⟨o, ho, -⟩ := hok hu
          exact ⟨o, ho⟩
        | some f =>
          obtain ⟨e, he, htool⟩ := hblame'
          exact ⟨e, herr e he, htool⟩

namespace Built
variable {σ : Type} {backend : Backend σ} {config : BuildConfig} {ops : List Operation}
  {tag : Option String} {s : Store} {fs fs' : FileSystem} {res : Except BuildError BuildOutcome}
  {reports : List StepReport} {ms : List Moment}

/-- before the first step the disks are as they were planned -/
theorem planned_of_opened {r : Trail} {steps : List PlannedStep} (ha : s.root.isAbsolute = true)
    (ho : Opened s.root fs fs') (hs : s.StandsAt r fs') (hwf : fs.WellFormed)
    (hset : s.root.IsSettled fs) (hplan : planFrom s fs none ops = .ok steps) :
    ∀ p ∈ steps, fs'.isWhole (s.layerPath p.identity) = p.cached := by
  intro p hp
  have hmem : p.identity ∈ keysFrom none ops := by
    rw [keysFrom_of_planFrom hplan]
    exact List.mem_map_of_mem hp
  have hkeeps := Store.KeepsLayer.of_opened ha ho hs hwf hset (isValidName_of_mem_keysFrom hmem)
  rw [hkeeps.isWhole_eq, cached_of_planFrom hplan hp]

/-- the calls of a build that nothing from outside stops -/
theorem answered {steps : List PlannedStep}
    (h : Built backend config ops tag fs res reports ms fs')
    (hs : Store.openReadOnly fs config.storeRoot = .ok s) (hwf : fs.WellFormed)
    (hset : s.root.IsSettled fs) (hplan : planFrom s fs none ops = .ok steps)
    (hd : (steps.map PlannedStep.identity).Nodup)
    (htag : ∀ name, tag = some name → isValidName name = true)
    (hout : ∀ e, res = .error e → e.isOutside = false) :
    ∃ failure, Answered (s.buildCalls config.force ops steps tag) (answersOf ms) failure ∧
      Blamed res failure := by
  -- opening the store makes no call
  have hraised : ∀ {r fs₀ ms₀ ms}, Opened s.root fs fs₀ → s.StandsAt r fs₀ → answersOf ms₀ = [] →
      s.root.isAbsolute = true → Raised backend s r config.force ops tag fs₀ res reports ms fs' →
      ∃ failure, Answered (s.buildCalls config.force ops steps tag) (answersOf (ms₀ ++ ms)) failure ∧
        Blamed res failure := by
    intro r fs₀ ms₀ ms ho hstands hms ha hraised
    rw [answersOf_append, hms, List.nil_append]
    exact hraised.answered hstands hplan hd (planned_of_opened ha ho hstands hwf hset hplan) htag hout
  cases h with
  | unopened => cases hout _ rfl
  | fallen habs ha ho hstands hms hasc =>
    cases eq_of_openReadOnly hs habs
    exact hraised ho hstands hms ha (.fallen hasc)
  | ended habs ha ho hstands hms hasc hlast hended herr hok =>
    cases eq_of_openReadOnly hs habs
    exact hraised ho hstands hms ha (.ended hasc hlast hended herr hok)

end Built

/-- The calls of a build are those that the plan tells: all of them where it succeeds, and where one
fails those up to it.  This is so unless the files, a lock, or a machine on the tag stop the
build. -/
theorem build_calls {σ : Type} {backend : Backend σ} {config : BuildConfig}
    {ops : List Operation} {tag : Option String} {s : Store} {steps : List PlannedStep} {w : World σ}
    (hb : backend.Confined) (hl : backend.LeavesFiles) (hu : w.Undisturbed)
    (hwf : w.files.WellFormed) (hs : Store.openReadOnly w.files config.storeRoot = .ok s)
    (hset : s.root.IsSettled w.files) (hplan : plan s w.files ops = .ok steps)
    (hd : (steps.map PlannedStep.identity).Nodup)
    (htag : ∀ name, tag = some name → isValidName name = true) :
    let out := (build backend config ops tag).runIn w
    let calls := s.buildCalls config.force ops steps tag
    (∀ e, out.1 = .error e → e.isOutside = false) →
      ∃ ms, out.2.journal = w.journal ++ ms ∧
        (((∃ o, out.1 = .ok o) ∧ answersOf ms = calls.map (·, .ok ())) ∨
          ∃ j c e e', calls[j]? = some c ∧
            answersOf ms = (calls.take j).map (·, .ok ()) ++ [(c, .error e)] ∧
            out.1 = .error e' ∧ e'.tool? = some e) := by
  intro out calls hout
  have hne : ops ≠ [] := by
    rintro rfl
    cases hplan
  rw [plan_eq, if_neg hne] at hplan
  obtain ⟨ms, hj, -, -, hbuilt⟩ := ends_build config ops tag hb hl hu hne htag
  obtain ⟨failure, hans, hblame⟩ := hbuilt.answered hs hwf hset hplan hd htag hout
  exact ⟨ms, hj, hans.cases_of_blamed hblame⟩

/-- a base image, a command in the guest and a tag, where nothing is cached -/
theorem build_calls_mutate_tag :
    let out := (build (.touching fun _ => false) { storeRoot := ⟨"/s"⟩ }
      [.base " d ", .mutate "x"] (some "t")).runIn (.on {})
    (∃ o, out.1 = .ok o) ∧ answersOf out.2.journal =
      [(.materialize "d" "qcow2" ⟨"/s/layers/d.qcow2"⟩, .ok ()),
       (.snapshot ⟨"/s/layers/d.qcow2"⟩ ⟨"/s/layers/cda1f71bcdd8b42467a0.qcow2"⟩, .ok ()),
       (.execute ⟨"/s/layers/cda1f71bcdd8b42467a0.qcow2"⟩ (.shell "x"), .ok ()),
       (.snapshot ⟨"/s/layers/cda1f71bcdd8b42467a0.qcow2"⟩ ⟨"/s/tags/t.qcow2"⟩, .ok ())] := by
  have hok : ((build (.touching fun _ => false) { storeRoot := ⟨"/s"⟩ }
      [.base " d ", .mutate "x"] (some "t")).runIn (.on {})).1.isOk = true := by
    decide +kernel
  have h := @build_calls Unit (.touching fun _ => false) { storeRoot := ⟨"/s"⟩ }
    [.base " d ", .mutate "x"] (some "t") ⟨⟨"/s"⟩⟩
    [⟨"BASE: d ", ⟨"d"⟩, false⟩, ⟨"MUTATE:x", ⟨"cda1f71bcdd8b42467a0"⟩, false⟩] (.on {})
    (Backend.confined_touching _) (Backend.leavesFiles_touching _) (World.undisturbed_on _)
    (by decide +kernel) (by decide +kernel) (Or.inl (by decide +kernel)) (by decide +kernel)
    (by decide +kernel) (by decide +kernel)
  dsimp only at h ⊢
  generalize (build _ _ _ _).runIn (.on {}) = out at h hok ⊢
  cases ho : out.1 with
  | error e =>
    rw [ho] at hok
    cases hok
  | ok o =>
    rw [ho] at h
    obtain ⟨ms, hj, ⟨-, hans⟩ | ⟨j, c, e, e', -, -, he, -⟩⟩ := h fun e he => by cases he
    · refine ⟨⟨o, rfl⟩, ?_⟩
      rw [hj]
      refine hans.trans ?_
      decide +kernel
    · cases he

/-- a file system with the disk of `d` -/
def FileSystem.stocked : FileSystem where
  nodes := [(["layers"], .dir), (["d.qcow2", "layers"], .file 0 .empty)]
  births := 1

/-- the store on it, by a path that leads up again from a directory that is not there -/
def Store.detour : Store := ⟨⟨"/g/.."⟩⟩

/-- A store whose path leads up again from a directory that is not there looks empty until it is
opened. -/
theorem build_calls_fewer_than_planned :
    let s := Store.detour
    let out := (build (.touching fun _ => false) { storeRoot := s.root } [.base "d"] none).runIn
      (.on .stocked)
    (Backend.touching (σ := Unit) fun _ => false).Confined ∧
      (Backend.touching (σ := Unit) fun _ => false).LeavesFiles ∧
      (World.on .stocked).Undisturbed ∧ FileSystem.stocked.WellFormed ∧
      Store.openReadOnly .stocked s.root = .ok s ∧
      plan s .stocked [.base "d"] = .ok [⟨"BASE:d", ⟨"d"⟩, false⟩] ∧
      out.1.isOk = true ∧ answersOf out.2.journal = [] ∧
      s.buildCalls false [.base "d"] [⟨"BASE:d", ⟨"d"⟩, false⟩] none
        = [.materialize "d" "qcow2" ⟨"/g/../layers/d.qcow2"⟩] := by
  refine ⟨Backend.confined_touching _, Backend.leavesFiles_touching _, World.undisturbed_on _,
    ?_, ?_, ?_, ?_⟩
  · decide +kernel
  · decide +kernel
  · decide +kernel
  · decide +kernel

end DiskLayers
