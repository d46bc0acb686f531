import DiskLayers.Proofs.Builds

/-!
# A failed build does no harm

* `BuildError.step?`        the directive and the key of the step that failed
* `BuildError.IsRefusal`    the step did not come to touch its disk

`Realized.failed` is about one step, `Ascent.failed` and the lemmas beside it about several, by
induction on the ascent.  `build_failure_contained` says it of a whole build.
-/

namespace DiskLayers
open DiskLayers.Path

def BuildError.step? : BuildError → Option (String × Identity)
  | .storage directive key _ | .executor directive key _ => some (directive, key)
  | .script _ | .openStore _ => none

/-- the lock of a disk could not be taken, or the old disk could not be taken away -/
def BuildError.IsRefusal (e : BuildError) (disk : Path) : Prop :=
  (∃ directive key cause, e = .storage directive key (.lock cause)) ∨
    ∃ directive key cause, e = .storage directive key (.io "remove" disk cause)

/-! ## one step -/

theorem Remade.mem_calls {backend : Backend σ} {l : Layer} {dir : Path} {d : Trail}
    {calls : List Call} {fs fs' : FileSystem} {ms : List Moment} {res : Except BuildError Unit}
    (h : Remade backend l dir d calls fs res ms fs') {a : Call × Except ToolError Unit}
    (ha : a ∈ answersOf ms) : a.1 ∈ calls := by
  cases h with
  | stuck => cases ha
  | refused hs _ _ _ =>
    rw [hs] at ha
    cases ha
  | orphaned _ hs _ _ =>
    rw [hs] at ha
    cases ha
  | failed hans _ _ => exact hans.mem_calls ha
  | made hans _ _ _ _ _ _ _ => exact hans.mem_calls ha

namespace Realized
variable {σ : Type} {backend : Backend σ} {r : Trail} {force : Bool} {l : Layer} {dir : Path}
  {d : Trail} {calls : List Call} {fs fs' : FileSystem} {ms : List Moment}

theorem step?_callError (l : Layer) (c : Call) (e : ToolError) :
    (l.callError c e).step? = some (l.directive, l.identity) := by
  cases c <;> rfl

/-- a step that fails names itself, and leaves its disk as it was or not whole -/
theorem failed {e : BuildError} (h : Realized backend r force l dir d calls fs (.error e) ms fs') :
    e.step? = some (l.directive, l.identity) ∧
      ((e.IsRefusal l.location ∧ FileSystem.Within (Store.lockTrails r) fs fs') ∨
        fs'.isWhole l.location = false) := by
  generalize hres : (Except.error e : Except BuildError StepStatus) = res at h
  cases h with
  | found => cases hres
  | locked _ _ hw _ =>
    cases hres
    exact ⟨rfl, Or.inl ⟨Or.inl ⟨_, _, _, rfl⟩, hw⟩⟩
  | remade _ _ hw _ hm _ _ =>
    cases hm with
    | stuck =>
      cases hres
      exact ⟨rfl, Or.inl ⟨Or.inr ⟨_, _, _, rfl⟩, hw⟩⟩
    | refused _ _ hnot _ =>
      cases hres
      exact ⟨rfl, Or.inr hnot⟩
    | orphaned _ _ hnot _ =>
      cases hres
      exact ⟨rfl, Or.inr hnot⟩
    | failed _ hnot _ =>
      cases hres
      exact ⟨step?_callError l _ _, Or.inr hnot⟩
    | made => cases hres

theorem mem_calls {res : Except BuildError StepStatus}
    (h : Realized backend r force l dir d calls fs res ms fs') {a : Call × Except ToolError Unit}
    (ha : a ∈ answersOf ms) : a.1 ∈ calls := by
  cases h with
  | found => cases ha
  | locked _ hs _ _ =>
    rw [hs] at ha
    cases ha
  | @remade fs₀ fs' res ms₀ ms m _ hs _ _ hm hm' _ =>
    rw [answersOf_between hs hm'] at ha
    exact hm.mem_calls ha

end Realized

/-! ## several steps -/

namespace Ascent
variable {σ : Type} {backend : Backend σ} {s : Store} {r : Trail} {force : Bool}
  {below : Option Identity} {ops : List Operation} {fs fs' : FileSystem}
  {res : Except BuildError Unit} {reports : List StepReport} {ms : List Moment}

/-- the disks of completed steps are whole in the end -/
theorem isWhole_completed (h : Ascent backend s r force below ops fs res reports ms fs')
    (hs : s.StandsAt r fs) (hd : (keysFrom below ops).Nodup) :
    ∀ key ∈ (keysFrom below ops).take reports.length, fs'.isWhole (s.layerPath key) = true := by
  induction h with
  | top => exact fun key hkey => by cases hkey
  | halted => exact fun key hkey => by cases hkey
  | fallen => exact fun key hkey => by cases hkey
  | @step below op ops key fs status ms fs₁ res reports ms' fs₂ hk hclimb hasc ih =>
    rw [keysFrom, hk] at hd ⊢
    obtain ⟨hnot, hd'⟩ := List.nodup_cons.mp hd
    have hs₁ := hs.within hclimb.within
    intro k hkey
    rw [List.length_cons, List.take_succ_cons] at hkey
    rcases List.mem_cons.mp hkey with rfl | hkey
    · -- the steps above leave the disk alone
      obtain ⟨l, hl, hreal⟩ := hclimb.realized
      have hwhole := hreal.isWhole
      rw [hl.location] at hwhole
      have hnot' : k ∉ (keysFrom (some k) ops).take (reports.length + 1) :=
        fun hmem => hnot (List.mem_of_mem_take hmem)
      rw [Store.layerPath, hasc.within.1.isWhole_join hs₁.layers (isValidName_nextKey hk)
        (Store.diskName_not_mem_keyTrails hnot') (Store.markerName_not_mem_keyTrails hnot')]
      exact hwhole
    · exact ih hs₁ hd' k hkey

/-- the first step that fails names itself; either its disk is as it was before all steps, or it is
not whole -/
theorem failed {e : BuildError} (h : Ascent backend s r force below ops fs (.error e) reports ms fs')
    (he : e.step? ≠ none) :
    ∃ key op, (keysFrom below ops)[reports.length]? = some key ∧ ops[reports.length]? = some op ∧
      e.step? = some (op.descriptor, key) ∧
      ((e.IsRefusal (s.layerPath key) ∧ FileSystem.Within
          (Store.keyTrails r ((keysFrom below ops).take reports.length)) fs fs') ∨
        fs'.isWhole (s.layerPath key) = false) := by
  generalize hres : (Except.error e : Except BuildError Unit) = res at h
  induction h with
  | top => cases hres
  | halted =>
    cases hres
    exact absurd rfl he
  | @fallen below op ops key fs e' ms fs' hk hclimb =>
    cases hres
    obtain ⟨l, hl, hreal⟩ := hclimb.realized
    obtain ⟨hstep, hcases⟩ := hreal.failed
    rw [hl.directive, hl.identity] at hstep
    rw [hl.location] at hcases
    rw [keysFrom, hk]
    refine ⟨key, op, rfl, rfl, hstep, ?_⟩
    rcases hcases with ⟨href, hw⟩ | hnot
    · exact Or.inl ⟨href, hw.mono Store.lockTrails_subset_keyTrails⟩
    · exact Or.inr hnot
  | @step below op ops key fs status ms fs₁ res reports ms' fs₂ hk hclimb hasc ih =>
    obtain ⟨key', op', hkey, hop, hstep, hcases⟩ := ih hres
    rw [keysFrom, hk]
    refine ⟨key', op', hkey, hop, hstep, ?_⟩
    rcases hcases with ⟨href, hw⟩ | hnot
    · refine Or.inl ⟨href, ?_⟩
      dsimp only
      rw [List.length_cons, List.take_succ_cons]
      refine (hclimb.within.mono (Store.keyTrails_mono fun k hk => ?_)).trans
        (hw.mono (Store.keyTrails_mono fun k hk => List.mem_cons_of_mem _ hk))
      rw [List.mem_singleton.mp hk]
      exact List.mem_cons_self
    · exact Or.inr hnot

/-- whenever a call is made for a disk its marker is there -/
theorem shown (h : Ascent backend s r force below ops fs res reports ms fs') :
    ∀ m ∈ ms, ∀ c, m.call? = some c → ∃ key ∈ keysFrom below ops,
      c.target? = some (s.layerPath key) ∧
        m.before.isPresent (Layer.markerOf (s.layerPath key)) = true := by
  -- the calls of one step
  have hone : ∀ {below op key fs res ms fs'},
      Climbed backend s r force below op key fs res ms fs' → ∀ m ∈ ms, ∀ c, m.call? = some c →
        c.target? = some (s.layerPath key) ∧
          m.before.isPresent (Layer.markerOf (s.layerPath key)) = true := by
    intro below op key fs res ms fs' hclimb m hm c hc
    refine ⟨?_, hclimb.shown m hm (by rw [hc]; simp)⟩
    obtain ⟨l, hl, hreal⟩ := hclimb.realized
    rw [m.call?_eq, Option.map_eq_some_iff] at hc
    obtain ⟨a, ha, rfl⟩ := hc
    exact Operation.target?_of_mem_callsOn
      (hreal.mem_calls (List.mem_filterMap.mpr ⟨m, hm, ha⟩))
  induction h with
  | top => exact fun m hm => absurd hm List.not_mem_nil
  | halted => exact fun m hm => absurd hm List.not_mem_nil
  | fallen hk hclimb =>
    intro m hm c hc
    rw [keysFrom, hk]
    exact ⟨_, List.mem_cons_self, hone hclimb m hm c hc⟩
  | step hk hclimb hasc ih =>
    intro m hm c hc
    rw [keysFrom, hk]
    rcases List.mem_append.mp hm with hm | hm
    · exact ⟨_, List.mem_cons_self, hone hclimb m hm c hc⟩
    · obtain ⟨key, hkey, htarget⟩ := ih m hm c hc
      exact ⟨key, List.mem_cons_of_mem _ hkey, htarget⟩

end Ascent

/-! ## a whole build -/

/-- disk and marker of a key are the same on two file systems, or on both not there -/
def Store.KeepsLayer (s : Store) (key : Identity) (fs fs' : FileSystem) : Prop :=
  fs'.found? (s.layerPath key) = fs.found? (s.layerPath key) ∧
    fs'.found? (Layer.markerOf (s.layerPath key)) = fs.found? (Layer.markerOf (s.layerPath key))

instance (s : Store) (key : Identity) (fs fs' : FileSystem) : Decidable (s.KeepsLayer key fs fs') :=
  instDecidableAnd

namespace Store.KeepsLayer
variable {s : Store} {r : Trail} {key : Identity} {keys : List Identity} {fs fs' fs'' : FileSystem}

theorem trans (h : s.KeepsLayer key fs fs') (h' : s.KeepsLayer key fs' fs'') :
    s.KeepsLayer key fs fs'' := ⟨h'.1.trans h.1, h'.2.trans h.2⟩

theorem isWhole_eq (h : s.KeepsLayer key fs fs') :
    fs'.isWhole (s.layerPath key) = fs.isWhole (s.layerPath key) := FileSystem.KeepsDisk.isWhole_eq h

theorem of_avoids {T : Set Trail} (hs : s.StandsAt r fs) (hv : isValidName key.name = true)
    (hdisk : diskName key.name :: layersDir :: r ∉ T)
    (hmark : markerName key.name :: layersDir :: r ∉ T) (hw : FileSystem.Within T fs fs') :
    s.KeepsLayer key fs fs' := FileSystem.KeepsDisk.of_within hs.layers hv hdisk hmark hw

theorem of_within (hs : s.StandsAt r fs) (hv : isValidName key.name = true) (hk : key ∉ keys)
    (hw : FileSystem.Within (keyTrails r keys) fs fs') : s.KeepsLayer key fs fs' :=
  of_avoids hs hv (diskName_not_mem_keyTrails hk) (markerName_not_mem_keyTrails hk) hw

theorem of_tags {tag : Option String} (hs : s.StandsAt r fs) (hv : isValidName key.name = true)
    (hw : FileSystem.Within (tagTrails r tag) fs fs') : s.KeepsLayer key fs fs' :=
  of_avoids hs hv (not_mem_tagTrails (by decide) (by decide) _)
    (not_mem_tagTrails (by decide) (by decide) _) hw

theorem of_opened (ha : s.root.isAbsolute = true) (ho : Opened s.root fs fs')
    (hs : s.StandsAt r fs') (hwf : fs.WellFormed) (hset : s.root.IsSettled fs)
    (hv : isValidName key.name = true) : s.KeepsLayer key fs fs' := by
  have hb := (FileSystem.lookup_eq_dir.mp hs.layers).1.ne_nil
  have hd : layersDir ∈ directories := by simp [directories]
  refine ⟨?_, ?_⟩
  · exact found?_of_opened ha ho hs hwf hset hd (isPlain_diskName hv)
  · rw [Store.layerPath, markerOf_join hv hb]
    exact found?_of_opened ha ho hs hwf hset hd (isPlain_markerName hv)

end Store.KeepsLayer

theorem eq_of_openReadOnly {s s' : Store} {fs : FileSystem} {root : Path}
    (h : Store.openReadOnly fs root = .ok s)
    (h' : root.absolute? fs.currentPath = some s'.root) : s' = s := by
  rw [Store.openReadOnly, h'] at h
  exact Except.ok.inj h

theorem not_mem_take_of_nodup {as : List α} {i : Nat} {a : α} (hd : as.Nodup)
    (h : as[i]? = some a) : a ∉ as.take i := by
  obtain ⟨hi, hget⟩ := List.getElem?_eq_some_iff.mp h
  have hsplit : as.take i ++ a :: as.drop (i + 1) = as := by
    rw [← hget, ← List.drop_eq_getElem_cons hi, List.take_append_drop]
  rw [← hsplit, List.nodup_append] at hd
  exact fun hmem => hd.2.2 a hmem a List.mem_cons_self rfl

namespace Built
variable {σ : Type} {backend : Backend σ} {config : BuildConfig} {ops : List Operation}
  {s : Store} {fs fs' : FileSystem} {res : Except BuildError BuildOutcome}
  {reports : List StepReport} {ms : List Moment}
  (hs : Store.openReadOnly fs config.storeRoot = .ok s)
include hs

/-- whenever a call is made for a disk its marker is there -/
theorem shown (h : Built backend config ops none fs res reports ms fs') :
    ∀ m ∈ ms, ∀ c, m.call? = some c → ∃ key ∈ keysFrom none ops,
      c.target? = some (s.layerPath key) ∧
        m.before.isPresent (Layer.markerOf (s.layerPath key)) = true := by
  intro m hm c hc
  have silent : ∀ ms : List Moment, answersOf ms = [] → m ∉ ms := by
    intro ms hms hm
    rw [call?_of_silent hms hm] at hc
    cases hc
  cases h with
  | unopened hms => exact absurd hm (silent _ hms)
  | fallen habs _ _ _ hms hasc =>
    cases eq_of_openReadOnly hs habs
    rcases List.mem_append.mp hm with hm | hm
    · exact absurd hm (silent _ hms)
    · exact hasc.shown m hm c hc
  | ended habs _ _ _ hms hasc _ hended _ _ =>
    cases eq_of_openReadOnly hs habs
    rcases List.mem_append.mp hm with hm | hm
    · exact absurd hm (silent _ hms)
    · rcases List.mem_append.mp hm with hm | hm
      · exact hasc.shown m hm c hc
      · rw [(hended.none rfl).2] at hm
        cases hm

/-- what is left of the layers after a step has failed -/
theorem failed {e : BuildError} {directive : String} {key : Identity}
    (h : Built backend config ops none fs (.error e) reports ms fs')
    (he : e.step? = some (directive, key)) (hwf : fs.WellFormed) (hset : s.root.IsSettled fs)
    (hd : (keysFrom none ops).Nodup) :
    (keysFrom none ops)[reports.length]? = some key ∧
      (∃ op, ops[reports.length]? = some op ∧ op.descriptor = directive) ∧
      (∀ k ∈ (keysFrom none ops).take reports.length, fs'.isWhole (s.layerPath k) = true) ∧
      ((e.IsRefusal (s.layerPath key) ∧ s.KeepsLayer key fs fs') ∨
        fs'.isWhole (s.layerPath key) = false) ∧
      ∀ other, isValidName other.name = true →
        other ∉ (keysFrom none ops).take (reports.length + 1) → s.KeepsLayer other fs fs' := by
  generalize hres : (Except.error e : Except BuildError BuildOutcome) = res at h
  cases h with
  | unopened =>
    cases hres
    cases he
  | ended _ _ _ _ _ _ _ hended _ hok =>
    obtain ⟨o, ho, -⟩ := hok (hended.none rfl).1
    rw [ho] at hres
    cases hres
  | @fallen s' r ms₀ fs₀ e' reports ms fs' habs ha ho hstands hms hasc =>
    cases hres
    cases eq_of_openReadOnly hs habs
    obtain ⟨key', op, hkey, hop, hstep, hcases⟩ := hasc.failed (by rw [he]; simp)
    rw [he] at hstep
    cases hstep
    have hvalid : isValidName key.name = true :=
      isValidName_of_mem_keysFrom (List.mem_of_getElem? hkey)
    refine ⟨hkey, ⟨op, hop, rfl⟩, hasc.isWhole_completed hstands hd, ?_, fun other hv hnot => ?_⟩
    · rcases hcases with ⟨href, hw⟩ | hnot
      · refine Or.inl ⟨href, (Store.KeepsLayer.of_opened ha ho hstands hwf hset hvalid).trans
          (.of_within hstands hvalid ?_ hw)⟩
        exact not_mem_take_of_nodup hd hkey
      · exact Or.inr hnot
    · exact (Store.KeepsLayer.of_opened ha ho hstands hwf hset hv).trans
        (.of_within hstands hv hnot hasc.within.1)

end Built

/-- A build without a tag that fails in a step leaves all layers below it whole, its own as it was
or not whole, and every other one as it was.  No call is made for a disk whose marker is not
there. -/
theorem build_failure_contained {σ : Type} {backend : Backend σ} {config : BuildConfig}
    {ops : List Operation} {s : Store} {steps : List PlannedStep} {w : World σ}
    (hb : backend.Confined) (hl : backend.LeavesFiles) (hu : w.Undisturbed)
    (hwf : w.files.WellFormed) (hs : Store.openReadOnly w.files config.storeRoot = .ok s)
    (hset : s.root.IsSettled w.files) (hplan : plan s w.files ops = .ok steps)
    (hd : (steps.map PlannedStep.identity).Nodup) :
    let out := (build backend config ops none).runIn w
    let k := (completed backend config ops none w).length
    (∃ ms, out.2.journal = w.journal ++ ms ∧ ∀ m ∈ ms, ∀ c, m.call? = some c →
      ∃ p ∈ steps, c.target? = some (s.layerPath p.identity) ∧
        m.before.isPresent (Layer.markerOf (s.layerPath p.identity)) = true) ∧
    ∀ e directive key, out.1 = .error e → e.step? = some (directive, key) →
      (∃ p, steps[k]? = some p ∧ p.directive = directive ∧ p.identity = key) ∧
      (∀ q ∈ steps.take k, out.2.files.isWhole (s.layerPath q.identity) = true) ∧
      ((e.IsRefusal (s.layerPath key) ∧ s.KeepsLayer key w.files out.2.files) ∨
        out.2.files.isWhole (s.layerPath key) = false) ∧
      ∀ other, isValidName other.name = true →
        other ∉ (steps.take (k + 1)).map PlannedStep.identity →
          s.KeepsLayer other w.files out.2.files := by
  intro out k
  have hne : ops ≠ [] := by
    rintro rfl
    cases hplan
  rw [plan_eq, if_neg hne] at hplan
  have hkeys := keysFrom_of_planFrom hplan
  rw [← hkeys] at hd
  obtain ⟨ms, hj, -, -, hbuilt⟩ := ends_build config ops none hb hl hu hne
    (by intro name h; cases h)
  refine ⟨⟨ms, hj, fun m hm c hc => ?_⟩, fun e directive key he hstep => ?_⟩
  · obtain ⟨key, hkey, htarget⟩ := hbuilt.shown hs m hm c hc
    rw [hkeys] at hkey
    obtain ⟨p, hp, rfl⟩ := List.mem_map.mp hkey
    exact ⟨p, hp, htarget⟩
  · change Built backend config ops none w.files out.1 _ ms out.2.files at hbuilt
    rw [he] at hbuilt
    obtain ⟨hkey, ⟨op, hop, hdesc⟩, hwhole, hown, hothers⟩ := hbuilt.failed hs hstep hwf hset hd
    have hsteps := steps_of_planFrom hplan
    refine ⟨⟨PlannedStep.of s w.files op key, ?_, hdesc, rfl⟩, fun q hq => ?_, hown,
      fun other hv hnot => ?_⟩
    · rw [hsteps, List.getElem?_zipWith, hop, hkey]
    · refine hwhole q.identity ?_
      rw [hkeys, ← List.map_take]
      exact List.mem_map_of_mem hq
    · refine hothers other hv ?_
      rw [hkeys, ← List.map_take]
      exact hnot

/-- the base image stays when the guest refuses the command of the step above it -/
theorem build_failure_contained_mutate :
    let out := (build (.touching Call.isExecute) { storeRoot := ⟨"/s"⟩ }
      [.base "db", .mutate "x"] none).runIn (.on {})
    out.1 = .error (.executor "MUTATE:x" ⟨"2b45176b4566823b919b"⟩ (.timeout "qemu-img" ⟨60, 0⟩)) ∧
      out.2.files.isWhole (Store.layerPath ⟨⟨"/s"⟩⟩ ⟨"db"⟩) = true ∧
      out.2.files.isWhole (Store.layerPath ⟨⟨"/s"⟩⟩ ⟨"2b45176b4566823b919b"⟩) = false := by
  have hout : ((build (.touching Call.isExecute) { storeRoot := ⟨"/s"⟩ }
      [.base "db", .mutate "x"] none).runIn (.on {})).1 =
        .error (.executor "MUTATE:x" ⟨"2b45176b4566823b919b"⟩ (.timeout "qemu-img" ⟨60, 0⟩)) := by
    decide +kernel
  have hk : (completed (.touching Call.isExecute) { storeRoot := ⟨"/s"⟩ }
      [.base "db", .mutate "x"] none (.on {})).length = 1 := by
    decide +kernel
  have h := (@build_failure_contained Unit (.touching Call.isExecute)
    { storeRoot := ⟨"/s"⟩ } [.base "db", .mutate "x"] ⟨⟨"/s"⟩⟩
    [⟨"BASE:db", ⟨"db"⟩, false⟩, ⟨"MUTATE:x", ⟨"2b45176b4566823b919b"⟩, false⟩] (.on {})
    (Backend.confined_touching _) (Backend.leavesFiles_touching _) (World.undisturbed_on _)
    (by decide +kernel) (by decide +kernel) (Or.inl (by decide +kernel)) (by decide +kernel)
    (by decide +kernel)).2
  dsimp only at h ⊢
  generalize (completed _ _ _ _ _).length = k at h hk
  generalize (build _ _ _ _).runIn (.on {}) = out at h hout ⊢
  cases hk
  obtain ⟨-, hwhole, hown, -⟩ := h _ _ _ hout rfl
  refine ⟨hout, hwhole ⟨"BASE:db", ⟨"db"⟩, false⟩ List.mem_cons_self, ?_⟩
  rcases hown with ⟨⟨directive, key, cause, e⟩ | ⟨directive, key, cause, e⟩, -⟩ | hnot
  · cases e
  · cases e
  · exact hnot

/-- a file system with the disk of `x` and no room for locks of layers -/
def FileSystem.lockless : FileSystem where
  nodes :=
    [(["layers"], .dir), (["x.qcow2", "layers"], .file 0 .empty), (["locks"], .dir),
     (["layers", "locks"], .file 1 .empty)]
  births := 2

/-- the store on it, by a path that leads up again from where `x` would have its marker -/
def Store.roundabout : Store := ⟨⟨"/layers/x.incomplete/../.."⟩⟩

/-- Opening a store whose path leads up again from a directory that is not there makes that
directory, and may so mark another layer. -/
theorem build_failure_marks_other_layer :
    let s := Store.roundabout
    let out := (build (.touching fun _ => false) { storeRoot := s.root } [.base "d"] none).runIn
      (.on .lockless)
    (Backend.touching (σ := Unit) fun _ => false).Confined ∧
      (Backend.touching (σ := Unit) fun _ => false).LeavesFiles ∧
      (World.on .lockless).Undisturbed ∧ FileSystem.lockless.WellFormed ∧
      Store.openReadOnly .lockless s.root = .ok s ∧
      plan s .lockless [.base "d"] = .ok [⟨"BASE:d", ⟨"d"⟩, false⟩] ∧
      out.1 = .error (.storage "BASE:d" ⟨"d"⟩ (.lock (.createDir .alreadyExists))) ∧
      ¬ s.KeepsLayer ⟨"x"⟩ .lockless out.2.files := by
  refine ⟨Backend.confined_touching _, Backend.leavesFiles_touching _, World.undisturbed_on _,
    ?_, ?_, ?_, ?_⟩
  · decide +kernel
  · decide +kernel
  · decide +kernel
  · decide +kernel

end DiskLayers
