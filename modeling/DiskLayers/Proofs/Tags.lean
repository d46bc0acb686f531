import DiskLayers.Proofs.Pinning
import DiskLayers.Proofs.Reuse
import DiskLayers.Proofs.Cache

/-!
# What a store says about tags that machines run on

* `Upholds`        what a store answers about a tag, by a table of the machines that run

`tags_pinned` says that a store upholds its tags whatever was asked of it before: as long as machines
run on a tag it is neither set anew nor taken away, and afterwards it can be taken away.
-/

namespace DiskLayers
open DiskLayers.Path

structure Upholds (backend : Backend σ) (s : Store) (w : World σ) (pins : List Pin) (tag : String) :
    Prop where
  /-- the machines on the tag are those of the table -/
  listed : s.instancesOf w.files tag = .ok (machinesOn pins tag)
  member : ∀ machine, machine ∈ machinesOn pins tag ↔ ∃ p ∈ pins, p.tag = tag ∧ p.machine = machine
  /-- in order, and each once -/
  sorted : (machinesOn pins tag).Pairwise (· < ·)
  /-- the disk of the tag is there, with what was in it when they were launched -/
  content : ∀ p ∈ pins, p.tag = tag → w.files.isWhole (s.tagPath tag) = true ∧
    p.content ≠ none ∧ w.files.contents (s.tagPath tag) = p.content
  /-- it is not set anew -/
  retag : machinesOn pins tag ≠ [] → ∀ (config : BuildConfig) (c : Context), c.current? ≠ none →
    ((tagAs backend s config tag).runIn c w).1.1 =
        .error (.storage ("TAG:" ++ tag) ⟨tag⟩ (.tagInUse tag (machinesOn pins tag))) ∧
      FileSystem.KeepsDisk (s.tagPath tag) w.files ((tagAs backend s config tag).runIn c w).2.files
  /-- not by a build that has completed its steps either -/
  rebuild : machinesOn pins tag ≠ [] → ∀ (config : BuildConfig) (ops : List Operation), ops ≠ [] →
    config.storeRoot.absolute? w.files.currentPath = some s.root →
    (completed backend config ops (some tag) w).length = ops.length →
    ((build backend config ops (some tag)).runIn w).1 =
        .error (.storage ("TAG:" ++ tag) ⟨tag⟩ (.tagInUse tag (machinesOn pins tag))) ∧
      FileSystem.KeepsDisk (s.tagPath tag) w.files
        ((build backend config ops (some tag)).runIn w).2.files
  /-- it is not taken away -/
  untag : machinesOn pins tag ≠ [] → ∀ command wait,
    ((s.removeTag tag command wait : Act σ StoreError Unit).runIn w).1 =
        .error (.tagInUse tag (machinesOn pins tag)) ∧
      FileSystem.KeepsDisk (s.tagPath tag) w.files
        ((s.removeTag tag command wait : Act σ StoreError Unit).runIn w).2.files
  /-- where no machine runs on it, it can be taken away -/
  removable : isValidName tag = true → w.files.isWhole (s.tagPath tag) = true →
    machinesOn pins tag = [] → ∀ command wait,
      ((s.removeTag tag command wait : Act σ StoreError Unit).runIn w).1 = .ok ()
  /-- so it can when the last machine has been destroyed -/
  released : ∀ machine, machinesOn pins tag = [machine] →
    ((destroy backend s machine).runIn w).1 = .ok () → ∀ command wait,
      ((s.removeTag tag command wait : Act σ StoreError Unit).runIn
        ((destroy backend s machine).runIn w).2).1 = .ok ()

/-- A tag that machines run on is refused under its lock. -/
theorem ends_makeTag_used {σ : Type} {backend : Backend σ} {w : World σ} {s : Store} {r : Trail}
    {l terminal : Layer} {e : StoreError} (config : BuildConfig) (hs : s.StandsAt r w.files)
    (hu : w.Undisturbed) (hc : w.Clear r) (hv : isValidName l.identity.name = true)
    (hf : s.LockFits l.kind l.identity)
    (hused : ∀ fs, FileSystem.Within (Store.lockTrails r) w.files fs →
      s.ensureUnused fs l.identity.name = .error e) :
    (makeTag backend s config l terminal).Ends w fun res _ w' => w.Leaves r w' ∧
      res = .error (.ofStore l e) ∧ FileSystem.Within (Store.lockTrails r) w.files w'.files := by
  rw [makeTag_eq]
  refine Act.Ends.during (Act.ends_acquireOf config hs hu hv) ?_ ?_
  · rintro lock ms₀ w₀ ⟨hlocks, hclear, -⟩
    have hw₀ := hlocks.reaches.within
    refine Act.Ends.bind_mapError (P := fun res ms w' => ms = [] ∧ w' = w₀ ∧ res = .error e)
      (Act.ends_of_runIn rfl ⟨rfl, rfl, hused _ hw₀⟩) ?_ ?_
    · rintro ⟨⟩ ms v ⟨-, -, hres⟩
      cases hres
    · rintro e' ms v ⟨rfl, rfl, hres⟩
      cases hres
      exact ⟨.of_during hlocks (fun hc => (hclear hc).1) (.refl v) (.refl ∅ v.files)
        fun t ht => ht.elim, rfl, hw₀⟩
  · rintro e' ms w' ⟨-, hclear, -⟩
    obtain ⟨lock, hlock⟩ := (hclear hc).2 hf
    cases hlock

theorem Ascent.length_lt {σ : Type} {backend : Backend σ} {s : Store} {r : Trail} {force : Bool}
    {below : Option Identity} {ops : List Operation} {fs fs' : FileSystem} {e : BuildError}
    {reports : List StepReport} {ms : List Moment}
    (h : Ascent backend s r force below ops fs (.error e) reports ms fs') :
    reports.length < ops.length := by
  generalize hres : (Except.error e : Except BuildError Unit) = res at h
  induction h with
  | top => cases hres
  | halted => exact Nat.zero_lt_succ _
  | fallen => exact Nat.zero_lt_succ _
  | step _ _ _ ih => exact Nat.succ_lt_succ (ih hres)

namespace Pinned
variable {σ : Type} {backend : Backend σ} {s : Store} {r : Trail} {current : Path} {w : World σ}
  {pins : List Pin} {tag : String}

theorem of_used (h : Pinned s r current w pins) (ha : s.root.isAbsolute = true)
    (hne : machinesOn pins tag ≠ []) : isValidName tag = true ∧
      w.files.isWhole (s.tagPath tag) = true ∧ s.LockFits .tag ⟨tag⟩ := by
  obtain ⟨machine, hm⟩ := List.exists_mem_of_ne_nil _ hne
  obtain ⟨p, hp, rfl, -⟩ := mem_machinesOn.mp hm
  have hv := h.recorded.tag p hp
  exact ⟨hv, h.whole p hp, lockFits_of_marker .tag hv ha (h.marked _ hv (h.whole p hp))⟩

/-- setting a tag that machines run on is refused -/
theorem tagAs_used (backend : Backend σ) (h : Pinned s r current w pins) (ha : s.root.isAbsolute = true)
    (hne : machinesOn pins tag ≠ []) (config : BuildConfig) {c : Context} (hc : c.current? ≠ none) :
    ∃ c', ((tagAs backend s config tag).runIn c w).1 =
        (.error (.storage ("TAG:" ++ tag) ⟨tag⟩ (.tagInUse tag (machinesOn pins tag))), c') ∧
      c'.steps = c.steps ∧ FileSystem.Within (Store.lockTrails r) w.files
        ((tagAs backend s config tag).runIn c w).2.files := by
  obtain ⟨hv, -, hf⟩ := h.of_used ha hne
  obtain ⟨⟨id, terminal⟩, hcur⟩ := Option.ne_none_iff_exists'.mp hc
  obtain ⟨l, hl⟩ : ∃ l : Layer, l = { s.tagNamed tag with parent := some id } := ⟨_, rfl⟩
  have hname : l.identity = ⟨tag⟩ := by rw [hl, Store.tagNamed]
  have hkind : l.kind = .tag := by rw [hl, Store.tagNamed]
  have hdirective : l.directive = "TAG:" ++ tag := by rw [hl, Store.tagNamed]
  have hused : ∀ fs, FileSystem.Within (Store.lockTrails r) w.files fs →
      s.ensureUnused fs l.identity.name = .error (.tagInUse tag (machinesOn pins tag)) := by
    intro fs hw
    rw [hname]
    exact (h.recorded.within hw fun name => Store.not_mem_lockTrails (by decide) _).ensureUnused_eq_error
      (h.stands.within hw) hne
  obtain ⟨ms, -, -, -, hres, hw⟩ := @ends_makeTag_used σ backend w s r l terminal _ config h.stands
    h.undisturbed h.clear (hname ▸ hv) (by rw [hkind, hname]; exact hf) hused
  rw [@tagAs_runIn_of_current σ backend s config c w tag id l terminal hv hcur hl]
  rcases hrun : (makeTag backend s config l terminal).runIn w with ⟨res, w'⟩
  rw [hrun] at hres hw
  cases hres
  refine ⟨{ c with arena := (c.arena.push l).2 }, ?_, rfl, hw⟩
  rw [BuildError.ofStore, hdirective, hname]

/-- A build that sets such a tag is refused once it has completed its steps. -/
theorem build_used (h : Pinned s r current w pins) (hb : backend.Confined)
    (hl : backend.LeavesFiles) (ha : s.root.isAbsolute = true) (hne : machinesOn pins tag ≠ [])
    {config : BuildConfig} {ops : List Operation} (hops : ops ≠ [])
    (hroot : config.storeRoot.absolute? w.files.currentPath = some s.root)
    (hall : (completed backend config ops (some tag) w).length = ops.length) :
    ((DiskLayers.build backend config ops (some tag)).runIn w).1 =
        .error (.storage ("TAG:" ++ tag) ⟨tag⟩ (.tagInUse tag (machinesOn pins tag))) ∧
      FileSystem.KeepsDisk (s.tagPath tag) w.files
        ((DiskLayers.build backend config ops (some tag)).runIn w).2.files := by
  obtain ⟨hv, -, -⟩ := h.of_used ha hne
  have hopened : Pinned s r current (w.reopened s) pins :=
    ⟨h.stands, h.here, h.undisturbed, ⟨h.clear.free, h.clear.tidy⟩, h.recorded, h.whole, h.content,
      h.marked⟩
  rw [completed_reopened h.stands ha hroot, buildIn_runIn] at hall
  rw [build_runIn_reopened h.stands ha hroot hops (by rintro name ⟨⟩; exact hv), resume,
    Act.runIn_ofFunction, buildIn_runIn]
  have hempty : Context.StandsOn s {} none := rfl
  obtain ⟨ms, reports, res, c, v, hrun, -, -, hleaves, hasc, hsteps, -, hlast⟩ :=
    ends_applyAll config ops hb hl hempty hopened.stands hopened.undisturbed (fun k hk => by cases hk)
  rw [hrun] at hall ⊢
  have hreports : c.steps = reports := hsteps
  cases res with
  | error e =>
    have hlt := hasc.length_lt
    dsimp only at hall
    rw [hreports] at hall
    omega
  | ok u =>
    obtain ⟨key, hkey, -⟩ := lastKey_of_ok hasc hops
    have hstands := hlast rfl
    rw [hkey] at hstands
    obtain ⟨id, l, hcur, -, -⟩ := hstands
    have hkeep := h.stands.keepsTag hv hasc.within.1 (Store.tag_not_mem_keyTrails r _)
    have hpinned : Pinned s r current v pins :=
      hopened.of_tags hleaves hasc.within.1 (fun name hmem => Store.instance_not_mem_buildTrails
        none name (Store.keyTrails_subset_buildTrails r none _ hmem)) fun t ht =>
        Or.inl (h.stands.keepsTag ht hasc.within.1 (Store.tag_not_mem_keyTrails r _))
    obtain ⟨c', hres, -, hw⟩ := hpinned.tagAs_used backend ha hne config
      (c := c) (by rw [hcur]; simp)
    dsimp only
    rcases htag : (tagAs backend s config tag).runIn c v with ⟨⟨res', c''⟩, v'⟩
    rw [htag] at hres hw
    cases hres
    exact ⟨rfl, hkeep.trans (hpinned.stands.keepsTag hv hw (Store.tag_not_mem_lockTrails r))⟩

/-- A tag that is there is taken away, unless machines run on it. -/
theorem removeTag_cases (h : Pinned s r current w pins) (ha : s.root.isAbsolute = true)
    (hv : isValidName tag = true) (hwhole : w.files.isWhole (s.tagPath tag) = true)
    (command : String) (wait : Duration) :
    let out := (s.removeTag tag command wait : Act σ StoreError Unit).runIn w
    (machinesOn pins tag = [] ∧ out.1 = .ok ()) ∨
      (machinesOn pins tag ≠ [] ∧ out.1 = .error (.tagInUse tag (machinesOn pins tag)) ∧
        FileSystem.KeepsDisk (s.tagPath tag) w.files out.2.files) := by
  have hrecorded : ∀ fs, FileSystem.Within (Store.lockTrails r) w.files fs →
      Recorded s r pins fs ∧ s.StandsAt r fs := fun fs hw =>
    ⟨h.recorded.within hw fun name => Store.not_mem_lockTrails (by decide) _, h.stands.within hw⟩
  obtain ⟨ms, -, -, -, -, hres⟩ := Act.ends_removeTag (w := w) tag command wait ha
    h.stands h.undisturbed h.clear (h.marked tag)
  dsimp only
  generalize ((s.removeTag tag command wait : Act σ StoreError Unit).runIn w).1 = res at hres ⊢
  generalize ((s.removeTag tag command wait : Act σ StoreError Unit).runIn w).2.files = fs' at hres ⊢
  cases hres with
  | absent hnot => exact absurd ⟨hv, hwhole⟩ hnot
  | used hw he =>
    obtain ⟨hrec, hstands⟩ := hrecorded _ hw
    by_cases hne : machinesOn pins tag = []
    · rw [(hrec.ensureUnused_eq_ok hstands).mpr (machinesOn_eq_nil.mp hne)] at he
      cases he
    · rw [hrec.ensureUnused_eq_error hstands hne] at he
      cases he
      exact Or.inr ⟨hne, rfl, h.stands.keepsTag hv hw (Store.tag_not_mem_lockTrails r)⟩
  | gone _ hw hunused _ _ =>
    obtain ⟨hrec, hstands⟩ := hrecorded _ hw
    by_cases hne : machinesOn pins tag = []
    · exact Or.inl ⟨hne, rfl⟩
    · rw [hrec.ensureUnused_eq_error hstands hne] at hunused
      cases hunused

theorem removeTag_used (h : Pinned s r current w pins) (ha : s.root.isAbsolute = true)
    (hne : machinesOn pins tag ≠ []) (command : String) (wait : Duration) :
    ((s.removeTag tag command wait : Act σ StoreError Unit).runIn w).1 =
        .error (.tagInUse tag (machinesOn pins tag)) ∧
      FileSystem.KeepsDisk (s.tagPath tag) w.files
        ((s.removeTag tag command wait : Act σ StoreError Unit).runIn w).2.files := by
  obtain ⟨hv, hwhole, -⟩ := h.of_used ha hne
  exact ((h.removeTag_cases ha hv hwhole command wait).resolve_left fun hnone => hne hnone.1).2

theorem removeTag_unused (h : Pinned s r current w pins) (ha : s.root.isAbsolute = true)
    (hv : isValidName tag = true) (hwhole : w.files.isWhole (s.tagPath tag) = true)
    (hnone : machinesOn pins tag = []) (command : String) (wait : Duration) :
    ((s.removeTag tag command wait : Act σ StoreError Unit).runIn w).1 = .ok () :=
  ((h.removeTag_cases ha hv hwhole command wait).resolve_right fun hused => hused.1 hnone).2

/-- when the last machine on a tag is destroyed, the tag can be taken away -/
theorem removeTag_released (h : Pinned s r current w pins) (hsp : backend.Sparing s)
    (ha : s.root.isAbsolute = true) {machine : String} (hlast : machinesOn pins tag = [machine])
    (hok : ((DiskLayers.destroy backend s machine).runIn w).1 = .ok ()) (command : String)
    (wait : Duration) :
    ((s.removeTag tag command wait : Act σ StoreError Unit).runIn
      ((DiskLayers.destroy backend s machine).runIn w).2).1 = .ok () := by
  have hne : machinesOn pins tag ≠ [] := by rw [hlast]; simp
  obtain ⟨hv, hwhole, -⟩ := h.of_used ha hne
  have hafter := h.destroy hsp machine
  obtain ⟨ms, -, -, -, -, hres⟩ := Act.ends_destroy (w := w) machine hsp h.stands
    h.recorded.free_instance
  rw [Request.perform] at hafter
  rcases hrun : (DiskLayers.destroy backend s machine).runIn w with ⟨res, w'⟩
  rw [hrun] at hafter hres hok
  cases hok
  dsimp only at hafter hres ⊢
  refine hafter.removeTag_unused ha hv ?_ ?_ command wait
  · generalize w'.files = fs' at hres
    cases hres with
    | gone _ hw _ _ =>
      have hsub : Store.instanceTrails r machine ⊆ Store.instanceTrails r machine ∪ Store.lockTrails r :=
        fun _ ht => Or.inl ht
      rw [(h.stands.keepsTag hv (hw.mono hsub) (Store.tag_not_mem_instanceTrails r machine)).isWhole_eq]
      exact hwhole
  · rw [machinesOn_eq_nil]
    intro p hp htag
    obtain ⟨hp, hne⟩ := List.mem_filter.mp hp
    have hmem := mem_machinesOn.mpr ⟨p, hp, htag, rfl⟩
    rw [hlast, List.mem_singleton] at hmem
    exact of_decide_eq_true hne hmem

/-- the table answers for the store -/
theorem upholds (h : Pinned s r current w pins) (hb : backend.Confined) (hl : backend.LeavesFiles)
    (hsp : backend.Sparing s) (ha : s.root.isAbsolute = true) (tag : String) :
    Upholds backend s w pins tag where
  listed := h.recorded.instancesOf_eq h.stands tag
  member := fun _ => mem_machinesOn
  sorted := pairwise_machinesOn h.recorded.nodup tag
  content := by
    rintro p hp rfl
    have hwhole := h.whole p hp
    obtain ⟨⟨hf, b, c, hnode⟩, -⟩ :=
      (FileSystem.isWhole_join h.stands.tags (h.recorded.tag p hp)).mp hwhole
    refine ⟨hwhole, ?_, h.content p hp⟩
    rw [← h.content p hp, Store.tagPath,
      FileSystem.contents_join h.stands.tags (isPlain_diskName (h.recorded.tag p hp)), if_pos hf, hnode]
    simp [Node.content?]
  retag := by
    intro hne config c hc
    obtain ⟨hv, -, -⟩ := h.of_used ha hne
    obtain ⟨c', hres, -, hw⟩ := h.tagAs_used backend ha hne config hc
    rw [hres]
    exact ⟨rfl, h.stands.keepsTag hv hw (Store.tag_not_mem_lockTrails r)⟩
  rebuild := fun hne _ _ hops hroot hall => h.build_used hb hl ha hne hops hroot hall
  untag := fun hne command wait => h.removeTag_used ha hne command wait
  removable := fun hv hwhole hnone command wait => h.removeTag_unused ha hv hwhole hnone command wait
  released := fun _ hlast hok command wait => h.removeTag_released hsp ha hlast hok command wait

end Pinned

/-- Whatever was asked of a store that was empty, and however it ended: the store upholds every tag
for the machines that were launched and not yet destroyed. -/
theorem tags_pinned {σ : Type} {backend : Backend σ} {s : Store} {w : World σ}
    {requests : List Request} (hb : backend.Confined) (hl : backend.LeavesFiles)
    (hsp : backend.Sparing s) (hu : w.Undisturbed) (ha : s.root.isAbsolute = true)
    (hempty : s.IsEmpty w.files) (hwf : w.files.WellFormed)
    (hfree : ∀ ref ∈ w.locked, ∀ r, s.StandsAt r w.files → ref.trail ∉ Store.lockTrails r)
    (hroot : ∀ q ∈ requests, q.Reaches s w.files.currentPath) :
    let x := performAll backend s requests (w, [])
    ∀ tag, Upholds backend s x.1 x.2 tag := by
  intro x tag
  obtain ⟨r, hs⟩ := hempty.standsAt ha
  have hstart := Pinned.of_isEmpty hs hempty hwf hu fun ref href => hfree ref href r hs
  have hend : Pinned s r w.files.currentPath x.1 x.2 :=
    Pinned.performAll hb hl hsp ha hroot (x := (w, [])) hstart
  exact hend.upholds hb hl hsp ha tag

/-! ## a history -/

/-- a backend that starts no machine of a certain name -/
def Backend.starting (refused : String) : Backend (List Call) := .refusing fun _ c =>
  match c with
  | .createMachine _ m => m.name = refused
  | _ => false

/-- Machines are launched, one of them twice and one that does not start, and one is destroyed. -/
def Request.dotted : List Request :=
  [.build { storeRoot := ⟨"/"⟩ } [.base "d"] (some "a.tag"), .launch "a.tag" { name := "m.tag" },
    .launch "a.tag" { name := "m" }, .launch "a.tag" { name := "m" },
    .launch "a.tag" { name := "bad" }, .destroy "m"]

/-- The tag, whose name looks like that of a record, is not taken away before the last machine is
gone. -/
theorem tags_pinned_dotted :
    let backend : Backend (List Call) := .starting "bad"
    let s : Store := ⟨⟨"/"⟩⟩
    let x := performAll backend s Request.dotted (.afresh .cleared, [])
    s.instancesOf x.1.files "a.tag" = .ok ["m.tag"] ∧
      ((s.removeTag "a.tag" "untag" .zero : Act (List Call) StoreError Unit).runIn x.1).1 =
        .error (.tagInUse "a.tag" ["m.tag"]) ∧
      ((s.removeTag "a.tag" "untag" .zero : Act (List Call) StoreError Unit).runIn
        ((destroy backend s "m.tag").runIn x.1).2).1 = .ok () := by
  intro backend s x
  have hreaches : ∀ q ∈ Request.dotted, q.Reaches s (World.afresh .cleared).files.currentPath := by
    have hroot : (⟨"/"⟩ : Path).absolute? (World.afresh .cleared).files.currentPath = some s.root := by
      decide +kernel
    simp [Request.dotted, Request.Reaches, hroot]
  have hupholds : Upholds backend s x.1 x.2 "a.tag" := @tags_pinned (List Call) backend s
    (.afresh .cleared) Request.dotted (Backend.confined_refusing _) (Backend.leavesFiles_refusing _)
    (Backend.sparing_refusing _ s) (World.undisturbed_afresh _) (by decide) (by decide +kernel)
    (by decide +kernel) (fun ref href => absurd href List.not_mem_nil) hreaches "a.tag"
  have hmachines : machinesOn x.2 "a.tag" = ["m.tag"] := by decide +kernel
  have hdestroyed : ((destroy backend s "m.tag").runIn x.1).1 = .ok () := by decide +kernel
  rw [← hmachines]
  exact ⟨hupholds.listed, (hupholds.untag (by rw [hmachines]; simp) _ _).1,
    hupholds.released _ hmachines hdestroyed _ _⟩

end DiskLayers
