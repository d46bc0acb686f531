import DiskLayers.Proofs.Instances

/-!
# Machines pin their tags

* `Request`           one thing that is asked of a store
* `Request.perform`   what becomes of the world, and of a table of the machines that run
* `performAll`        requests one after the other, whatever comes of each
* `Pinned`            the table says which machines run, and their tags are what they were

`Pinned.perform` is the step: whatever is asked, the store goes along with the table.  What the
store answers about tags is then read off the table.
-/

namespace DiskLayers
open DiskLayers.Path

/-! ## requests -/

inductive Request where
  | build (config : BuildConfig) (ops : List Operation) (tag : Option String)
  | removeTag (name command : String) (wait : Duration)
  | launch (tag : String) (m : MachineSpec)
  | destroy (name : String)

/-- What a request makes of the world, and of a table of the machines that run.  A machine is in the
table from its launch on until it is destroyed. -/
def Request.perform (backend : Backend σ) (s : Store) :
    Request → World σ × List Pin → World σ × List Pin
  | .build config ops tag, (w, pins) => (((DiskLayers.build backend config ops tag).runIn w).2, pins)
  | .removeTag name command wait, (w, pins) =>
    (((s.removeTag name command wait : Act σ StoreError Unit).runIn w).2, pins)
  | .launch tag m, (w, pins) =>
    match (DiskLayers.launch backend s tag m).runIn w with
    | (.ok _, w') => (w', ⟨m.name, tag, w.files.contents (s.tagPath tag)⟩ :: pins)
    | (.error _, w') => (w', pins)
  | .destroy name, (w, pins) =>
    match (DiskLayers.destroy backend s name).runIn w with
    | (.ok _, w') => (w', pins.filter fun p => p.machine ≠ name)
    | (.error _, w') => (w', pins)

def performAll (backend : Backend σ) (s : Store) (requests : List Request)
    (x : World σ × List Pin) : World σ × List Pin :=
  requests.foldl (fun x q => q.perform backend s x) x

/-- a request finds the store where it is -/
def Request.Reaches (s : Store) (current : Path) : Request → Prop
  | .build config _ _ => config.storeRoot.absolute? current = some s.root
  | _ => True

/-! ## the table -/

/-- The store is there and nobody else is at it, the machines of the table run, and what is behind
their disks is whole and what it was when they were launched. -/
structure Pinned (s : Store) (r : Trail) (current : Path) (w : World σ) (pins : List Pin) : Prop where
  stands : s.StandsAt r w.files
  here : w.files.currentPath = current
  undisturbed : w.Undisturbed
  clear : w.Clear r
  recorded : Recorded s r pins w.files
  whole : ∀ p ∈ pins, w.files.isWhole (s.tagPath p.tag) = true
  content : ∀ p ∈ pins, w.files.contents (s.tagPath p.tag) = p.content
  /-- what it takes to lock a tag -/
  marked : ∀ tag, isValidName tag = true → w.files.isWhole (s.tagPath tag) = true →
    (s.root.join Store.tagsDir).Fits (markerName tag)

section
variable {s : Store} {r : Trail} {current : Path} {pins : List Pin} {fs fs' : FileSystem}
  {T : Set Trail}

theorem Recorded.within (h : Recorded s r pins fs) (hw : FileSystem.Within T fs fs')
    (hT : ∀ name, name :: Store.instancesDir :: r ∉ T) : Recorded s r pins fs' := by
  have hsame := fun name => hw.same _ (hT name)
  refine ⟨h.nodup, h.machine, h.tag, h.fits, fun p hp => ?_, fun p hp => ?_, fun name hn => ?_,
    fun name => ?_⟩
  · rw [hsame]
    exact h.disk p hp
  · rw [hsame]
    exact h.record p hp
  · rw [hsame] at hn
    exact h.only name hn
  · rw [hsame]
    exact h.free name

theorem Recorded.not_mem (h : Recorded s r pins fs) {name : String}
    (hn : fs.node? (diskName name :: Store.instancesDir :: r) = none) :
    ∀ p ∈ pins, p.machine ≠ name := by
  rintro p hp rfl
  obtain ⟨b, c, hf⟩ := h.disk p hp
  rw [hf] at hn
  cases hn

theorem machinesOn_eq_nil {tag : String} :
    machinesOn pins tag = [] ↔ ∀ p ∈ pins, p.tag ≠ tag := by
  rw [List.eq_nil_iff_forall_not_mem]
  constructor
  · intro h p hp htag
    exact h p.machine (mem_machinesOn.mpr ⟨p, hp, htag, rfl⟩)
  · intro h machine hm
    obtain ⟨p, hp, htag, -⟩ := mem_machinesOn.mp hm
    exact h p hp htag

theorem Recorded.ensureUnused_eq_ok (h : Recorded s r pins fs) (hs : s.StandsAt r fs) {tag : String} :
    s.ensureUnused fs tag = .ok () ↔ ∀ p ∈ pins, p.tag ≠ tag := by
  rw [Store.ensureUnused, h.instancesOf_eq hs, ← machinesOn_eq_nil]
  cases machinesOn pins tag with
  | nil => simp
  | cons m ms => simp

theorem Recorded.ensureUnused_eq_error (h : Recorded s r pins fs) (hs : s.StandsAt r fs)
    {tag : String} (hne : machinesOn pins tag ≠ []) :
    s.ensureUnused fs tag = .error (.tagInUse tag (machinesOn pins tag)) := by
  rw [Store.ensureUnused, h.instancesOf_eq hs]
  cases hm : machinesOn pins tag with
  | nil => exact absurd hm hne
  | cons m ms => rfl

theorem Store.instance_not_mem_buildTrails (tag : Option String) (name : String) :
    name :: instancesDir :: r ∉ buildTrails r tag := by
  rintro (⟨x, hx⟩ | hx)
  · exact absurd (List.cons.inj (List.cons.inj hx).2).1 (by decide)
  · exact not_mem_tagTrails (by decide) (by decide) _ hx

/-- changes that leave the files of a tag alone keep it -/
theorem Store.StandsAt.keepsTag (hs : s.StandsAt r fs) {tag : String} (hv : isValidName tag = true)
    (hw : FileSystem.Within T fs fs') (hT : ∀ name, name :: tagsDir :: r ∉ T) :
    FileSystem.KeepsDisk (s.tagPath tag) fs fs' :=
  .of_within hs.tags hv (hT _) (hT _) hw

theorem Store.tag_not_mem_lockTrails (r : Trail) (name : String) :
    name :: tagsDir :: r ∉ lockTrails r := not_mem_lockTrails (by decide) _

theorem Store.tag_not_mem_instanceTrails (r : Trail) (machine name : String) :
    name :: tagsDir :: r ∉ instanceTrails r machine ∪ lockTrails r := by
  rintro ((hx | hx) | hx)
  · exact absurd (List.cons.inj (List.cons.inj hx).2).1 (by decide)
  · exact absurd (List.cons.inj (List.cons.inj hx).2).1 (by decide)
  · exact tag_not_mem_lockTrails r name hx

theorem Store.tag_not_mem_keyTrails (r : Trail) (keys : List Identity) (name : String) :
    name :: tagsDir :: r ∉ keyTrails r keys := by
  rintro (⟨k, -, hx | hx⟩ | hx)
  · exact absurd (List.cons.inj (List.cons.inj hx).2).1 (by decide)
  · exact absurd (List.cons.inj (List.cons.inj hx).2).1 (by decide)
  · exact tag_not_mem_lockTrails r name hx

theorem Store.tag_not_mem_tagTrails {r : Trail} {tag : Option String} {name : String}
    (hne : tag ≠ some name) :
    diskName name :: tagsDir :: r ∉ tagTrails r tag ∧
      markerName name :: tagsDir :: r ∉ tagTrails r tag := by
  constructor
  · rintro (⟨x, rfl, hx | hx⟩ | hx)
    · exact hne (congrArg some (diskName_injective (List.cons.inj hx).1).symm)
    · exact diskName_ne_markerName _ _ (List.cons.inj hx).1
    · exact tag_not_mem_lockTrails r _ hx
  · rintro (⟨x, rfl, hx | hx⟩ | hx)
    · exact diskName_ne_markerName _ _ (List.cons.inj hx).1.symm
    · exact hne (congrArg some (markerName_injective (List.cons.inj hx).1).symm)
    · exact tag_not_mem_lockTrails r _ hx

end

/-- A tag is as it was, but for a lock, or no machine runs on it. -/
theorem Tagged.keeps_or_unused {σ : Type} {backend : Backend σ} {s : Store} {r : Trail} {l : Layer}
    {dir : Path} {d : Trail} {calls : List Call} {fs fs' : FileSystem}
    {res : Except BuildError Unit} {ms : List Moment}
    (h : Tagged backend s r l dir d calls fs res ms fs') (hlies : l.LiesIn dir d fs) :
    FileSystem.Within (Store.lockTrails r) fs fs' ∨
      (∃ fs₀, FileSystem.Within (Store.lockTrails r) fs fs₀ ∧
        s.ensureUnused fs₀ l.identity.name = .ok ()) ∧
        (fs'.isWhole l.location = true → dir.Fits (markerName l.identity.name)) := by
  have hnot : ∀ {b : Bool}, b = false → b = true → dir.Fits (markerName l.identity.name) := by
    rintro b rfl h
    cases h
  cases h with
  | refused _ _ hlocks => exact Or.inl hlocks
  | remade _ hlocks hunused hmade _ =>
    refine Or.inr ⟨⟨_, hlocks, hunused⟩, fun hwhole => ?_⟩
    cases hmade with
    | stuck hdir =>
      obtain ⟨⟨-, b, c, hfile⟩, -⟩ := (hlies.within hlocks).isWhole_iff.mp hwhole
      rw [hfile] at hdir
      cases hdir
    | refused _ _ hpart _ => exact hnot hpart hwhole
    | orphaned _ _ hpart _ => exact hnot hpart hwhole
    | failed _ hpart _ => exact hnot hpart hwhole
    | made _ hfits _ _ _ _ _ _ => exact hfits

namespace Pinned
variable {σ : Type} {backend : Backend σ} {s : Store} {r : Trail} {current : Path} {w w' : World σ}
  {pins : List Pin} {T : Set Trail}

/-- The table stays right where only tags change that no machine runs on. -/
theorem of_tags (h : Pinned s r current w pins) (hleaves : w.Leaves r w')
    (hw : FileSystem.Within T w.files w'.files)
    (hT : ∀ name, name :: Store.instancesDir :: r ∉ T)
    (htags : ∀ tag, isValidName tag = true →
      FileSystem.KeepsDisk (s.tagPath tag) w.files w'.files ∨ (∀ p ∈ pins, p.tag ≠ tag) ∧
        (w'.files.isWhole (s.tagPath tag) = true →
          (s.root.join Store.tagsDir).Fits (markerName tag))) :
    Pinned s r current w' pins := by
  have hkeeps : ∀ p ∈ pins, FileSystem.KeepsDisk (s.tagPath p.tag) w.files w'.files := by
    intro p hp
    rcases htags p.tag (h.recorded.tag p hp) with hkeep | ⟨hnone, -⟩
    · exact hkeep
    · exact absurd rfl (hnone p hp)
  refine ⟨h.stands.within hw, ?_, hleaves.undisturbed h.undisturbed, hleaves.clear h.clear,
    h.recorded.within hw hT, fun p hp => ?_, fun p hp => ?_, fun tag hv hwhole => ?_⟩
  · rw [← h.here, FileSystem.currentPath, FileSystem.currentPath, hw.current]
  · rw [(hkeeps p hp).isWhole_eq]
    exact h.whole p hp
  · rw [(hkeeps p hp).contents_eq]
    exact h.content p hp
  · rcases htags tag hv with hkeep | ⟨-, hfits⟩
    · rw [hkeep.isWhole_eq] at hwhole
      exact h.marked tag hv hwhole
    · exact hfits hwhole

/-- a build leaves the table right -/
theorem build (h : Pinned s r current w pins) (hb : backend.Confined) (hl : backend.LeavesFiles)
    (ha : s.root.isAbsolute = true) {config : BuildConfig} (ops : List Operation)
    (tag : Option String) (hroot : config.storeRoot.absolute? current = some s.root) :
    Pinned s r current ((DiskLayers.build backend config ops tag).runIn w).2 pins := by
  obtain ⟨ms, -, -, hleaves, ⟨-, hw, -⟩ | ⟨ms', -, hraised⟩⟩ :=
    @ends_build_standing s r σ backend config ops tag w hb hl h.undisturbed h.stands ha
      (h.here ▸ hroot)
  · rw [hw]
    exact h
  have hwithin := hraised.within.1
  refine h.of_tags hleaves hwithin (Store.instance_not_mem_buildTrails tag) fun t hv => ?_
  by_cases ht : tag = some t
  case neg =>
    -- another tag
    refine Or.inl (.of_within h.stands.tags hv ?_ ?_ hwithin)
    · rintro (⟨x, hx⟩ | hx)
      · exact absurd (List.cons.inj (List.cons.inj hx).2).1 (by decide)
      · exact (Store.tag_not_mem_tagTrails ht).1 hx
    · rintro (⟨x, hx⟩ | hx)
      · exact absurd (List.cons.inj (List.cons.inj hx).2).1 (by decide)
      · exact (Store.tag_not_mem_tagTrails ht).2 hx
  generalize ((DiskLayers.build backend config ops tag).runIn w).1 = res at hraised
  generalize ((DiskLayers.build backend config ops tag).runIn w).2.files = fs' at hraised
  cases hraised with
  | fallen hasc => exact Or.inl (h.stands.keepsTag hv hasc.within.1 (Store.tag_not_mem_keyTrails r _))
  | @ended _ ms₁ fs₁ key res₁ ms₂ _ _ hasc _ hended _ _ =>
    have hkeep := h.stands.keepsTag hv hasc.within.1 (Store.tag_not_mem_keyTrails r _)
    have hs₁ := h.stands.within hasc.within.1
    obtain ⟨l, hname, hpath, htagged⟩ := hended.some t ht
    have hlies : l.LiesIn (s.root.join Store.tagsDir) (Store.tagsDir :: r) fs₁ :=
      ⟨hname ▸ hv, by rw [hpath, hname]; rfl, hs₁.tags⟩
    rcases htagged.keeps_or_unused hlies with hlocks | ⟨⟨fs₀, hlocks, hunused⟩, hfits⟩
    · exact Or.inl (hkeep.trans (hs₁.keepsTag hv hlocks (Store.tag_not_mem_lockTrails r)))
    · have hrecorded : Recorded s r pins fs₀ :=
        (h.recorded.within hasc.within.1 fun name hmem =>
          Store.instance_not_mem_buildTrails tag name
            (Store.keyTrails_subset_buildTrails r tag _ hmem)).within hlocks
          fun name => Store.not_mem_lockTrails (by decide) _
      rw [hname, hrecorded.ensureUnused_eq_ok (hs₁.within hlocks)] at hunused
      rw [hpath, hname] at hfits
      exact Or.inr ⟨hunused, hfits⟩

/-- taking a tag away leaves the table right -/
theorem removeTag (h : Pinned s r current w pins) (ha : s.root.isAbsolute = true)
    (name command : String) (wait : Duration) :
    Pinned s r current ((s.removeTag name command wait : Act σ StoreError Unit).runIn w).2 pins := by
  obtain ⟨ms, -, -, hleaves, -, hres⟩ := Act.ends_removeTag (w := w) name command wait ha
    h.stands h.undisturbed h.clear (h.marked name)
  have hlocks : ∀ name, name :: Store.instancesDir :: r ∉ Store.lockTrails r :=
    fun name => Store.not_mem_lockTrails (by decide) _
  generalize ((s.removeTag name command wait : Act σ StoreError Unit).runIn w).1 = res at hres
  generalize hf : ((s.removeTag name command wait : Act σ StoreError Unit).runIn w).2.files = fs' at hres
  cases hres with
  | absent _ =>
    refine h.of_tags (T := ∅) hleaves ?_ (fun name hn => hn.elim) fun tag hv => Or.inl ?_
    · rw [hf]
      exact .refl _ _
    · rw [hf]
      exact .refl _ _
  | used hw _ =>
    rw [← hf] at hw
    exact h.of_tags hleaves hw hlocks fun tag hv =>
      Or.inl (h.stands.keepsTag hv hw (Store.tag_not_mem_lockTrails r))
  | @gone fs₀ _ hname hw₀ hunused hw hnot =>
    rw [(h.recorded.within hw₀ hlocks).ensureUnused_eq_ok (h.stands.within hw₀)] at hunused
    rw [← hf] at hw hnot
    refine h.of_tags hleaves hw (fun x => Store.not_mem_tagTrails (by decide) (by decide) x)
      fun tag hv => ?_
    by_cases ht : name = tag
    · refine Or.inr ⟨ht ▸ hunused, fun hwhole => ?_⟩
      rw [← ht, hnot] at hwhole
      cases hwhole
    · have hne : (some name : Option String) ≠ some tag := fun e => ht (Option.some.inj e)
      exact Or.inl (.of_within h.stands.tags hv (Store.tag_not_mem_tagTrails hne).1
        (Store.tag_not_mem_tagTrails hne).2 hw)

/-- changes among machines leave the tags alone -/
theorem of_instances (h : Pinned s r current w pins) {pins' : List Pin} {machine : String}
    (hleaves : w.Leaves r w')
    (hw : FileSystem.Within (Store.instanceTrails r machine ∪ Store.lockTrails r) w.files w'.files)
    (hrecorded : Recorded s r pins' w'.files)
    (hpins : ∀ p ∈ pins', p ∈ pins ∨ w.files.isWhole (s.tagPath p.tag) = true ∧
      w.files.contents (s.tagPath p.tag) = p.content) : Pinned s r current w' pins' := by
  have hkeeps : ∀ tag, isValidName tag = true →
      FileSystem.KeepsDisk (s.tagPath tag) w.files w'.files := fun tag hv =>
    h.stands.keepsTag hv hw (Store.tag_not_mem_instanceTrails r machine)
  refine ⟨h.stands.within hw, ?_, hleaves.undisturbed h.undisturbed, hleaves.clear h.clear,
    hrecorded, fun p hp => ?_, fun p hp => ?_, fun tag hv hwhole => ?_⟩
  · rw [← h.here, FileSystem.currentPath, FileSystem.currentPath, hw.current]
  · rw [(hkeeps p.tag (hrecorded.tag p hp)).isWhole_eq]
    rcases hpins p hp with hmem | ⟨hwhole, -⟩
    · exact h.whole p hmem
    · exact hwhole
  · rw [(hkeeps p.tag (hrecorded.tag p hp)).contents_eq]
    rcases hpins p hp with hmem | ⟨-, hcontent⟩
    · exact h.content p hmem
    · exact hcontent
  · rw [(hkeeps tag hv).isWhole_eq] at hwhole
    exact h.marked tag hv hwhole

end Pinned

namespace Recorded
variable {s : Store} {r : Trail} {pins : List Pin} {fs fs' : FileSystem} {machine : String}

theorem same_of_ne (hw : FileSystem.Within (Store.instanceTrails r machine ∪ Store.lockTrails r) fs fs')
    {name : String} (hd : name ≠ diskName machine) (hr : name ≠ recordName machine) :
    fs'.node? (name :: Store.instancesDir :: r) = fs.node? (name :: Store.instancesDir :: r) := by
  refine hw.same _ ?_
  rintro ((hx | hx) | hx)
  · exact hd (List.cons.inj hx).1
  · exact hr (List.cons.inj hx).1
  · exact Store.not_mem_lockTrails (by decide) _ hx

/-- the machines that are left, where one has gone with its record -/
theorem of_gone (h : Recorded s r pins fs)
    (hw : FileSystem.Within (Store.instanceTrails r machine ∪ Store.lockTrails r) fs fs')
    (hdisk : fs'.node? (diskName machine :: Store.instancesDir :: r) = none)
    (hrecord : fs'.node? (recordName machine :: Store.instancesDir :: r) = none) :
    Recorded s r (pins.filter fun p => p.machine ≠ machine) fs' := by
  have hmem : ∀ p ∈ pins.filter fun p => p.machine ≠ machine, p ∈ pins ∧ p.machine ≠ machine :=
    fun p hp => by simpa using List.mem_filter.mp hp
  have hsame : ∀ p ∈ pins.filter fun p => p.machine ≠ machine,
      fs'.node? (diskName p.machine :: Store.instancesDir :: r) =
          fs.node? (diskName p.machine :: Store.instancesDir :: r) ∧
        fs'.node? (recordName p.machine :: Store.instancesDir :: r) =
          fs.node? (recordName p.machine :: Store.instancesDir :: r) := by
    intro p hp
    obtain ⟨-, hne⟩ := hmem p hp
    exact ⟨same_of_ne hw (fun e => hne (diskName_injective e)) (diskName_ne_recordName _ _),
      same_of_ne hw (fun e => diskName_ne_recordName _ _ e.symm) fun e => hne (recordName_injective e)⟩
  refine ⟨h.nodup.sublist (List.filter_sublist.map _), fun p hp => h.machine p (hmem p hp).1,
    fun p hp => h.tag p (hmem p hp).1, fun p hp => h.fits p (hmem p hp).1, fun p hp => ?_,
    fun p hp => ?_, fun name hn => ?_, fun name hdir => ?_⟩
  · rw [(hsame p hp).1]
    exact h.disk p (hmem p hp).1
  · rw [(hsame p hp).2]
    exact h.record p (hmem p hp).1
  · have hd : name ≠ diskName machine := fun e => hn (e ▸ hdisk)
    have hr : name ≠ recordName machine := fun e => hn (e ▸ hrecord)
    rw [same_of_ne hw hd hr] at hn
    rcases h.only name hn with hstray | ⟨p, hp, he⟩
    · exact Or.inl hstray
    · refine Or.inr ⟨p, List.mem_filter.mpr ⟨hp, ?_⟩, he⟩
      rw [decide_eq_true_eq]
      rintro rfl
      exact hr he
  · have hd : name ≠ diskName machine := by
      rintro rfl
      rw [hdisk] at hdir
      cases hdir
    have hr : name ≠ recordName machine := by
      rintro rfl
      rw [hrecord] at hdir
      cases hdir
    rw [same_of_ne hw hd hr] at hdir
    exact h.free name hdir

theorem free_instance (h : Recorded s r pins fs) {machine : String} :
    ∀ t ∈ Store.instanceTrails r machine, fs.node? t ≠ some .dir := by
  rintro t (rfl | rfl) <;> exact h.free _

/-- the same machines, where a disk has appeared of which there is no record -/
theorem of_undone (h : Recorded s r pins fs) (hm : isValidName machine = true)
    (hnone : fs.node? (diskName machine :: Store.instancesDir :: r) = none)
    (hw : FileSystem.Within (Store.instanceTrails r machine ∪ Store.lockTrails r) fs fs')
    (hdisk : fs'.node? (diskName machine :: Store.instancesDir :: r) ≠ some .dir)
    (hrecord : fs'.node? (recordName machine :: Store.instancesDir :: r) = none ∨
      fs'.node? (recordName machine :: Store.instancesDir :: r) =
        fs.node? (recordName machine :: Store.instancesDir :: r)) :
    Recorded s r pins fs' := by
  have hother := h.not_mem hnone
  -- there was no record before
  have hbefore : fs.node? (recordName machine :: Store.instancesDir :: r) = none := by
    by_contra hne
    rcases h.only _ hne with ⟨m, -, he⟩ | ⟨p, hp, he⟩
    · exact diskName_ne_recordName _ _ he.symm
    · exact hother p hp (recordName_injective he).symm
  have hafter : fs'.node? (recordName machine :: Store.instancesDir :: r) = none :=
    hrecord.elim id fun he => he.trans hbefore
  refine ⟨h.nodup, h.machine, h.tag, h.fits, fun p hp => ?_, fun p hp => ?_, fun name hn => ?_,
    fun name hdir => ?_⟩
  · rw [same_of_ne hw (fun e => hother p hp (diskName_injective e)) (diskName_ne_recordName _ _)]
    exact h.disk p hp
  · rw [same_of_ne hw (fun e => diskName_ne_recordName _ _ e.symm)
      fun e => hother p hp (recordName_injective e)]
    exact h.record p hp
  · by_cases hd : name = diskName machine
    · exact Or.inl ⟨machine, hm, hd⟩
    · rw [same_of_ne hw hd fun e => hn (e ▸ hafter)] at hn
      exact h.only name hn
  · by_cases hd : name = diskName machine
    · exact hdisk (hd ▸ hdir)
    · have hr : name ≠ recordName machine := by
        rintro rfl
        rw [hafter] at hdir
        cases hdir
      rw [same_of_ne hw hd hr] at hdir
      exact h.free name hdir

/-- one more machine -/
theorem of_launched (h : Recorded s r pins fs) {tag : String} {content : Option Content}
    (hm : isValidName machine = true) (ht : isValidName tag = true)
    (hnone : fs.node? (diskName machine :: Store.instancesDir :: r) = none)
    (hw : FileSystem.Within (Store.instanceTrails r machine ∪ Store.lockTrails r) fs fs')
    (hf : (s.root.join Store.instancesDir).Fits (diskName machine))
    (hdisk : ∃ b c, fs'.node? (diskName machine :: Store.instancesDir :: r) = some (.file b c))
    (hrecord : ∃ b, fs'.node? (recordName machine :: Store.instancesDir :: r) =
      some (.file b (.ofText (tag ++ "\n")))) :
    Recorded s r (⟨machine, tag, content⟩ :: pins) fs' := by
  have hother := h.not_mem hnone
  refine ⟨?_, ?_, ?_, ?_, ?_, ?_, fun name hn => ?_, fun name hdir => ?_⟩
  · rw [List.map_cons, List.nodup_cons]
    refine ⟨fun hmem => ?_, h.nodup⟩
    obtain ⟨p, hp, he⟩ := List.mem_map.mp hmem
    exact hother p hp he
  · exact List.forall_mem_cons.mpr ⟨hm, h.machine⟩
  · exact List.forall_mem_cons.mpr ⟨ht, h.tag⟩
  · exact List.forall_mem_cons.mpr ⟨hf, h.fits⟩
  · refine List.forall_mem_cons.mpr ⟨hdisk, fun p hp => ?_⟩
    rw [same_of_ne hw (fun e => hother p hp (diskName_injective e)) (diskName_ne_recordName _ _)]
    exact h.disk p hp
  · refine List.forall_mem_cons.mpr ⟨hrecord, fun p hp => ?_⟩
    rw [same_of_ne hw (fun e => diskName_ne_recordName _ _ e.symm)
      fun e => hother p hp (recordName_injective e)]
    exact h.record p hp
  · by_cases hd : name = diskName machine
    · exact Or.inl ⟨machine, hm, hd⟩
    by_cases hr : name = recordName machine
    · exact Or.inr ⟨_, List.mem_cons_self, hr⟩
    rw [same_of_ne hw hd hr] at hn
    refine (h.only name hn).imp_right ?_
    rintro ⟨p, hp, he⟩
    exact ⟨p, List.mem_cons_of_mem _ hp, he⟩
  · obtain ⟨b, c, hd⟩ := hdisk
    obtain ⟨b', hr⟩ := hrecord
    by_cases hnd : name = diskName machine
    · rw [hnd, hd] at hdir
      cases hdir
    by_cases hnr : name = recordName machine
    · rw [hnr, hr] at hdir
      cases hdir
    rw [same_of_ne hw hnd hnr] at hdir
    exact h.free name hdir

/-- the same machines, where one has written to its disk -/
theorem of_rewritten (h : Recorded s r pins fs)
    (hw : fs.Rewritten (diskName machine :: Store.instancesDir :: r) fs') : Recorded s r pins fs' := by
  refine ⟨h.nodup, h.machine, h.tag, h.fits, fun p hp => ?_, fun p hp => ?_,
    fun name hn => h.only name (hw.ne_none hn), fun name => hw.ne_dir (h.free name)⟩
  · by_cases he : p.machine = machine
    · rw [he]
      exact hw.file (he ▸ h.disk p hp)
    · rw [hw.within.same _ fun e => he (diskName_injective (List.cons.inj e).1)]
      exact h.disk p hp
  · rw [hw.within.same _ fun e => diskName_ne_recordName _ _ (List.cons.inj e).1.symm]
    exact h.record p hp

end Recorded

namespace Pinned
variable {σ : Type} {backend : Backend σ} {s : Store} {r : Trail} {current : Path} {w w' : World σ}
  {pins : List Pin}

/-- a launch puts one more machine into the table, or none -/
theorem launch (h : Pinned s r current w pins) (hb : backend.Confined) (hl : backend.LeavesFiles)
    (hsp : backend.Sparing s) (tag : String) (m : MachineSpec) :
    Pinned s r current ((Request.launch tag m).perform backend s (w, pins)).1
      ((Request.launch tag m).perform backend s (w, pins)).2 := by
  obtain ⟨ms, -, -, hleaves, -, hres⟩ := Act.ends_launch (w := w) tag m hb hl hsp
    h.stands h.undisturbed h.recorded.free_instance
  have hsub : Store.lockTrails r ⊆ Store.instanceTrails r m.name ∪ Store.lockTrails r :=
    fun _ ht => Or.inr ht
  rw [Request.perform]
  rcases hrun : (DiskLayers.launch backend s tag m).runIn w with ⟨res, w'⟩
  rw [hrun] at hleaves hres
  dsimp only at hleaves hres
  generalize hf : w'.files = fs' at hres
  cases hres with
  | refused _ hw =>
    rw [← hf] at hw
    exact h.of_instances hleaves (hw.mono hsub)
      (h.recorded.within hw fun name => Store.not_mem_lockTrails (by decide) _) fun p hp => Or.inl hp
  | undone hm hnone hw hdisk hrecord _ =>
    rw [← hf] at hw hdisk hrecord
    exact h.of_instances hleaves hw (h.recorded.of_undone hm hnone hw hdisk hrecord)
      fun p hp => Or.inl hp
  | running hm ht hwhole hnone hw hfits hdisk hrecord _ =>
    rw [← hf] at hw hdisk hrecord
    refine h.of_instances hleaves hw (h.recorded.of_launched hm ht hnone hw hfits hdisk hrecord)
      fun p hp => ?_
    rcases List.mem_cons.mp hp with rfl | hp
    · exact Or.inr ⟨hwhole, rfl⟩
    · exact Or.inl hp

/-- a machine that is destroyed leaves the table -/
theorem destroy (h : Pinned s r current w pins) (hsp : backend.Sparing s) (name : String) :
    Pinned s r current ((Request.destroy name).perform backend s (w, pins)).1
      ((Request.destroy name).perform backend s (w, pins)).2 := by
  obtain ⟨ms, -, -, hleaves, -, hres⟩ := Act.ends_destroy (w := w) name hsp h.stands
    h.recorded.free_instance
  have hsub : Store.instanceTrails r name ⊆ Store.instanceTrails r name ∪ Store.lockTrails r :=
    fun _ ht => Or.inl ht
  rw [Request.perform]
  rcases hrun : (DiskLayers.destroy backend s name).runIn w with ⟨res, w'⟩
  rw [hrun] at hleaves hres
  dsimp only at hleaves hres
  generalize hf : w'.files = fs' at hres
  cases hres with
  | refused hw =>
    rw [← hf] at hw
    have hdisk : {diskName name :: Store.instancesDir :: r} ⊆
        Store.instanceTrails r name ∪ Store.lockTrails r := fun _ ht => Or.inl (Or.inl ht)
    exact h.of_instances hleaves (hw.within.mono hdisk) (h.recorded.of_rewritten hw)
      fun p hp => Or.inl hp
  | gone _ hw hdisk hrecord =>
    rw [← hf] at hw hdisk hrecord
    exact h.of_instances hleaves (hw.mono hsub) (h.recorded.of_gone (hw.mono hsub) hdisk hrecord)
      fun p hp => Or.inl (List.mem_filter.mp hp).1

/-- Whatever is asked of the store, it goes along with the table. -/
theorem perform (h : Pinned s r current w pins) (hb : backend.Confined) (hl : backend.LeavesFiles)
    (hsp : backend.Sparing s) (ha : s.root.isAbsolute = true) {q : Request}
    (hq : q.Reaches s current) :
    Pinned s r current (q.perform backend s (w, pins)).1 (q.perform backend s (w, pins)).2 := by
  cases q with
  | build config ops tag => exact h.build hb hl ha ops tag hq
  | removeTag name command wait => exact h.removeTag ha name command wait
  | launch tag m => exact h.launch hb hl hsp tag m
  | destroy name => exact h.destroy hsp name

/-- The table stays right whatever is asked.  By induction on the requests. -/
theorem performAll (hb : backend.Confined) (hl : backend.LeavesFiles) (hsp : backend.Sparing s)
    (ha : s.root.isAbsolute = true) {requests : List Request}
    (hr : ∀ q ∈ requests, q.Reaches s current) {x : World σ × List Pin}
    (h : Pinned s r current x.1 x.2) :
    Pinned s r current (DiskLayers.performAll backend s requests x).1
      (DiskLayers.performAll backend s requests x).2 := by
  induction requests generalizing x with
  | nil => exact h
  | cons q requests ih =>
    exact ih (fun q' hq' => hr q' (List.mem_cons_of_mem _ hq'))
      (h.perform hb hl hsp ha (hr q List.mem_cons_self))

/-- in an empty store no machine runs -/
theorem of_isEmpty (hs : s.StandsAt r w.files) (hempty : s.IsEmpty w.files)
    (hwf : w.files.WellFormed) (hu : w.Undisturbed)
    (hfree : ∀ ref ∈ w.locked, ref.trail ∉ Store.lockTrails r) :
    Pinned s r w.files.currentPath w [] := by
  have hnone : ∀ dir ∈ Store.directories, ∀ name, w.files.node? (name :: dir :: r) = none :=
    fun dir hd name => hempty.node? hs hd name
  have hinstances : Store.instancesDir ∈ Store.directories := by simp [Store.directories]
  have htags : Store.tagsDir ∈ Store.directories := by simp [Store.directories]
  have hlocks : Store.locksDir ∈ Store.directories := by simp [Store.directories]
  refine ⟨hs, rfl, hu, ⟨hfree, ⟨fun kind b c => ?_, fun kind name hdir => ?_⟩⟩, ?_,
    fun p hp => absurd hp List.not_mem_nil, fun p hp => absurd hp List.not_mem_nil,
    fun tag hv hwhole => ?_⟩
  · rw [hnone _ hlocks]
    simp
  · -- what stands in a directory of locks needs that directory
    have habove := hwf name (Store.lockDir kind :: Store.locksDir :: r) (by rw [hdir]; simp)
    rw [hnone _ hlocks] at habove
    cases habove
  · refine ⟨List.nodup_nil, ?_, ?_, ?_, ?_, ?_, fun name hn => absurd (hnone _ hinstances name) hn,
      fun name => ?_⟩
    case refine_6 =>
      rw [hnone _ hinstances]
      simp
    all_goals exact fun p hp => absurd hp List.not_mem_nil
  · obtain ⟨⟨-, b, c, hnode⟩, -⟩ := (FileSystem.isWhole_join hs.tags hv).mp hwhole
    rw [hnone _ htags] at hnode
    cases hnode

end Pinned

end DiskLayers
