import DiskLayers.Cli.Run
import DiskLayers.Proofs.Builders
import DiskLayers.Proofs.Happening

/-!
# Footprints

* `Store.keyFiles`       disk, marker and lock of a key in a directory
* `Store.machineFiles`   disk and record of a machine
* `Store.places`         the directories of a store that files stand in
* `Store.inside`         all files directly in these directories
* `Store.buildFiles`     the files of all keys, which builds are about
* `Store.made`           the directories that are made
* `Store.ways`           these, and those above them
* `Act.Quiet`            an operation that leaves the whole world as it is

Nothing is assumed of the files, of names or of the others: an operation alters the files of the key or
the machine that it is about, all of which stand directly in the directories of the store, and makes
directories on the way to the lock (`operations_alter_own_files`).
-/

namespace DiskLayers
open DiskLayers.Path

/-! ## the files of a key and of a machine -/

namespace Store

def keyFiles (s : Store) (dir name : String) : Set Path :=
  {file | file = (s.root.join dir).join (diskName name) ∨
    file = (s.root.join dir).join (markerName name) ∨
    file = ((s.root.join locksDir).join dir).join (lockName name)}

def machineFiles (s : Store) (machine : String) : Set Path :=
  {file | file = (s.root.join instancesDir).join (diskName machine) ∨
    file = (s.root.join instancesDir).join (recordName machine)}

def places (s : Store) : List Path :=
  [s.root.join layersDir, s.root.join tagsDir, s.root.join instancesDir,
   (s.root.join locksDir).join layersDir, (s.root.join locksDir).join tagsDir]

/-- what stands directly in one of these directories under a name of its own -/
def inside (s : Store) : Set Path :=
  {file | ∃ dir ∈ s.places, ∃ name : String, IsPlain name.toList ∧ file = dir.join name}

def buildFiles (s : Store) : Set Path :=
  {file | ∃ (kind : LayerKind) (name : String),
    isValidName name = true ∧ file ∈ s.keyFiles (lockDir kind) name}

/-- the directory of the locks for the keys in a directory -/
def lockPlace (s : Store) (dir : String) : Path := (s.root.join locksDir).join dir

def made (s : Store) : Set Path := {dir | dir ∈ s.places ∨ dir = s.root.join locksDir}

/-- the directory of the locks for the keys in a directory, and those above it -/
def lockWays (s : Store) (dir : String) : Set Path := above {s.lockPlace dir}

/-- the directories of a store, and those above them -/
def ways (s : Store) : Set Path := above s.made

/-- a file inside a store stands directly below one of its directories, wherever that leads -/
theorem trail_of_mem_inside {s : Store} {file : Path} (h : file ∈ s.inside) :
    ∃ dir ∈ s.places, ∃ name : String,
      IsPlain name.toList ∧ file = dir.join name ∧ file.trail = name :: dir.trail := by
  obtain ⟨dir, hdir, name, hn, rfl⟩ := h
  exact ⟨dir, hdir, name, hn, rfl, trail_join dir hn⟩

theorem lockDir_cases (kind : LayerKind) : lockDir kind = layersDir ∨ lockDir kind = tagsDir := by
  cases kind <;> simp [lockDir]

variable {s : Store} {name : String}

theorem keyFiles_subset (h : isValidName name = true) (kind : LayerKind) :
    s.keyFiles (lockDir kind) name ⊆ s.inside := by
  rintro file (rfl | rfl | rfl)
  · refine ⟨_, ?_, _, isPlain_diskName h, rfl⟩
    rcases lockDir_cases kind with hk | hk <;> simp [places, hk]
  · refine ⟨_, ?_, _, isPlain_markerName h, rfl⟩
    rcases lockDir_cases kind with hk | hk <;> simp [places, hk]
  · refine ⟨_, ?_, _, isPlain_lockFile h, rfl⟩
    rcases lockDir_cases kind with hk | hk <;> simp [places, hk]

theorem buildFiles_subset : s.buildFiles ⊆ s.inside :=
  fun _ ⟨kind, _, hv, hfile⟩ => keyFiles_subset hv kind hfile

theorem machineFiles_subset (h : isValidName name = true) : s.machineFiles name ⊆ s.inside := by
  rintro file (rfl | rfl)
  · exact ⟨_, by simp [places], _, isPlain_diskName h, rfl⟩
  · exact ⟨_, by simp [places], _, isPlain_recordName h, rfl⟩

theorem lockPath_mem_keyFiles (s : Store) (kind : LayerKind) (key : Identity) :
    s.lockPath kind key ∈ s.keyFiles (lockDir kind) key.name := Or.inr (Or.inr rfl)

theorem join_mem_made {dir : String} (h : dir ∈ directories) : s.root.join dir ∈ s.made := by
  simp only [directories, List.mem_cons, List.not_mem_nil, or_false] at h
  rcases h with rfl | rfl | rfl | rfl
  · exact Or.inl (by simp [places])
  · exact Or.inl (by simp [places])
  · exact Or.inl (by simp [places])
  · exact Or.inr rfl

theorem lockPlace_subset (kind : LayerKind) : {s.lockPlace (lockDir kind)} ⊆ s.made := by
  rintro dir rfl
  refine Or.inl ?_
  rcases lockDir_cases kind with hk | hk <;> simp [places, lockPlace, hk]

section
variable (ha : s.root.isAbsolute = true)
include ha

theorem isAbsolute_of_mem_places {dir : Path} (h : dir ∈ s.places) : dir.isAbsolute = true := by
  have hplain : ∀ dir ∈ directories, (s.root.join dir).isAbsolute = true := fun dir hd =>
    isAbsolute_join ha (isPlain_of_mem_directories hd)
  simp only [places, List.mem_cons, List.not_mem_nil, or_false] at h
  rcases h with rfl | rfl | rfl | rfl | rfl
  · exact hplain _ (by simp [directories])
  · exact hplain _ (by simp [directories])
  · exact hplain _ (by simp [directories])
  · exact isAbsolute_join (hplain locksDir (by simp [directories]))
      (isPlain_of_mem_directories (by simp [directories]))
  · exact isAbsolute_join (hplain locksDir (by simp [directories]))
      (isPlain_of_mem_directories (by simp [directories]))

theorem isAbsolute_of_mem_inside {file : Path} (h : file ∈ s.inside) : file.isAbsolute = true := by
  obtain ⟨dir, hdir, name, hn, rfl⟩ := h
  exact isAbsolute_join (isAbsolute_of_mem_places ha hdir) hn

end

end Store

/-- disk, marker and lock of a layer -/
def Layer.filesIn (l : Layer) (s : Store) : Set Path :=
  s.keyFiles (Store.lockDir l.kind) l.identity.name

/-- the directory of the lock of a layer -/
def Layer.lockPlaceIn (l : Layer) (s : Store) : Path := s.lockPlace (Store.lockDir l.kind)

theorem Act.proceeds_lock {σ : Type} {backend : Backend σ} {disk : Call → Option Path} {s : Store}
    {l : Layer} {files : Set Path} (ha : s.root.isAbsolute = true)
    (hv : isValidName l.identity.name = true) (hf : s.lockPath l.kind l.identity ∈ files)
    (command : String) (wait : Duration) :
    (s.acquire l command wait : Act σ StoreError Lock).Proceeds backend disk files
      {l.lockPlaceIn s} := by
  have hin := Store.keyFiles_subset hv l.kind (s.lockPath_mem_keyFiles l.kind l.identity)
  refine (proceeds_acquire _ _ _ (Store.isAbsolute_of_mem_inside ha hin) hf fun dir hdir => ?_).mapError
  rw [s.parent?_lockPath l.kind hv] at hdir
  cases hdir
  exact rfl

/-! ## what is done to the disk of a layer -/

namespace Layer.BelongsTo
variable {σ : Type} {s : Store} {l : Layer} (h : l.BelongsTo s) {backend : Backend σ} {dirs : Set Path}
include h

theorem location_mem : l.location ∈ l.filesIn s := Or.inl h.location

theorem marker_mem : l.marker ∈ l.filesIn s := by
  rw [Layer.marker, h.location, s.markerOf_diskOf l.kind h.valid]
  exact Or.inr (Or.inl rfl)

theorem proceeds_removeDisk : (removePath l.location : Act σ StoreError Unit).Proceeds backend
    Call.target? (l.filesIn s) dirs := (Act.proceeds_removeFile h.location_mem).mapError

theorem proceeds_unmark : (l.unmark : Act σ StoreError Unit).Proceeds backend Call.target?
    (l.filesIn s) dirs := (Act.proceeds_removeFile h.marker_mem).mapError

theorem proceeds_mark : (l.mark : Act σ StoreError Unit).Proceeds backend Call.target?
    (l.filesIn s) dirs := (Act.proceeds_writeFile _ h.marker_mem).mapError

theorem proceeds_discard : (l.discard : Act σ StoreError Unit).Proceeds backend Call.target?
    (l.filesIn s) dirs := by
  refine Act.proceeds_inspect_bind fun present => ?_
  split
  · exact h.proceeds_removeDisk.bind fun _ => h.proceeds_unmark
  · exact h.proceeds_unmark

theorem proceeds_call {c : Call} (hc : c.target? = some l.location) :
    (Act.call backend c).Proceeds backend Call.target? (l.filesIn s) dirs :=
  Act.proceeds_call hc h.location_mem

theorem proceeds_snapshotOf (parent : Layer) :
    (l.snapshotOf backend parent).Proceeds backend Call.target? (l.filesIn s) dirs := by
  have hsnapshot : ((Act.call backend (.snapshot parent.location l.location)).mapError
      StoreError.backend).Proceeds backend Call.target? (l.filesIn s) dirs :=
    (h.proceeds_call rfl).mapError
  refine Act.proceeds_inspect_bind fun found => ?_
  dsimp only
  split
  · exact Act.proceeds_throw_bind _ _
  refine Act.proceeds_inspect_bind fun size => ?_
  split
  · exact Act.proceeds_throw_bind _ _
  refine Act.proceeds_inspect_bind fun present => ?_
  split
  · exact h.proceeds_removeDisk.bind fun _ => hsnapshot
  · exact hsnapshot

theorem proceeds_execute (commands : List GuestCommand) :
    (l.execute backend commands).Proceeds backend Call.target? (l.filesIn s) dirs := by
  induction commands with
  | nil => exact Act.proceeds_pure ()
  | cons c cs ih => exact (h.proceeds_call rfl).mapError.bind fun _ => ih

theorem proceeds_apply (op : Operation) :
    (l.apply backend op).Proceeds backend Call.target? (l.filesIn s) dirs := by
  cases op with
  | base reference => exact (h.proceeds_call rfl).mapError
  | _ => exact h.proceeds_execute _

theorem proceeds_makeDisk (parent : Option Layer) (op : Operation) :
    (makeDisk backend l parent op).Proceeds backend Call.target? (l.filesIn s) dirs := by
  have hend : ((l.apply backend op).mapError (BuildError.ofApply l) >>= fun _ =>
      l.unmark.mapError (.ofStore l)).Proceeds backend Call.target? (l.filesIn s) dirs :=
    (h.proceeds_apply op).mapError.bind fun _ => h.proceeds_unmark.mapError
  refine h.proceeds_discard.mapError.bind fun _ => h.proceeds_mark.mapError.bind fun _ => ?_
  cases parent with
  | none => exact hend
  | some p => exact (h.proceeds_snapshotOf p).mapError.bind fun _ => hend

variable (ha : s.root.isAbsolute = true)
include ha

theorem proceeds_realize (config : BuildConfig) (parent : Option Layer) (op : Operation) :
    (realize backend s config l parent op).Proceeds backend Call.target? (l.filesIn s)
      {l.lockPlaceIn s} := by
  rw [realize]
  refine Act.proceeds_inspect_bind fun found => ?_
  split
  · exact Act.proceeds_pure _
  refine Act.Proceeds.during
    (Act.proceeds_lock ha h.valid (s.lockPath_mem_keyFiles _ _) _ _).mapError ?_
  refine Act.proceeds_inspect_bind fun found' => ?_
  split
  · exact Act.proceeds_pure _
  · exact (h.proceeds_makeDisk parent op).bind fun _ => Act.proceeds_pure _

theorem proceeds_makeTag (config : BuildConfig) (terminal : Layer) :
    (makeTag backend s config l terminal).Proceeds backend Call.target? (l.filesIn s)
      {l.lockPlaceIn s} := by
  rw [makeTag]
  refine Act.Proceeds.during
    (Act.proceeds_lock ha h.valid (s.lockPath_mem_keyFiles _ _) _ _).mapError (Act.Proceeds.mapError ?_)
  exact (Act.proceeds_look fun fs => s.ensureUnused fs l.identity.name).bind fun _ =>
    h.proceeds_discard.bind fun _ => h.proceeds_mark.bind fun _ =>
      (h.proceeds_snapshotOf terminal).bind fun _ => h.proceeds_unmark

end Layer.BelongsTo

/-! ## steps of builds -/

theorem Context.lockDir_of_extend {s : Store} {c c' : Context} {op : Operation} {goal : Goal}
    (h : c.extend s op = .ok (goal, c')) : Store.lockDir goal.layer.kind = Store.layersDir := by
  unfold extend at h
  split at h
  · cases op with
    | base reference =>
      cases hb : Identity.base? reference with
      | none =>
        simp only [hb] at h
        cases h
      | some key =>
        simp only [hb] at h
        cases h
        rfl
    | _ => cases h
  · split at h
    · cases h
    · cases h
      rfl

/-- A step of a build all of whose moments are about some files and directories, from every context and
every world. -/
def Folding.Proceeds (backend : Backend σ) (files dirs : Set Path) (step : Folding σ α) : Prop :=
  ∀ c (w : World σ), w.Proceeds backend Call.target? files dirs (step.runIn c w).2

theorem Folding.Proceeds.bind {backend : Backend σ} {files dirs : Set Path} {step : Folding σ β}
    {f : β → Folding σ α} (h : step.Proceeds backend files dirs)
    (hf : ∀ b, (f b).Proceeds backend files dirs) : (step >>= f).Proceeds backend files dirs := by
  intro c w
  have hw := h c w
  rw [runIn_bind]
  rcases hrun : step.runIn c w with ⟨⟨res, c'⟩, w'⟩
  rw [hrun] at hw
  cases res with
  | error e => exact hw
  | ok b => exact hw.trans (hf b c' w')

section
variable {σ : Type} {s : Store} (ha : s.root.isAbsolute = true) (backend : Backend σ)
  (config : BuildConfig)
include ha

theorem applyOne_proceeds {op : Operation} {c c' : Context} {goal : Context.Goal}
    (h : c.extend s op = .ok (goal, c')) (w : World σ) :
    w.Proceeds backend Call.target?
      (s.keyFiles Store.layersDir goal.layer.identity.name ∩ s.buildFiles)
      {s.lockPlace Store.layersDir} ((applyOne backend s config op).runIn c w).2 := by
  have hlayer := Context.extend_belongsTo h
  have hw : w.Proceeds backend Call.target? (goal.layer.filesIn s) {goal.layer.lockPlaceIn s} _ :=
    hlayer.proceeds_realize ha config goal.parent op w
  rw [applyOne_runIn_of_extend backend config h]
  rw [Layer.filesIn, Layer.lockPlaceIn, Context.lockDir_of_extend h] at hw
  refine hw.mono (Set.subset_inter subset_rfl fun file hfile => ?_) subset_rfl
  rw [← Context.lockDir_of_extend h] at hfile
  exact ⟨_, _, hlayer.valid, hfile⟩

theorem tagAs_proceeds (name : String) (c : Context) (w : World σ) :
    w.Proceeds backend Call.target? (s.keyFiles Store.tagsDir name ∩ s.buildFiles)
      {s.lockPlace Store.tagsDir} ((tagAs backend s config name).runIn c w).2 := by
  rcases tagAs_runIn_cases backend config (s := s) (c := c) name with
    ⟨cause, hstill⟩ | ⟨hv, id, terminal, -, hrun⟩
  · rw [hstill w]
    exact .refl _ _ _ _ w
  · have hlayer : ({ s.tagNamed name with parent := some id } : Layer).BelongsTo s := ⟨hv, rfl⟩
    rw [hrun w]
    dsimp only
    exact (hlayer.proceeds_makeTag ha config terminal w).mono
      (Set.subset_inter subset_rfl fun _ hfile => ⟨.tag, name, hv, hfile⟩) subset_rfl

/-- By induction on the operations. -/
theorem applyAll_proceeds (ops : List Operation) :
    (applyAll backend s config ops).Proceeds backend s.buildFiles s.made := by
  induction ops with
  | nil => exact fun c w => .refl _ _ _ _ w
  | cons op ops ih =>
    refine Folding.Proceeds.bind (fun c w => ?_) fun _ => ih
    cases hext : c.extend s op with
    | error e =>
      rw [applyOne_runIn, hext]
      exact .refl _ _ _ _ w
    | ok found =>
      exact (applyOne_proceeds ha backend config hext w).mono Set.inter_subset_right
        (Store.lockPlace_subset .derived)

theorem buildIn_proceeds (ops : List Operation) (tag : Option String) :
    (buildIn backend s config ops tag).Proceeds backend s.buildFiles s.made := by
  refine (applyAll_proceeds ha backend config ops).bind fun _ => ?_
  cases tag with
  | none => exact fun c w => .refl _ _ _ _ w
  | some name =>
    refine Folding.Proceeds.bind (fun c w => ?_) fun _ c w => .refl _ _ _ _ w
    exact (tagAs_proceeds ha backend config name c w).mono Set.inter_subset_right
      (Store.lockPlace_subset .tag)

end

/-! ## whole operations -/

namespace Store
variable {σ : Type} {s : Store} {w : World σ}

theorem openReadOnly_eq_ok {fs : FileSystem} {root : Path} (h : openReadOnly fs root = .ok s) :
    root.absolute? fs.currentPath = some s.root ∧ s.root.isAbsolute = true := by
  rw [openReadOnly] at h
  cases hr : root.absolute? fs.currentPath with
  | none =>
    rw [hr] at h
    cases h
  | some whole =>
    rw [hr] at h
    cases h
    refine ⟨rfl, isAbsolute_absolute? ?_ hr⟩
    rw [isAbsolute, chars, FileSystem.currentPath, FileSystem.pathOf, String.toList_append]
    rfl

/-- opening a store makes its directories -/
theorem open_proceeds {root : Path} (h : openReadOnly w.files root = .ok s) (backend : Backend σ)
    (files : Set Path) : w.Proceeds backend Call.target? files s.made
      ((Store.open root : Act σ StoreError Store).runIn w).2 := by
  obtain ⟨hwhole, ha⟩ := openReadOnly_eq_ok h
  have hmake : ∀ dir ∈ directories,
      (makeDirectories (s.root.join dir) : Act σ StoreError Unit).Proceeds backend Call.target? files
        s.made := fun dir hd =>
    Act.proceeds_makeDirectories (isAbsolute_join ha (isPlain_of_mem_directories hd))
      (join_mem_made hd)
  have hall : (do
      makeDirectories (s.root.join layersDir)
      makeDirectories (s.root.join tagsDir)
      makeDirectories (s.root.join instancesDir)
      makeDirectories (s.root.join locksDir)
      return ⟨s.root⟩ : Act σ StoreError Store).Proceeds backend Call.target? files s.made :=
    (hmake _ (by simp [directories])).bind fun _ => (hmake _ (by simp [directories])).bind fun _ =>
      (hmake _ (by simp [directories])).bind fun _ => (hmake _ (by simp [directories])).bind fun _ =>
        Act.proceeds_pure _
  have hrun := hall w
  rw [Store.open, Act.runIn_bind, Act.runIn_inspect]
  dsimp only
  rw [hwhole]
  exact hrun

variable (ha : s.root.isAbsolute = true) (backend : Backend σ)
include ha

/-- taking a tag away is about its files -/
theorem removeTag_proceeds (name command : String) (wait : Duration) (w : World σ) :
    w.Proceeds backend Call.target? (s.keyFiles tagsDir name ∩ s.inside) {s.lockPlace tagsDir}
      ((s.removeTag name command wait : Act σ StoreError Unit).runIn w).2 := by
  rw [removeTag, Act.runIn_bind, Act.runIn_ofFunction, tagLayer]
  cases hv : isValidName name with
  | false => exact .refl _ _ _ _ w
  | true =>
    have hlayer : (s.tagNamed name).BelongsTo s := ⟨hv, rfl⟩
    have hact : (Lock.during (s.acquire (s.tagNamed name) command wait) do
        s.refuseIfUsed name
        (s.tagNamed name).discard : Act σ StoreError Unit).Proceeds backend Call.target?
          ((s.tagNamed name).filesIn s) {(s.tagNamed name).lockPlaceIn s} :=
      (Act.proceeds_lock ha hlayer.valid (s.lockPath_mem_keyFiles _ _) command wait).during
        ((Act.proceeds_look fun fs => s.ensureUnused fs name).bind fun _ => hlayer.proceeds_discard)
    rw [if_pos rfl]
    dsimp only
    by_cases hwhole : (s.tagNamed name).isComplete w.files = true
    · rw [if_pos hwhole]
      exact (hact w).mono (Set.subset_inter subset_rfl (keyFiles_subset hv .tag)) subset_rfl
    · rw [if_neg hwhole]
      exact .refl _ _ _ _ w

omit ha in
theorem removeInstance_proceeds {disk : Call → Option Path} {machine : String} {files dirs : Set Path}
    (hf : s.machineFiles machine ⊆ files) :
    (s.removeInstance machine : Act σ StoreError Unit).Proceeds backend disk files dirs :=
  (Act.proceeds_removeFile (hf (Or.inl rfl))).mapError.bind fun _ =>
    (Act.proceeds_removeFile (hf (Or.inr rfl))).mapError

omit ha in
theorem launchLocked_proceeds (tag : Layer) {m : MachineSpec} {files dirs : Set Path}
    (hf : s.machineFiles m.name ⊆ files) :
    (launchLocked backend s tag m).Proceeds backend (fun c => some (s.diskFor c)) files dirs := by
  have hdisk : s.instancePath m.name ∈ files := hf (Or.inl rfl)
  have hcall : ∀ {c}, s.diskFor c = s.instancePath m.name →
      (Act.call backend c).Proceeds backend (fun c => some (s.diskFor c)) files dirs :=
    fun hc => Act.proceeds_call (congrArg some hc) hdisk
  have hwrite : (s.recordInstance m.name tag.identity.name : Act σ StoreError Unit).Proceeds backend
      (fun c => some (s.diskFor c)) files dirs := (Act.proceeds_writeFile _ (hf (Or.inr rfl))).mapError
  have hundo : (s.removeInstance m.name : Act σ StoreError Unit).Proceeds backend
      (fun c => some (s.diskFor c)) files dirs := removeInstance_proceeds backend hf
  refine Act.proceeds_inspect_bind fun found => ?_
  dsimp only
  split
  · exact Act.proceeds_throw_bind _ _
  · exact (hcall rfl).mapError.bind fun _ => (hwrite.mapError.orElseUndo hundo).bind fun _ =>
      ((hcall rfl).mapError.orElseUndo hundo).bind fun _ => Act.proceeds_pure _

/-- a launch is about the files of the machine and the lock of the tag -/
theorem launch_proceeds (tag : String) (m : MachineSpec) (w : World σ) :
    w.Proceeds backend (fun c => some (s.diskFor c))
      ((s.machineFiles m.name ∪ {s.lockPath .tag ⟨tag⟩}) ∩ s.inside)
      {s.lockPlace tagsDir} ((launch backend s tag m).runIn w).2 := by
  rw [Act.launch_runIn]
  split
  · exact .refl _ _ _ _ w
  split
  · exact .refl _ _ _ _ w
  next hm ht =>
  rw [Bool.not_eq_false] at hm ht
  split
  · exact .refl _ _ _ _ w
  split
  · exact .refl _ _ _ _ w
  have hlock : s.lockPath .tag ⟨tag⟩ ∈ s.inside :=
    keyFiles_subset ht .tag (s.lockPath_mem_keyFiles .tag ⟨tag⟩)
  have hfiles : s.machineFiles m.name ⊆
      (s.machineFiles m.name ∪ {s.lockPath .tag ⟨tag⟩}) ∩ s.inside :=
    Set.subset_inter Set.subset_union_left (machineFiles_subset hm)
  refine Act.Proceeds.during (Act.proceeds_lock ha (l := s.tagNamed tag) ht ?_ _ _).mapError
    (launchLocked_proceeds backend (s.tagNamed tag) hfiles) w
  exact ⟨Or.inr rfl, hlock⟩

omit ha in
/-- destroying a machine is about its files -/
theorem destroy_proceeds (machine : String) (w : World σ) :
    w.Proceeds backend (fun c => some (s.diskFor c))
      (s.machineFiles machine ∩ s.inside) ∅
      ((destroy backend s machine).runIn w).2 := by
  rw [destroy]
  cases hv : isValidName machine with
  | false => exact .refl _ _ _ _ w
  | true =>
    have hfiles : s.machineFiles machine ⊆ s.machineFiles machine ∩ s.inside :=
      Set.subset_inter subset_rfl (machineFiles_subset hv)
    have hact : ((Act.call backend (.destroyMachine machine)).mapError (MachineError.destroy machine) >>=
        fun _ => (s.removeInstance machine).mapError (MachineError.storage machine)).Proceeds backend
          (fun c => some (s.diskFor c))
          (s.machineFiles machine ∩ s.inside) ∅ :=
      (Act.proceeds_call rfl (hfiles (Or.inl rfl))).mapError.bind fun _ =>
        (removeInstance_proceeds backend hfiles).mapError
    exact hact w

end Store

section
variable {σ : Type} {s : Store} (backend : Backend σ) {config : BuildConfig} {w : World σ}
  (h : Store.openReadOnly w.files config.storeRoot = .ok s)
include h

/-- a build is about the files of keys, and makes the directories of the store -/
theorem build_proceeds (ops : List Operation) (tag : Option String) :
    w.Proceeds backend Call.target? s.buildFiles s.made ((build backend config ops tag).runIn w).2 := by
  obtain ⟨hwhole, ha⟩ := Store.openReadOnly_eq_ok h
  have hopened : w.Proceeds backend Call.target? s.buildFiles s.made
      (((Store.open config.storeRoot).mapError BuildError.openStore >>=
        fun s => resume backend s config {} ops tag : Act σ BuildError BuildOutcome).runIn w).2 := by
    have hopen := Store.open_proceeds h backend s.buildFiles
    obtain ⟨_, -, -, hopens⟩ := Act.ends_open (w := w) config.storeRoot
    rw [Act.runIn_bind, Act.runIn_mapError]
    rcases hrun : (Store.open config.storeRoot : Act σ StoreError Store).runIn w with ⟨res, w₀⟩
    rw [hrun] at hopen hopens
    cases res with
    | error e => exact hopen
    | ok s' =>
      have hs : s' = s := by
        have hroot := (hopens.stands s' rfl).1
        rw [hwhole] at hroot
        cases s
        cases s'
        exact congrArg Store.mk (Option.some.inj hroot).symm
      subst hs
      have hin := buildIn_proceeds ha backend config ops tag {} w₀
      show w.Proceeds _ _ _ _ ((resume backend s' config {} ops tag).runIn w₀).2
      rw [resume, Act.runIn_ofFunction]
      rcases hrun' : (buildIn backend s' config ops tag).runIn {} w₀ with ⟨⟨res', c⟩, w'⟩
      rw [hrun'] at hin
      cases res' <;> exact hopen.trans hin
  rw [build]
  split
  · exact .refl _ _ _ _ w
  cases tag with
  | none => exact hopened
  | some name =>
    dsimp only
    split
    · exact .refl _ _ _ _ w
    · exact hopened

theorem buildScript_proceeds (text : String) (tag : Option String) :
    w.Proceeds backend Call.target? s.buildFiles s.made
      ((buildScript backend config text tag).runIn w).2 := by
  rw [buildScript, Act.runIn_bind, Act.ofExcept, Act.runIn_ofFunction]
  cases (Script.parseWith config.strict text).mapError BuildError.script with
  | error e => exact .refl _ _ _ _ w
  | ok script =>
    have hbuild := build_proceeds backend h script.operations tag
    dsimp only
    rw [Act.runIn_bind]
    rcases hrun : (build backend config script.operations tag).runIn w with ⟨res, w'⟩
    rw [hrun] at hbuild
    cases res <;> exact hbuild

end

/-! ## operations that only look -/

/-- An operation that leaves the whole world as it is, and so makes no call. -/
def Act.Quiet (act : Act σ ε α) : Prop := ∀ w : World σ, (act.runIn w).2 = w

namespace Act
variable {σ ε ε' α β : Type}

theorem quiet_pure (a : α) : (pure a : Act σ ε α).Quiet := fun _ => rfl

theorem Quiet.bind {act : Act σ ε β} {f : β → Act σ ε α} (h : act.Quiet) (hf : ∀ b, (f b).Quiet) :
    (act >>= f).Quiet := by
  intro w
  have hw := h w
  rw [runIn_bind]
  rcases hrun : act.runIn w with ⟨res, w'⟩
  rw [hrun] at hw
  cases res with
  | error e => exact hw
  | ok b => exact (hf b w').trans hw

end Act

theorem quiet_lookAt (f : FileSystem → Except CliFailure α) : (lookAt f : Act σ CliFailure α).Quiet :=
  fun _ => rfl

theorem quiet_openStoreReadOnly (root : Path) :
    (openStoreReadOnly root : Act σ CliFailure Store).Quiet := fun _ => rfl

theorem quiet_performPlan (root file : Path) :
    (performPlan root file : Act σ CliFailure CliAnswer).Quiet := by
  have hread : (readScript file : Act σ CliFailure String).Quiet := fun _ => rfl
  rw [performPlan]
  refine hread.bind fun text => (quiet_openStoreReadOnly root).bind fun s => ?_
  exact (quiet_lookAt _).bind fun steps => Act.quiet_pure _

theorem quiet_performList (root : Path) : (performList root : Act σ CliFailure CliAnswer).Quiet := by
  rw [performList]
  exact (quiet_openStoreReadOnly root).bind fun s => (quiet_lookAt _).bind fun disks =>
    Act.quiet_pure _

/-- a request that is only to look -/
def Verb.Looks (verb : Verb) : Prop := (∃ file, verb = .plan file) ∨ verb = .list

theorem CliRequest.quiet_perform (host : Host σ) (env : Environment) {r : CliRequest}
    (h : r.verb.Looks) :
    (r.perform host env).Quiet := by
  intro w
  rw [perform]
  rcases h with ⟨file, h⟩ | h
  · rw [h]
    exact quiet_performPlan _ file w
  · rw [h]
    exact quiet_performList _ w

/-- Footprints.  From every world, whatever the others do when they have their turn, and whatever comes
of it: a step of a build alters at most disk, marker and lock of its layer, and nothing at all if it
cannot be done or the layer can be used as it is; setting or removing a tag alters at most those of the
tag, a launch the disk and the record of the machine and the lock of the tag, destroying a machine its
disk and its record; planning, listing and looking for tags and machines do nothing and make no call.
All these files stand directly in the directories of the store, whatever names were given, and all else
that a build does is to make these directories. -/
theorem operations_alter_own_files {σ : Type} (s : Store) (ha : s.root.isAbsolute = true)
    (backend : Backend σ) (hb : backend.WritesOnly s) (w : World σ) :
    (∀ config op c,
      (∀ e, c.extend s op = .error e → ((applyOne backend s config op).runIn c w).2 = w) ∧
      ∀ goal c', c.extend s op = .ok (goal, c') →
        (isReusable config.force goal.layer w.files = true →
          ((applyOne backend s config op).runIn c w).2 = w) ∧
        w.Alters (s.keyFiles Store.layersDir goal.layer.identity.name ∩ s.inside)
          (s.lockWays Store.layersDir) ((applyOne backend s config op).runIn c w).2) ∧
    (∀ config name c, w.Alters (s.keyFiles Store.tagsDir name ∩ s.inside) (s.lockWays Store.tagsDir)
      ((tagAs backend s config name).runIn c w).2) ∧
    (∀ name command wait, w.Alters (s.keyFiles Store.tagsDir name ∩ s.inside)
      (s.lockWays Store.tagsDir) ((s.removeTag name command wait : Act σ StoreError Unit).runIn w).2) ∧
    (∀ tag m, w.Alters ((s.machineFiles m.name ∪ {s.lockPath .tag ⟨tag⟩}) ∩ s.inside)
      (s.lockWays Store.tagsDir) ((launch backend s tag m).runIn w).2) ∧
    (∀ machine, w.Alters (s.machineFiles machine ∩ s.inside) ∅
      ((destroy backend s machine).runIn w).2) ∧
    ((∀ (host : Host σ) env (r : CliRequest), r.verb.Looks → ((r.perform host env).runIn w).2 = w) ∧
      (∀ headline tag, ((lookAt fun fs => (s.tagLayer fs tag).mapError (storeFailure headline) :
        Act σ CliFailure (Option Layer)).runIn w).2 = w) ∧
      ∀ headline tag, ((lookAt fun fs => (s.instancesOf fs tag).mapError (storeFailure headline) :
        Act σ CliFailure (List String)).runIn w).2 = w) ∧
    (∀ config text tag, Store.openReadOnly w.files config.storeRoot = .ok s →
      w.Alters s.inside s.ways ((buildScript backend config text tag).runIn w).2) ∧
    ∀ file ∈ s.inside, ∃ dir ∈ s.places, ∃ name : String,
      IsPlain name.toList ∧ file = dir.join name ∧ file.trail = name :: dir.trail := by
  have hinside : ∀ files : Set Path, ∀ file ∈ files ∩ s.inside, file.isAbsolute = true :=
    fun _ _ hf => Store.isAbsolute_of_mem_inside ha hf.2
  have hmade := hb.keepsTo_target
  have hbuild : ∀ files : Set Path, files ∩ s.buildFiles ⊆ files ∩ s.inside :=
    fun files => Set.inter_subset_inter_right files Store.buildFiles_subset
  refine ⟨fun config op c => ⟨fun e he => ?_, fun goal c' hext => ⟨fun hreuse => ?_, ?_⟩⟩,
    fun config name c => ?_,
    fun name command wait =>
      (Store.removeTag_proceeds ha backend name command wait w).alters hmade (hinside _),
    fun tag m => (Store.launch_proceeds ha backend tag m w).alters hb.keepsTo (hinside _),
    fun machine => ?_,
    ⟨fun host env r hr => CliRequest.quiet_perform host env hr w, fun _ _ => rfl, fun _ _ => rfl⟩,
    fun config text tag hopen => ?_, fun _ => Store.trail_of_mem_inside⟩
  · rw [applyOne_runIn, he]
  · rw [applyOne_runIn_of_extend backend config hext, realize, Act.runIn_bind, Act.runIn_inspect]
    dsimp only
    rw [if_pos hreuse]
    rfl
  · exact ((applyOne_proceeds ha backend config hext w).mono (hbuild _) subset_rfl).alters hmade
      (hinside _)
  · exact ((tagAs_proceeds ha backend config name c w).mono (hbuild _) subset_rfl).alters hmade
      (hinside _)
  · have halters := (Store.destroy_proceeds backend machine w).alters hb.keepsTo (hinside _)
    have hnone : above ∅ = ∅ := by
      refine Set.eq_empty_of_forall_notMem ?_
      rintro _ ⟨_, hdir, -⟩
      exact hdir
    rwa [hnone] at halters
  · exact ((buildScript_proceeds backend hopen text tag).mono Store.buildFiles_subset
      subset_rfl).alters hmade fun _ => Store.isAbsolute_of_mem_inside ha

theorem Backend.writesOnly_touching (refuses : Call → Bool) (s : Store) :
    (Backend.touching refuses : Backend σ).WritesOnly s := by
  intro c tools fs t ht
  rcases Backend.touching_cases refuses c tools fs with h | ⟨p, u, b, c', hc, htrail, hw, -⟩
  · rw [h]
  · refine hw.same t fun hu => ht ?_
    rw [s.diskFor_eq hc, htrail]
    exact congrArg Except.ok (Eq.symm hu)

/-- a script that reaches for files elsewhere, in a store that is not there yet -/
theorem operations_alter_own_files_elsewhere :
    (⟨⟨"/s"⟩⟩ : Store).root.isAbsolute = true ∧
    (Backend.touching (fun _ => false) : Backend Unit).WritesOnly ⟨⟨"/s"⟩⟩ ∧
    Store.openReadOnly (World.on {}).files ⟨"/s"⟩ = .ok ⟨⟨"/s"⟩⟩ ∧
    (World.on {}).Alters (⟨⟨"/s"⟩⟩ : Store).inside (⟨⟨"/s"⟩⟩ : Store).ways
      ((buildScript (Backend.touching fun _ => false) { storeRoot := ⟨"/s"⟩ }
        "BASE ../../etc/passwd\nMUTATE x" (some "t")).runIn (World.on {})).2 := by
  have ha : (⟨⟨"/s"⟩⟩ : Store).root.isAbsolute = true := by decide +kernel
  have hb := Backend.writesOnly_touching (σ := Unit) (fun _ => false) ⟨⟨"/s"⟩⟩
  have hopen : Store.openReadOnly (World.on {}).files ⟨"/s"⟩ = .ok ⟨⟨"/s"⟩⟩ := by decide +kernel
  exact ⟨ha, hb, hopen, (operations_alter_own_files _ ha _ hb (World.on {})).2.2.2.2.2.2.1
    { storeRoot := ⟨"/s"⟩ } "BASE ../../etc/passwd\nMUTATE x" (some "t") hopen⟩

end DiskLayers
