import DiskLayers.Proofs.Changes
import DiskLayers.Store.Basic

/-!
# Where the disks of a store are

* `markerName`            the file name of a marker
* `Store.directories`     the names of the four directories of a store
* `Store.StandsAt`        the four directories are there, below a common trail
* `FileSystem.isWhole`    a disk is there and no marker next to it
* `FileSystem.KeepsDisk`  disk and marker are what they were

`markerOf_join` gives the marker of a disk by its name, and `isWhole_join` says by the two entries
when a disk is whole.
-/

namespace DiskLayers
open DiskLayers.Path

/-! ## valid names -/

section
variable {name : String} (h : isValidName name = true)
include h

theorem valid_ne_nil : name.toList ≠ [] := by
  simp only [isValidName, Bool.and_eq_true, Bool.not_eq_true', List.isEmpty_eq_false_iff] at h
  exact h.1.1

theorem valid_ne_empty : name ≠ "" := fun e => valid_ne_nil h (by rw [e]; rfl)

theorem valid_ne_dot : name.toList ≠ ['.'] := by
  intro e
  simp [isValidName, e] at h

theorem isNameChar_of_valid {c : Char} (hc : c ∈ name.toList) : isNameChar c = true := by
  simp only [isValidName, Bool.and_eq_true, List.all_eq_true] at h
  exact h.2 c hc

theorem valid_no_slash : '/' ∉ name.toList := fun hc =>
  absurd (isNameChar_of_valid h hc) (by decide)

theorem valid_no_nul : '\x00' ∉ name.toList := fun hc =>
  absurd (isNameChar_of_valid h hc) (by decide)

end

theorem isPlain_append {cs ds : List Char} (hs : '/' ∉ cs) (hz : '\x00' ∉ cs) (hs' : '/' ∉ ds)
    (hz' : '\x00' ∉ ds) (hl : 3 ≤ ds.length) : IsPlain (cs ++ ds) := by
  have hne : ∀ es : List Char, es.length < 3 → cs ++ ds ≠ es := by
    intro es he e
    have := congrArg List.length e
    rw [List.length_append] at this
    omega
  refine ⟨hne [] (by simp), ?_, ?_, hne ['.'] (by simp), hne ['.', '.'] (by simp)⟩
  · simp [hs, hs']
  · simp [hz, hz']

/-! ## names of disks and markers -/

theorem toList_dotted (name ext : String) :
    (name ++ "." ++ ext).toList = name.toList ++ '.' :: ext.toList := by
  simp [String.toList_append]

/-- a name and the extension behind it are known from both together, if the extension has no dot -/
theorem dotted_inj {n m ext ext' : String} (he : '.' ∉ ext.toList) (he' : '.' ∉ ext'.toList)
    (h : n ++ "." ++ ext = m ++ "." ++ ext') : n = m ∧ ext = ext' := by
  have hlist := congrArg String.toList h
  rw [toList_dotted, toList_dotted] at hlist
  have hcut := Text.splitLast_append n.toList he
  rw [hlist, Text.splitLast_append _ he'] at hcut
  obtain ⟨hm, hext⟩ := Prod.mk.inj (Option.some.inj hcut)
  exact ⟨String.toList_injective hm.symm, String.toList_injective hext.symm⟩

theorem isPlain_dotted {name ext : String} (h : isValidName name = true) (hs : '/' ∉ ext.toList)
    (hz : '\x00' ∉ ext.toList) (hl : 2 ≤ ext.toList.length) : IsPlain (name ++ "." ++ ext).toList := by
  rw [toList_dotted]
  exact isPlain_append (valid_no_slash h) (valid_no_nul h) (by simp [hs]) (by simp [hz]) (by simp [hl])

def markerName (name : String) : String := name ++ "." ++ Layer.markerExtension

theorem toList_diskName (name : String) :
    (diskName name).toList = name.toList ++ '.' :: diskFormat.toList := toList_dotted name diskFormat

theorem toList_markerName (name : String) :
    (markerName name).toList = name.toList ++ '.' :: Layer.markerExtension.toList :=
  toList_dotted name Layer.markerExtension

theorem diskName_injective {n m : String} (h : diskName n = diskName m) : n = m :=
  (dotted_inj (by decide) (by decide) h).1

theorem markerName_injective {n m : String} (h : markerName n = markerName m) : n = m :=
  (dotted_inj (by decide) (by decide) h).1

theorem diskName_ne_markerName (n m : String) : diskName n ≠ markerName m := fun h =>
  absurd (dotted_inj (by decide) (by decide) h).2 (by decide)

section
variable {name : String} (h : isValidName name = true)
include h

theorem isPlain_diskName : IsPlain (diskName name).toList :=
  isPlain_dotted h (by decide) (by decide) (by decide)

theorem isPlain_markerName : IsPlain (markerName name).toList :=
  isPlain_dotted h (by decide) (by decide) (by decide)

theorem isPlain_lockFile : IsPlain (name ++ ".lock").toList := by
  rw [String.toList_append]
  exact isPlain_append (valid_no_slash h) (valid_no_nul h) (by decide) (by decide) (by decide)

/-- the marker of a disk stands next to it -/
theorem markerOf_join {base : Path} (hb : base.chars ≠ []) :
    Layer.markerOf (base.join (diskName name)) = base.join (markerName name) := by
  have hd := isPlain_diskName h
  have hm := isPlain_markerName h
  rw [Layer.markerOf, Path.join, Path.join, joinChars_eq hb hd, joinChars_eq hb hm,
    toList_diskName, toList_markerName]
  rw [toList_diskName] at hd
  exact withExtension_append _ (valid_ne_nil h) (valid_ne_dot h) (valid_no_slash h) hd
    (by decide) _

/-- where the marker of a disk fits, the disk does -/
theorem fits_diskName {base : Path} (hb : base.chars ≠ []) (hf : base.Fits (markerName name)) :
    base.Fits (diskName name) := by
  obtain ⟨h1, h2⟩ := hf
  rw [chars_join, joinChars_eq hb (isPlain_markerName h), byteCount_append, byteCount_cons] at h2
  have hc : byteCount (diskName name).toList ≤ byteCount (markerName name).toList := by
    rw [toList_diskName, toList_markerName, byteCount_append, byteCount_append]
    exact Nat.add_le_add_left (by decide) _
  refine ⟨hc.trans h1, ?_⟩
  rw [chars_join, joinChars_eq hb (isPlain_diskName h), byteCount_append, byteCount_cons]
  omega

end

/-! ## the directories of a store -/

namespace Store

def directories : List String := [layersDir, tagsDir, instancesDir, locksDir]

def StandsAt (s : Store) (r : Trail) (fs : FileSystem) : Prop :=
  ∀ dir ∈ directories, fs.lookup (s.root.join dir) = .ok (dir :: r, .dir)

theorem isPlain_of_mem_directories {dir : String} (h : dir ∈ directories) :
    IsPlain dir.toList := by
  have h' : dir = layersDir ∨ dir = tagsDir ∨ dir = instancesDir ∨ dir = locksDir := by
    simpa [directories] using h
  rcases h' with rfl | rfl | rfl | rfl <;> exact ⟨by decide, by decide, by decide, by decide, by decide⟩

theorem lockDir_mem_directories (kind : LayerKind) : lockDir kind ∈ directories := by
  cases kind <;> simp [lockDir, directories]

theorem isPlain_lockDir (kind : LayerKind) : IsPlain (lockDir kind).toList :=
  isPlain_of_mem_directories (lockDir_mem_directories kind)

theorem parent?_lockPath (s : Store) (kind : LayerKind) {key : Identity}
    (hv : isValidName key.name = true) :
    (s.lockPath kind key).parent? = some ((s.root.join locksDir).join (lockDir kind)) := by
  have hne : (s.root.join locksDir).chars ≠ [] := by
    rw [chars_join]
    exact joinChars_ne_nil (isPlain_of_mem_directories (by simp [directories]))
  exact parent?_join hne (isPlain_lockDir kind) (isPlain_lockFile hv)

theorem layerPath_inj (s : Store) {key key' : Identity} (h : isValidName key.name = true)
    (h' : isValidName key'.name = true) (he : s.layerPath key = s.layerPath key') : key = key' := by
  have hname := diskName_injective (join_inj (isPlain_diskName h) (isPlain_diskName h') he).2
  cases key
  cases key'
  exact congrArg Identity.mk hname

theorem join_ne_of_dir_ne {root : Path} {dir dir' : String} (hd : dir ∈ directories)
    (hd' : dir' ∈ directories) (hne : dir ≠ dir') {name name' : String} (hn : IsPlain name.toList)
    (hn' : IsPlain name'.toList) : (root.join dir).join name ≠ (root.join dir').join name' := by
  intro he
  have hnames := (join_inj hn hn' he).1
  rw [names_chars_join root (isPlain_of_mem_directories hd),
    names_chars_join root (isPlain_of_mem_directories hd')] at hnames
  exact hne (String.toList_injective (List.cons.inj (List.append_inj' hnames rfl).2).1)

theorem layerPath_ne_tagPath {s : Store} {key : Identity} {name : String}
    (hk : isValidName key.name = true) (hn : isValidName name = true) :
    s.layerPath key ≠ s.tagPath name :=
  join_ne_of_dir_ne (by simp [directories]) (by simp [directories]) (by decide) (isPlain_diskName hk)
    (isPlain_diskName hn)

theorem layerPath_ne_instancePath {s : Store} {key : Identity} {name : String}
    (hk : isValidName key.name = true) (hn : isValidName name = true) :
    s.layerPath key ≠ s.instancePath name :=
  join_ne_of_dir_ne (by simp [directories]) (by simp [directories]) (by decide) (isPlain_diskName hk)
    (isPlain_diskName hn)

theorem tagPath_ne_instancePath {s : Store} {tag name : String} (ht : isValidName tag = true)
    (hn : isValidName name = true) : s.tagPath tag ≠ s.instancePath name :=
  join_ne_of_dir_ne (by simp [directories]) (by simp [directories]) (by decide) (isPlain_diskName ht)
    (isPlain_diskName hn)

theorem tagPath_inj {s : Store} {name name' : String} (h : isValidName name = true)
    (h' : isValidName name' = true) (he : s.tagPath name = s.tagPath name') : name = name' :=
  diskName_injective (join_inj (isPlain_diskName h) (isPlain_diskName h') he).2

theorem instancePath_inj {s : Store} {name name' : String} (h : isValidName name = true)
    (h' : isValidName name' = true) (he : s.instancePath name = s.instancePath name') : name = name' :=
  diskName_injective (join_inj (isPlain_diskName h) (isPlain_diskName h') he).2

namespace StandsAt
variable {s : Store} {r : Trail} {fs fs' : FileSystem}

theorem layers (h : s.StandsAt r fs) :
    fs.lookup (s.root.join layersDir) = .ok (layersDir :: r, .dir) := h _ (by simp [directories])
theorem tags (h : s.StandsAt r fs) :
    fs.lookup (s.root.join tagsDir) = .ok (tagsDir :: r, .dir) := h _ (by simp [directories])
theorem locks (h : s.StandsAt r fs) :
    fs.lookup (s.root.join locksDir) = .ok (locksDir :: r, .dir) := h _ (by simp [directories])

theorem within (h : s.StandsAt r fs) {T : Set Trail} (hw : FileSystem.Within T fs fs') :
    s.StandsAt r fs' := fun dir hd => hw.lookup_dir (h dir hd)

end StandsAt

end Store

/-! ## whole disks -/

namespace FileSystem

def isWhole (fs : FileSystem) (disk : Path) : Bool :=
  fs.isFile disk && !fs.isPresent (Layer.markerOf disk)

theorem isComplete_eq_isWhole (l : Layer) (fs : FileSystem) :
    l.isComplete fs = fs.isWhole l.location := rfl

section
variable {fs fs' : FileSystem} {base : Path} {d : Trail} {name : String} {T : Set Trail}
  (h : fs.lookup base = .ok (d, .dir)) (hv : isValidName name = true)
include h hv

theorem isWhole_join :
    fs.isWhole (base.join (diskName name)) = true ↔
      (base.Fits (diskName name) ∧ ∃ b c, fs.node? (diskName name :: d) = some (.file b c)) ∧
        (base.Fits (markerName name) → fs.node? (markerName name :: d) = none) := by
  have hb := (lookup_eq_dir.mp h).1.ne_nil
  rw [isWhole, Bool.and_eq_true, Bool.not_eq_true', markerOf_join hv hb,
    isFile_join h (isPlain_diskName hv), ← Bool.not_eq_true,
    isPresent_join h (isPlain_markerName hv)]
  constructor
  · rintro ⟨h1, h2⟩
    exact ⟨h1, fun hf => by_contra fun hn => h2 ⟨hf, hn⟩⟩
  · rintro ⟨h1, h2⟩
    exact ⟨h1, fun h3 => h3.2 (h2 h3.1)⟩

theorem Within.isWhole_join (hw : Within T fs fs') (hd : diskName name :: d ∉ T)
    (hm : markerName name :: d ∉ T) :
    fs'.isWhole (base.join (diskName name)) = fs.isWhole (base.join (diskName name)) := by
  rw [Bool.eq_iff_iff, FileSystem.isWhole_join (hw.lookup_dir h) hv,
    FileSystem.isWhole_join h hv, hw.same _ hd, hw.same _ hm]

end

/-- disk and marker are the same on two file systems, or on both not there -/
def KeepsDisk (disk : Path) (fs fs' : FileSystem) : Prop :=
  fs'.found? disk = fs.found? disk ∧
    fs'.found? (Layer.markerOf disk) = fs.found? (Layer.markerOf disk)

namespace KeepsDisk
variable {disk : Path} {fs fs' fs'' : FileSystem}

theorem refl (disk : Path) (fs : FileSystem) : KeepsDisk disk fs fs := ⟨rfl, rfl⟩

theorem trans (h : KeepsDisk disk fs fs') (h' : KeepsDisk disk fs' fs'') : KeepsDisk disk fs fs'' :=
  ⟨h'.1.trans h.1, h'.2.trans h.2⟩

theorem isWhole_eq (h : KeepsDisk disk fs fs') : fs'.isWhole disk = fs.isWhole disk := by
  have hfile : ∀ fs : FileSystem, ∀ p : Path,
      fs.isFile p = (fs.found? p).any fun e => e.2.isFile := by
    intro fs p
    rw [FileSystem.isFile, FileSystem.found?]
    cases fs.lookup p <;> rfl
  have hpresent : ∀ fs : FileSystem, ∀ p : Path, fs.isPresent p = (fs.found? p).isSome := by
    intro fs p
    rw [FileSystem.isPresent, FileSystem.found?]
    cases fs.lookup p <;> rfl
  rw [FileSystem.isWhole, FileSystem.isWhole, hfile, hfile, hpresent, hpresent, h.1, h.2]

theorem of_within {T : Set Trail} {base : Path} {d : Trail} {name : String}
    (h : fs.lookup base = .ok (d, .dir)) (hv : isValidName name = true)
    (hdisk : diskName name :: d ∉ T) (hmark : markerName name :: d ∉ T) (hw : Within T fs fs') :
    KeepsDisk (base.join (diskName name)) fs fs' := by
  refine ⟨hw.found?_join h (isPlain_diskName hv) hdisk, ?_⟩
  rw [markerOf_join hv (lookup_eq_dir.mp h).1.ne_nil]
  exact hw.found?_join h (isPlain_markerName hv) hmark

end KeepsDisk

end FileSystem

end DiskLayers
