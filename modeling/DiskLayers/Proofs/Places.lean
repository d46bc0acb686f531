import DiskLayers.Proofs.Kinds

/-!
# The places of a store

* `FileRole`             what a file of a store is for: eight roles
* `FileRole.path`        the path of the file of a name in a role, as the program makes it
* `FileRole.directory`   the directory of a role
* `FileRole.extension`   what stands behind the name

`path_eq` says that the name and the extension of the role, joined to the directory of the role, are the
path, by whatever means it was made.  The directory and the extension tell the role (`eq_of_folder`), and no
extension has a dot in it, so that the name ends at the last dot however many dots it has.
-/

namespace DiskLayers
open DiskLayers.Path DiskLayers.Text

/-! ## paths that end in a name with an extension -/

namespace Path

/-- the directory of a name in a directory of any path, also of the empty one -/
theorem parent?_join_join (p : Path) {dir name : String} (hd : IsPlain dir.toList)
    (hn : IsPlain name.toList) : ((p.join dir).join name).parent? = some (p.join dir) := by
  by_cases hp : p.chars = []
  · have hdir : (p.join dir).chars = dir.toList := by rw [chars_join, hp, joinChars, if_pos (Or.inr rfl)]
    have hlast : dir.toList.getLast? ≠ some '/' := fun h => hd.no_slash (List.mem_of_getLast? h)
    rw [parent?, chars_join, hdir, joinChars_eq hd.ne_nil hn, front, if_neg hlast, split_append_name _ hn,
      splitAll_of_not_mem hd.no_slash, Option.map_some, Option.some.injEq]
    have hdrop : dropVoid [dir.toList].reverse = [dir.toList] := rfl
    simp only [hdrop]
    split
    · next h => exact absurd (List.cons.inj h).1 hd.ne_nil
    · rw [List.reverse_singleton, joinWith_singleton, ← hdir, ofChars_chars]
  · exact parent?_join hp hd hn

theorem fileName?_join {p : Path} (hp : p.chars ≠ []) {name : String} (hn : IsPlain name.toList) :
    (p.join name).fileName? = some name := by
  rw [fileName?, chars_join, joinChars_eq hp hn, properName?_append_name _ hn, Option.map_some,
    String.ofList_toList]

/-- a path that ends in a valid name with an extension is cut in front of the extension -/
theorem splitExtension_join {p : Path} (hp : p.chars ≠ []) {name ext : String}
    (hv : isValidName name = true) (hn : IsPlain (name ++ "." ++ ext).toList) (hx : ext.toList ≠ [])
    (he : '.' ∉ ext.toList) :
    (p.join (name ++ "." ++ ext)).extension? = some ext ∧ (p.join (name ++ "." ++ ext)).stem? = some name := by
  have hproper : properName? (p.join (name ++ "." ++ ext)).chars = some (name ++ "." ++ ext).toList := by
    rw [chars_join, joinChars_eq hp hn, properName?_append_name _ hn]
  exact (splitExtension_iff hproper hx he).mpr ⟨valid_ne_empty hv, rfl⟩

end Path

/-! ## markers and locks -/

theorem markerName_eq (name : String) : markerName name = name ++ ".incomplete" := by
  rw [markerName, String.append_assoc]
  rfl

theorem lockFile_eq (name : String) : name ++ ".lock" = name ++ "." ++ "lock" := by
  rw [String.append_assoc]
  rfl

theorem Store.markerOf_join_directory (s : Store) {dir : String} (hd : dir ∈ Store.directories)
    {name : String} (h : isValidName name = true) :
    Layer.markerOf ((s.root.join dir).join (diskName name)) = (s.root.join dir).join (markerName name) := by
  refine markerOf_join h ?_
  rw [chars_join]
  exact joinChars_ne_nil (isPlain_of_mem_directories hd)

/-! ## roles -/

inductive FileRole where
  | layerDisk
  | layerMarker
  | tagDisk
  | tagMarker
  | instanceDisk
  | instanceRecord
  | layerLock
  | tagLock
  deriving DecidableEq

namespace FileRole

def path (s : Store) : FileRole → String → Path
  | layerDisk, name => s.layerPath ⟨name⟩
  | layerMarker, name => Layer.markerOf (s.layerPath ⟨name⟩)
  | tagDisk, name => s.tagPath name
  | tagMarker, name => (s.tagNamed name).marker
  | instanceDisk, name => s.instancePath name
  | instanceRecord, name => s.recordPath name
  | layerLock, name => s.lockPath .base ⟨name⟩
  | tagLock, name => s.lockPath .tag ⟨name⟩

/-- the directory of a role, from the root of a store down -/
def folder : FileRole → List String
  | layerDisk | layerMarker => [Store.layersDir]
  | tagDisk | tagMarker => [Store.tagsDir]
  | instanceDisk | instanceRecord => [Store.instancesDir]
  | layerLock => [Store.locksDir, Store.layersDir]
  | tagLock => [Store.locksDir, Store.tagsDir]

def directory (s : Store) (role : FileRole) : Path := role.folder.foldl Path.join s.root

def extension : FileRole → String
  | layerDisk | tagDisk | instanceDisk => diskFormat
  | layerMarker | tagMarker => Layer.markerExtension
  | instanceRecord => recordExtension
  | layerLock | tagLock => "lock"

/-- the file name of a name in a role -/
def fileName (role : FileRole) (name : String) : String := name ++ "." ++ role.extension

/-- directory and extension tell the role -/
theorem eq_of_folder {role role' : FileRole} (hf : role.folder = role'.folder)
    (he : role.extension = role'.extension) : role = role' := by
  revert hf he
  cases role <;> cases role' <;> decide

theorem extension_ne_nil (role : FileRole) : role.extension.toList ≠ [] := by
  cases role <;> decide

theorem dot_not_mem_extension (role : FileRole) : '.' ∉ role.extension.toList := by
  cases role <;> decide

theorem isPlain_of_mem_folder {role : FileRole} {dir : String} (h : dir ∈ role.folder) :
    IsPlain dir.toList := by
  refine Store.isPlain_of_mem_directories ?_
  revert h dir
  cases role <;> decide

theorem exists_directory_eq (s : Store) (role : FileRole) :
    ∃ (p : Path) (dir : String), IsPlain dir.toList ∧ role.directory s = p.join dir := by
  obtain ⟨dirs, dir, hfolder⟩ : ∃ dirs dir, role.folder = dirs ++ [dir] := by
    cases role
    case layerLock => exact ⟨[Store.locksDir], Store.layersDir, rfl⟩
    case tagLock => exact ⟨[Store.locksDir], Store.tagsDir, rfl⟩
    all_goals exact ⟨[], _, rfl⟩
  have hmem : dir ∈ role.folder := by simp [hfolder]
  refine ⟨dirs.foldl Path.join s.root, dir, isPlain_of_mem_folder hmem, ?_⟩
  rw [directory, hfolder, List.foldl_append]
  rfl

theorem directory_ne_nil (s : Store) (role : FileRole) : (role.directory s).chars ≠ [] := by
  obtain ⟨p, dir, hdir, heq⟩ := role.exists_directory_eq s
  rw [heq, chars_join]
  exact joinChars_ne_nil hdir

theorem names_foldl_join {dirs : List String} (h : ∀ dir ∈ dirs, IsPlain dir.toList) (p : Path) :
    names (dirs.foldl Path.join p).chars = names p.chars ++ dirs.map String.toList := by
  induction dirs generalizing p with
  | nil => rw [List.map_nil, List.append_nil]; rfl
  | cons dir dirs ih =>
    rw [List.foldl_cons, ih (fun d hd => h d (List.mem_cons_of_mem _ hd)),
      names_chars_join p (h dir List.mem_cons_self), List.append_assoc]
    rfl

section
variable (s : Store) (role : FileRole) {name : String} (h : isValidName name = true)
include h

theorem isPlain_fileName : IsPlain (role.fileName name).toList := by
  refine isPlain_dotted h ?_ ?_ ?_ <;> cases role <;> decide

/-- a file has the name and the extension of its role, in the directory of its role -/
theorem path_eq : role.path s name = (role.directory s).join (role.fileName name) := by
  cases role
  -- only the extension of a marker is put in the place of another one
  case layerMarker =>
    rw [path, Store.layerPath, s.markerOf_join_directory (by simp [Store.directories]) h]
    rfl
  case tagMarker =>
    rw [path, Layer.marker, Store.tagNamed, Store.tagPath,
      s.markerOf_join_directory (by simp [Store.directories]) h]
    rfl
  case layerLock => rw [path, Store.lockPath, lockFile_eq]; rfl
  case tagLock => rw [path, Store.lockPath, lockFile_eq]; rfl
  all_goals rfl

theorem parent?_path : (role.path s name).parent? = some (role.directory s) := by
  obtain ⟨p, dir, hdir, heq⟩ := role.exists_directory_eq s
  rw [role.path_eq s h, heq]
  exact parent?_join_join p hdir (role.isPlain_fileName h)

theorem fileName?_path : (role.path s name).fileName? = some (role.fileName name) := by
  rw [role.path_eq s h]
  exact fileName?_join (role.directory_ne_nil s) (role.isPlain_fileName h)

theorem splitExtension_path :
    (role.path s name).extension? = some role.extension ∧ (role.path s name).stem? = some name := by
  rw [role.path_eq s h]
  exact splitExtension_join (role.directory_ne_nil s) h (role.isPlain_fileName h) role.extension_ne_nil
    role.dot_not_mem_extension

theorem names_path :
    names (role.path s name).chars =
      names s.root.chars ++ (role.folder.map String.toList ++ [(role.fileName name).toList]) := by
  rw [role.path_eq s h, names_chars_join _ (role.isPlain_fileName h), directory,
    names_foldl_join (fun _ hd => isPlain_of_mem_folder hd), List.append_assoc]

end

/-- The names in the path of a file tell its role and the name it was made of. -/
theorem names_path_inj (s : Store) {role role' : FileRole} {n m : String} (hn : isValidName n = true)
    (hm : isValidName m = true) (h : names (role.path s n).chars = names (role'.path s m).chars) :
    role = role' ∧ n = m := by
  rw [role.names_path s hn, role'.names_path s hm] at h
  obtain ⟨hfolder, hfile⟩ := List.append_inj' (List.append_cancel_left h) rfl
  obtain ⟨hname, hext⟩ := dotted_inj role.dot_not_mem_extension role'.dot_not_mem_extension
    (String.toList_injective (List.cons.inj hfile).1)
  exact ⟨eq_of_folder ((List.map_injective_iff.mpr fun _ _ => String.toList_injective) hfolder) hext, hname⟩

end FileRole

/-- No two files of a store have one path: those of two names, or in two roles, differ even where empty names
and single dots do not count.  Each file is in the directory of its role, under its name and the extension of
the role; in particular the marker of a disk stands next to it, and a derived layer has the lock of a base
image.  From the path the extension and the name are read again, also by what looks for records and disks. -/
theorem store_paths_never_collide (s : Store) {n m : String} (hn : isValidName n = true)
    (hm : isValidName m = true) :
    (∀ role role' : FileRole, (role.path s n = role'.path s m ↔ role = role' ∧ n = m) ∧
      (names (role.path s n).chars = names (role'.path s m).chars → role = role' ∧ n = m)) ∧
      (∀ role : FileRole, (role.path s n).parent? = some (role.directory s) ∧
        (role.path s n).fileName? = some (n ++ "." ++ role.extension) ∧
        (role.path s n).extension? = some role.extension ∧ (role.path s n).stem? = some n) ∧
      Layer.markerOf (s.layerPath ⟨n⟩) = (s.root.join Store.layersDir).join (n ++ ".incomplete") ∧
      Layer.markerOf (s.tagPath n) = (s.root.join Store.tagsDir).join (n ++ ".incomplete") ∧
      s.lockPath .derived ⟨n⟩ = FileRole.layerLock.path s n ∧
      ((s.recordPath n).fileName?.bind Store.recordedMachine? = some n ∧
        ∀ disk ∈ [s.layerPath ⟨n⟩, s.tagPath n, s.instancePath n],
          disk.fileName?.bind Store.storedName? = some n) := by
  refine ⟨fun role role' => ⟨⟨fun h => ?_, ?_⟩, FileRole.names_path_inj s hn hm⟩, fun role => ?_, ?_, ?_, rfl,
    ?_, fun disk hdisk => ?_⟩
  · exact FileRole.names_path_inj s hn hm (by rw [h])
  · rintro ⟨rfl, rfl⟩
    rfl
  · exact ⟨role.parent?_path s hn, role.fileName?_path s hn, role.splitExtension_path s hn⟩
  · rw [← markerName_eq]
    exact s.markerOf_join_directory (by simp [Store.directories]) hn
  · rw [← markerName_eq]
    exact s.markerOf_join_directory (by simp [Store.directories]) hn
  · show (FileRole.instanceRecord.path s n).fileName?.bind Store.recordedMachine? = some n
    rw [FileRole.fileName?_path s .instanceRecord hn]
    exact recordedMachine?_recordName hn
  · have hstored : ∀ role : FileRole, role.extension = diskFormat →
        (role.path s n).fileName?.bind Store.storedName? = some n := fun role hext => by
      rw [role.fileName?_path s hn, FileRole.fileName, hext]
      exact Store.storedName?_diskName hn
    simp only [List.mem_cons, List.not_mem_nil, or_false] at hdisk
    rcases hdisk with rfl | rfl | rfl
    · exact hstored .layerDisk rfl
    · exact hstored .tagDisk rfl
    · exact hstored .instanceDisk rfl

/-- Names that look like files of other roles, in a store below the directory that is asked from: the record of
one machine and the disk of another, and the marker of a layer whose name ends like that of a disk. -/
theorem store_paths_never_collide_dotted :
    isValidName "web.tag" = true ∧ isValidName "web.tag.qcow2" = true ∧
      (⟨⟨"./s/"⟩⟩ : Store).recordPath "web.tag" ≠ (⟨⟨"./s/"⟩⟩ : Store).instancePath "web.tag.qcow2" ∧
      ((⟨⟨"./s/"⟩⟩ : Store).recordPath "web.tag").stem? = some "web.tag" ∧
      ((⟨⟨"./s/"⟩⟩ : Store).recordPath "web.tag").parent? = some ⟨"./s/instances"⟩ ∧
      Layer.markerOf ((⟨⟨"./s/"⟩⟩ : Store).layerPath ⟨"web.tag.qcow2"⟩) = ⟨"./s/layers/web.tag.qcow2.incomplete"⟩ := by
  have hn : isValidName "web.tag" = true := by decide +kernel
  have hm : isValidName "web.tag.qcow2" = true := by decide +kernel
  obtain ⟨hdiffer, hplace, -⟩ := store_paths_never_collide ⟨⟨"./s/"⟩⟩ hn hm
  obtain ⟨hparent, -, -, hstem⟩ := hplace .instanceRecord
  obtain ⟨-, -, hmarker, -⟩ := store_paths_never_collide ⟨⟨"./s/"⟩⟩ hm hn
  refine ⟨hn, hm, fun h => ?_, hstem, hparent, hmarker⟩
  exact absurd ((hdiffer .instanceRecord .instanceDisk).1.mp h).1 (by decide)

end DiskLayers
