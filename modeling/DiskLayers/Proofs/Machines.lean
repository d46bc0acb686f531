import DiskLayers.Machine.Launch
import DiskLayers.Proofs.Effects
import DiskLayers.Proofs.Standing

/-!
# Which machines run on a tag

* `recordName`     the file name of the record of a machine
* `Pin`            a machine that runs, with the tag behind its disk
* `machinesOn`     the machines that run on a tag, in order
* `Recorded`       the directory of instances holds the disks and records of some machines, no more

`instancesOf_eq` says that a directory of this kind is read as the machines it holds.
-/

namespace DiskLayers
open DiskLayers.Path DiskLayers.Text

/-! ## records -/

def recordName (name : String) : String := name ++ "." ++ recordExtension

theorem toList_recordName (name : String) :
    (recordName name).toList = name.toList ++ '.' :: recordExtension.toList :=
  toList_dotted name recordExtension

theorem recordName_injective {n m : String} (h : recordName n = recordName m) : n = m :=
  (dotted_inj (by decide) (by decide) h).1

theorem diskName_ne_recordName (n m : String) : diskName n ≠ recordName m := fun h =>
  absurd (dotted_inj (by decide) (by decide) h).2 (by decide)

theorem properName?_of_isPlain {name : List Char} (hn : IsPlain name) :
    properName? name = some name := by
  rw [properName?, split, splitAll_of_not_mem hn.no_slash]
  show (lastName [name]).bind _ = _
  rw [lastName, if_neg (by simpa using hn.ne_nil)]
  exact if_neg (not_or.mpr ⟨hn.ne_dot, hn.ne_dots⟩)

theorem splitExtension_iff {p : Path} {file name ext : String} (hp : properName? p.chars = some file.toList)
    (hx : ext.toList ≠ []) (he : '.' ∉ ext.toList) :
    (p.extension? = some ext ∧ p.stem? = some name) ↔ name ≠ "" ∧ file = name ++ "." ++ ext := by
  have hlist : file = name ++ "." ++ ext ↔ file.toList = name.toList ++ '.' :: ext.toList := by
    rw [← String.toList_inj, toList_dotted]
  have hcut : (p.extension? = some ext ∧ p.stem? = some name) ↔
      splitName file.toList = (name.toList, some ext.toList) := by
    have hof : ∀ (cs : List Char) (s : String), String.ofList cs = s ↔ cs = s.toList := fun cs s =>
      ⟨fun h => by rw [← h, String.toList_ofList], fun h => by rw [h, String.ofList_toList]⟩
    simp only [extension?, stem?, hp, Option.bind_some, Option.map_some, Prod.ext_iff, Option.map_eq_some_iff, Option.some.injEq, hof, exists_eq_right]
    exact and_comm
  rw [hcut, splitName_eq_some_iff hx he, hlist, ne_eq, ne_eq, String.toList_eq_nil_iff]

section
variable {name : String} (h : isValidName name = true)
include h

theorem isPlain_recordName : IsPlain (recordName name).toList :=
  isPlain_dotted h (by decide) (by decide) (by decide)

theorem fits_recordName {base : Path} (hb : base.chars ≠ []) (hf : base.Fits (diskName name)) :
    base.Fits (recordName name) := by
  obtain ⟨h1, h2⟩ := hf
  rw [chars_join, joinChars_eq hb (isPlain_diskName h), byteCount_append, byteCount_cons] at h2
  have hc : byteCount (recordName name).toList ≤ byteCount (diskName name).toList := by
    rw [toList_diskName, toList_recordName, byteCount_append, byteCount_append]
    exact Nat.add_le_add_left (by decide) _
  refine ⟨hc.trans h1, ?_⟩
  rw [chars_join, joinChars_eq hb (isPlain_recordName h), byteCount_append, byteCount_cons]
  omega

/-- an extension behind a valid name is known, whatever dots the name has -/
theorem splitExtension_of_valid {ext : String} (hp : IsPlain (name ++ "." ++ ext).toList)
    (hx : ext.toList ≠ []) (he : '.' ∉ ext.toList) :
    (⟨name ++ "." ++ ext⟩ : Path).extension? = some ext ∧
      (⟨name ++ "." ++ ext⟩ : Path).stem? = some name :=
  (splitExtension_iff (properName?_of_isPlain hp) hx he).mpr ⟨valid_ne_empty h, rfl⟩

theorem recordedMachine?_recordName : Store.recordedMachine? (recordName name) = some name := by
  obtain ⟨hext, hstem⟩ := splitExtension_of_valid h (isPlain_recordName h) (by decide) (by decide)
  rw [Store.recordedMachine?, recordName, hext, hstem]
  exact if_pos rfl

theorem recordedMachine?_diskName : Store.recordedMachine? (diskName name) = none := by
  obtain ⟨hext, -⟩ := splitExtension_of_valid h (isPlain_diskName h) (by decide) (by decide)
  rw [Store.recordedMachine?, diskName, hext]
  exact if_neg (by decide)

/-- a valid name stays when a line end behind it is trimmed away -/
theorem trim_line : Text.trim (name ++ "\n") = name := by
  have hblank : ∀ c ∈ name.toList, Text.isBlank c = false := fun c hc =>
    isBlank_of_isNameChar (isNameChar_of_valid h hc)
  rw [Text.trim, String.toList_append, Text.trimBlank]
  obtain ⟨c, cs, hcs⟩ := List.exists_cons_of_ne_nil (valid_ne_nil h)
  have hstart : Text.trimBlankStart (name.toList ++ ['\n']) = name.toList ++ ['\n'] := by
    rw [hcs]
    exact Text.trimBlankStart_of_not_isBlank _ (hblank c (hcs ▸ List.mem_cons_self))
  rw [show "\n".toList = ['\n'] from rfl, hstart,
    Text.trimBlankEnd_append_of_isBlank _ (by decide)]
  rcases List.eq_nil_or_concat name.toList with hnil | ⟨ds, d, hds⟩
  · exact absurd hnil (valid_ne_nil h)
  · rw [List.concat_eq_append] at hds
    rw [hds, Text.trimBlankEnd_append _ (hblank d (hds ▸ by simp)), ← hds, String.ofList_toList]

end

/-! ## a directory of machines -/

/-- A machine that runs, with the tag behind its disk, and what was in that disk at its start. -/
structure Pin where
  machine : String
  tag : String
  content : Option Content
  deriving DecidableEq

def machinesOn (pins : List Pin) (tag : String) : List String :=
  ((pins.filter fun p => p.tag = tag).map Pin.machine).mergeSort FileSystem.nameLE

structure Recorded (s : Store) (r : Trail) (pins : List Pin) (fs : FileSystem) : Prop where
  nodup : (pins.map Pin.machine).Nodup
  machine : ∀ p ∈ pins, isValidName p.machine = true
  tag : ∀ p ∈ pins, isValidName p.tag = true
  fits : ∀ p ∈ pins, (s.root.join Store.instancesDir).Fits (diskName p.machine)
  disk : ∀ p ∈ pins, ∃ b c, fs.node? (diskName p.machine :: Store.instancesDir :: r) = some (.file b c)
  record : ∀ p ∈ pins, ∃ b, fs.node? (recordName p.machine :: Store.instancesDir :: r) =
    some (.file b (.ofText (p.tag ++ "\n")))
  only : ∀ name, fs.node? (name :: Store.instancesDir :: r) ≠ none →
    (∃ machine, isValidName machine = true ∧ name = diskName machine) ∨
      ∃ p ∈ pins, name = recordName p.machine
  free : ∀ name, fs.node? (name :: Store.instancesDir :: r) ≠ some .dir

theorem mem_machinesOn {pins : List Pin} {tag machine : String} :
    machine ∈ machinesOn pins tag ↔ ∃ p ∈ pins, p.tag = tag ∧ p.machine = machine := by
  simp [machinesOn, and_assoc]

theorem nameLE_trans (a b c : String) (h : FileSystem.nameLE a b = true)
    (h' : FileSystem.nameLE b c = true) : FileSystem.nameLE a c = true :=
  decide_eq_true (String.le_trans (of_decide_eq_true h) (of_decide_eq_true h'))

theorem nameLE_total (a b : String) :
    (FileSystem.nameLE a b || FileSystem.nameLE b a) = true := by
  rw [Bool.or_eq_true]
  exact (String.le_total a b).imp decide_eq_true decide_eq_true

theorem nameLE_antisymm {a b : String} (h : FileSystem.nameLE a b = true)
    (h' : FileSystem.nameLE b a = true) : a = b :=
  String.le_antisymm (of_decide_eq_true h) (of_decide_eq_true h')

theorem pairwise_machinesOn {pins : List Pin} (h : (pins.map Pin.machine).Nodup) (tag : String) :
    (machinesOn pins tag).Pairwise (· < ·) := by
  have hnodup : (machinesOn pins tag).Nodup :=
    ((List.mergeSort_perm _ _).nodup_iff).mpr (h.sublist (List.filter_sublist.map _))
  have hsorted := List.pairwise_mergeSort nameLE_trans nameLE_total
    ((pins.filter fun p => p.tag = tag).map Pin.machine)
  exact (hsorted.and hnodup).imp fun {a b} hab =>
    lt_of_le_of_ne (of_decide_eq_true hab.1) hab.2

theorem nodup_eraseDups [BEq α] [LawfulBEq α] (as : List α) : as.eraseDups.Nodup := by
  induction hn : as.length using Nat.strong_induction_on generalizing as with
  | _ n ih =>
    cases as with
    | nil => exact List.nodup_nil
    | cons a as =>
      have hlen := List.length_filter_le (fun b => !b == a) as
      rw [List.eraseDups_cons, List.nodup_cons]
      refine ⟨?_, ih _ ?_ _ rfl⟩
      · rw [List.mem_eraseDups]
        simp
      · rw [List.length_cons] at hn
        omega

theorem mapM_eq_ok {f : α → Except ε β} {g : α → β} {as : List α} (h : ∀ a ∈ as, f a = .ok (g a)) :
    as.mapM f = .ok (as.map g) := by
  induction as with
  | nil => rfl
  | cons a as ih =>
    rw [List.mapM_cons, h a List.mem_cons_self, ih fun b hb => h b (List.mem_cons_of_mem _ hb)]
    rfl

/-- each element is mapped to a result, and each result is that of an element -/
theorem mem_of_mapM_eq_ok {f : α → Except ε β} {as : List α} {bs : List β} (h : as.mapM f = .ok bs) :
    (∀ a ∈ as, ∃ b ∈ bs, f a = .ok b) ∧ ∀ b ∈ bs, ∃ a ∈ as, f a = .ok b := by
  induction as generalizing bs with
  | nil =>
    cases h
    exact ⟨nofun, nofun⟩
  | cons a as ih =>
    rw [List.mapM_cons] at h
    cases hf : f a with
    | error e =>
      rw [hf] at h
      cases h
    | ok b =>
      rw [hf] at h
      cases hm : as.mapM f with
      | error e =>
        rw [hm] at h
        cases h
      | ok bs' =>
        rw [hm] at h
        cases h
        obtain ⟨hleft, hright⟩ := ih hm
        constructor
        · intro a' ha'
          rcases List.mem_cons.mp ha' with rfl | ha'
          · exact ⟨b, List.mem_cons_self, hf⟩
          · obtain ⟨b', hb', hf'⟩ := hleft a' ha'
            exact ⟨b', List.mem_cons_of_mem _ hb', hf'⟩
        · intro b' hb'
          rcases List.mem_cons.mp hb' with rfl | hb'
          · exact ⟨a, List.mem_cons_self, hf⟩
          · obtain ⟨a', ha', hf'⟩ := hright b' hb'
            exact ⟨a', List.mem_cons_of_mem _ ha', hf'⟩

/-- where the directory of machines is, the machines on a tag are read from its files -/
theorem Store.instancesOf_eq_bind {s : Store} {fs : FileSystem} {d : Trail} (tag : String)
    (hdir : fs.lookup (s.root.join instancesDir) = .ok (d, .dir)) :
    s.instancesOf fs tag = (fs.children d).mapM (s.machineOf? fs tag) >>= fun machines =>
      .ok ((machines.filterMap id).mergeSort FileSystem.nameLE) := by
  have hread : fs.readDirectory (s.root.join instancesDir) = .ok (fs.children d) := by
    rw [FileSystem.readDirectory, hdir]
    rfl
  rw [instancesOf, hread]
  rfl

section
variable {s : Store} {r : Trail} {pins : List Pin} {fs fs' : FileSystem}

theorem Recorded.eq_of_machine (h : Recorded s r pins fs) {p q : Pin} (hp : p ∈ pins) (hq : q ∈ pins)
    (he : p.machine = q.machine) : p = q := List.inj_on_of_nodup_map h.nodup hp hq he

/-- the machine that a file in the directory records as one on a tag -/
def recordedOn (pins : List Pin) (tag file : String) : Option String :=
  ((pins.filter fun p => p.tag = tag).find? fun p => recordName p.machine = file).map Pin.machine

theorem recordedOn_eq_some {tag file machine : String} (h : recordedOn pins tag file = some machine) :
    (∃ p ∈ pins, p.tag = tag ∧ p.machine = machine) ∧ file = recordName machine := by
  obtain ⟨p, hp, rfl⟩ := Option.map_eq_some_iff.mp h
  have hmem := List.mem_of_find?_eq_some hp
  have hfile := List.find?_some hp
  rw [List.mem_filter] at hmem
  exact ⟨⟨p, hmem.1, of_decide_eq_true hmem.2, rfl⟩, (of_decide_eq_true hfile).symm⟩

theorem recordedOn_recordName {p : Pin} (h : Recorded s r pins fs) (hp : p ∈ pins) (tag : String) :
    recordedOn pins tag (recordName p.machine) = if p.tag = tag then some p.machine else none := by
  cases ho : recordedOn pins tag (recordName p.machine) with
  | some machine =>
    obtain ⟨⟨q, hq, htag, rfl⟩, hname⟩ := recordedOn_eq_some ho
    rw [h.eq_of_machine hp hq (recordName_injective hname), if_pos htag]
  | none =>
    rw [if_neg]
    intro htag
    rw [recordedOn, Option.map_eq_none_iff, List.find?_eq_none] at ho
    exact ho p (List.mem_filter.mpr ⟨hp, decide_eq_true htag⟩) (decide_eq_true rfl)

theorem FileSystem.readText_join {dir : Path} {d : Trail} {name text : String} {b : Nat}
    (h : fs.lookup dir = .ok (d, .dir)) (hn : IsPlain name.toList) (hf : dir.Fits name)
    (hnode : fs.node? (name :: d) = some (.file b (.ofText text))) :
    fs.readText (dir.join name) = .ok text := by
  rw [readText, readContent, lookup_join h hn, if_pos hf, hnode]
  simp only [ok_bind, Content.text?_ofText]

/-- the machine of an entry in the directory -/
theorem Recorded.machineOf?_eq (h : Recorded s r pins fs) (hs : s.StandsAt r fs) (tag : String)
    {file : String} (hfile : fs.node? (file :: Store.instancesDir :: r) ≠ none) :
    s.machineOf? fs tag file = .ok (recordedOn pins tag file) := by
  have hdir := hs Store.instancesDir (by simp [Store.directories])
  obtain ⟨machine, hv, rfl⟩ | ⟨p, hp, rfl⟩ := h.only file hfile
  · rw [Store.machineOf?, recordedMachine?_diskName hv]
    cases ho : recordedOn pins tag (diskName machine) with
    | none => rfl
    | some machine => exact absurd (recordedOn_eq_some ho).2 (diskName_ne_recordName _ _)
  · have hv := h.machine p hp
    have hbase := (FileSystem.lookup_eq_dir.mp hdir).1.ne_nil
    obtain ⟨b, hrecord⟩ := h.record p hp
    have hdisk : fs.isFile (s.instancePath p.machine) = true :=
      (FileSystem.isFile_join hdir (isPlain_diskName hv)).mpr ⟨h.fits p hp, h.disk p hp⟩
    have hread := FileSystem.readText_join hdir (isPlain_recordName hv)
      (fits_recordName hv hbase (h.fits p hp)) hrecord
    rw [Store.machineOf?, recordedMachine?_recordName hv]
    dsimp only
    rw [if_pos hdisk, hread]
    dsimp only
    rw [trim_line (h.tag p hp), recordedOn_recordName h hp]

/-- The machines on a tag are those of the table. -/
theorem Recorded.instancesOf_eq (h : Recorded s r pins fs) (hs : s.StandsAt r fs) (tag : String) :
    s.instancesOf fs tag = .ok (machinesOn pins tag) := by
  have hfiles : ∀ file ∈ fs.children (Store.instancesDir :: r),
      s.machineOf? fs tag file = .ok (recordedOn pins tag file) := fun file hfile =>
    h.machineOf?_eq hs tag (FileSystem.mem_children.mp hfile)
  rw [Store.instancesOf_eq_bind tag (hs Store.instancesDir (by simp [Store.directories])),
    mapM_eq_ok hfiles, ok_bind, machinesOn]
  congr 1
  have hfilter : ((fs.children (Store.instancesDir :: r)).map (recordedOn pins tag)).filterMap id =
      (fs.children (Store.instancesDir :: r)).filterMap (recordedOn pins tag) := by
    rw [List.filterMap_map]
    rfl
  rw [hfilter]
  -- both lists hold the same names, each once
  have hperm : ((fs.children (Store.instancesDir :: r)).filterMap (recordedOn pins tag)).Perm
      ((pins.filter fun p => p.tag = tag).map Pin.machine) := by
    rw [List.perm_ext_iff_of_nodup]
    · intro machine
      rw [List.mem_filterMap]
      constructor
      · rintro ⟨file, -, hfile⟩
        obtain ⟨⟨p, hp, htag, rfl⟩, -⟩ := recordedOn_eq_some hfile
        exact List.mem_map_of_mem (List.mem_filter.mpr ⟨hp, decide_eq_true htag⟩)
      · intro hmem
        obtain ⟨p, hp, rfl⟩ := List.mem_map.mp hmem
        obtain ⟨hp, htag⟩ := List.mem_filter.mp hp
        obtain ⟨b, hrecord⟩ := h.record p hp
        refine ⟨recordName p.machine, FileSystem.mem_children.mpr (by rw [hrecord]; simp), ?_⟩
        rw [recordedOn_recordName h hp, if_pos (of_decide_eq_true htag)]
    · refine List.Nodup.filterMap (fun file file' machine hf hf' => ?_) ?_
      · rw [(recordedOn_eq_some hf).2, (recordedOn_eq_some hf').2]
      · exact ((List.mergeSort_perm _ _).nodup_iff).mpr (nodup_eraseDups _)
    · exact h.nodup.sublist (List.filter_sublist.map _)
  refine List.Perm.eq_of_pairwise (fun a b _ _ hab hba => nameLE_antisymm hab hba)
    (List.pairwise_mergeSort nameLE_trans nameLE_total _)
    (List.pairwise_mergeSort nameLE_trans nameLE_total _) ?_
  exact (List.mergeSort_perm _ _).trans (hperm.trans (List.mergeSort_perm _ _).symm)

end

end DiskLayers
