import DiskLayers.Proofs.Kinds
import DiskLayers.Proofs.Opening
import DiskLayers.Proofs.SafeKeys

/-!
# What a store is listed as

* `Store.listBy`           the listing, where a directory is read in any order
* `FileSystem.OnlyFiles`   a directory holds nothing but files, or is not there
* `Store.Lists`            what a disk is listed as, by its file
* `StoredDisk.Before`      layers before tags, then by the bytes of the names

Names are compared by their characters; `utf8Bytes_lt_iff` says that their bytes compare the same.  No two
disks that are listed have one rank (`Lists.eq_of_name`), so that sorting them gives one list, whatever order
they were found in.
-/

namespace DiskLayers
open DiskLayers.Path DiskLayers.Text

/-! ## the order of bytes -/

/-- numbers are compared by their digits, of which there are four to the base 64 -/
theorem lt_digits {m n : Nat} (h : m < n) :
    m / 262144 < n / 262144 ∨ m / 262144 = n / 262144 ∧ (m / 4096 % 64 < n / 4096 % 64 ∨
      m / 4096 % 64 = n / 4096 % 64 ∧ (m / 64 % 64 < n / 64 % 64 ∨
        m / 64 % 64 = n / 64 % 64 ∧ m % 64 < n % 64)) := by
  have digits : ∀ k, k = 262144 * (k / 262144) + 4096 * (k / 4096 % 64) + 64 * (k / 64 % 64) + k % 64 := by
    omega
  have small : ∀ k, k % 64 < 64 := fun k => Nat.mod_lt k (by decide)
  have hm := digits m
  have hn := digits n
  have h1 := small (n / 4096)
  have h2 := small (n / 64)
  have h3 := small n
  generalize m / 262144 = a at *
  generalize n / 262144 = a' at *
  generalize m / 4096 % 64 = b at *
  generalize n / 4096 % 64 = b' at *
  generalize m / 64 % 64 = e at *
  generalize n / 64 % 64 = e' at *
  generalize m % 64 = g at *
  generalize n % 64 = g' at *
  omega

/-- the bytes of a smaller character are smaller, whatever comes behind -/
theorem utf8EncodeChar_append_lt {c d : Char} (h : c < d) (xs ys : List UInt8) :
    String.utf8EncodeChar c ++ xs < String.utf8EncodeChar d ++ ys := by
  have hlt : c.val.toNat < d.val.toNat := h
  have hd : d.val.toNat < 1114112 := by
    rcases d.valid with hv | hv
    · exact Nat.lt_trans hv (by decide)
    · exact hv.2
  have hof : ∀ {m n : Nat}, UInt8.ofNat m < UInt8.ofNat n ↔ m % 256 < n % 256 := fun {m n} => by
    rw [UInt8.lt_iff_toNat_lt, UInt8.toNat_ofNat', UInt8.toNat_ofNat']
  have heq : ∀ {m n : Nat}, UInt8.ofNat m = UInt8.ofNat n ↔ m % 256 = n % 256 := fun {m n} => by
    rw [← UInt8.toNat_inj, UInt8.toNat_ofNat', UInt8.toNat_ofNat']
  simp only [String.utf8EncodeChar]
  generalize c.val.toNat = m at hlt ⊢
  generalize d.val.toNat = n at hlt hd ⊢
  -- no byte overflows: those behind the first begin with 10, the first one tells how many there are
  have h2 : ∀ k, (k % 64 + 128) % 256 = k % 64 + 128 := by omega
  have h3 : ∀ k, (k % 32 + 192) % 256 = k % 32 + 192 := by omega
  have h4 : ∀ k, (k % 16 + 224) % 256 = k % 16 + 224 := by omega
  have h5 : ∀ k, k < 1114112 → (k / 262144 % 8 + 240) % 256 = k / 262144 + 240 := by omega
  have hdigits := lt_digits hlt
  split_ifs <;> simp only [List.cons_append, List.cons_lt_cons_iff, hof, heq, h2, h3, h4,
    h5 m (Nat.lt_trans hlt hd), h5 n hd] <;> omega

theorem flatMap_utf8EncodeChar_lt {cs ds : List Char} (h : cs < ds) :
    cs.flatMap String.utf8EncodeChar < ds.flatMap String.utf8EncodeChar := by
  induction ds generalizing cs with
  | nil => exact absurd h (List.not_lt_nil cs)
  | cons d ds ih =>
    cases cs with
    | nil =>
      have hne : String.utf8EncodeChar d ≠ [] := String.utf8EncodeChar_ne_nil
      obtain ⟨x, xs, hx⟩ := List.exists_cons_of_ne_nil hne
      rw [List.flatMap_cons, hx]
      exact List.nil_lt_cons _ _
    | cons c cs =>
      rw [List.flatMap_cons, List.flatMap_cons]
      rcases List.cons_lt_cons_iff.mp h with hc | ⟨rfl, hcs⟩
      · exact utf8EncodeChar_append_lt hc _ _
      · exact List.append_left_lt (ih hcs)

/-- texts are in the order of their bytes -/
theorem utf8Bytes_lt_iff {s t : String} : utf8Bytes s < utf8Bytes t ↔ s < t := by
  have hlt : ∀ {s t : String}, s < t → utf8Bytes s < utf8Bytes t := fun {s t} h => by
    rw [utf8Bytes_eq, utf8Bytes_eq]
    exact flatMap_utf8EncodeChar_lt (String.lt_iff_toList_lt.mp h)
  refine ⟨fun h => ?_, hlt⟩
  rcases lt_trichotomy s t with hst | rfl | hst
  · exact hst
  · exact absurd h (List.lt_irrefl _)
  · exact absurd h (List.lt_asymm (hlt hst))

/-! ## a listing in any order -/

namespace Store

/-- the disks in a directory, whose names are read in some order -/
def scanBy (order : Path → List String → List String) (fs : FileSystem) (dir : Path) (tags : Bool) :
    Except StoreError (List StoredDisk) :=
  match fs.readDirectory dir with
  | .error e => if e = .notFound then .ok [] else .error (.io "read" dir e)
  | .ok files => .ok ((order dir files).filterMap (storedDisk? fs dir tags))

/-- all layers and tags, where the names in each directory are read in some order -/
def listBy (order : Path → List String → List String) (s : Store) (fs : FileSystem) :
    Except StoreError (List StoredDisk) := do
  let layers ← scanBy order fs (s.root.join layersDir) false
  let tags ← scanBy order fs (s.root.join tagsDir) true
  return (layers ++ tags).mergeSort StoredDisk.le

theorem scan_eq_scanBy (fs : FileSystem) (dir : Path) (tags : Bool) :
    scan fs dir tags = scanBy (fun _ names => names) fs dir tags := by
  unfold scan scanBy
  cases fs.readDirectory dir <;> rfl

theorem list_eq_listBy (s : Store) (fs : FileSystem) :
    s.list fs = s.listBy (fun _ names => names) fs := by
  rw [list, listBy, scan_eq_scanBy, scan_eq_scanBy]

/-- the directory of tags or of layers -/
def diskDir (tags : Bool) : String := if tags then tagsDir else layersDir

theorem isPlain_diskDir (tags : Bool) : IsPlain (diskDir tags).toList := by
  cases tags
  · exact isPlain_of_mem_directories (by simp [diskDir, directories])
  · exact isPlain_of_mem_directories (by simp [diskDir, directories])

end Store

instance (name : List Char) : Decidable (IsPlain name) :=
  decidable_of_iff (name ≠ [] ∧ '/' ∉ name ∧ '\x00' ∉ name ∧ name ≠ ['.'] ∧ name ≠ ['.', '.'])
    ⟨fun ⟨hne, hs, hz, hd, hdd⟩ => ⟨hne, hs, hz, hd, hdd⟩,
      fun h => ⟨h.ne_nil, h.no_slash, h.no_nul, h.ne_dot, h.ne_dots⟩⟩

namespace FileSystem
variable {fs : FileSystem} {dir : Path} {d : Trail}

/-- a file under a name that directories take -/
def IsNamedFile (name : String) (node : Node) : Prop :=
  node.isFile = true ∧ IsPlain name.toList ∧ byteCount name.toList ≤ maxNameLength

instance (name : String) (node : Node) : Decidable (IsNamedFile name node) := instDecidableAnd

def OnlyFiles (fs : FileSystem) (dir : Path) : Prop :=
  fs.lookup dir = .error .notFound ∨ ∃ d, fs.lookup dir = .ok (d, .dir) ∧
    ∀ name node, fs.node? (name :: d) = some node → IsNamedFile name node

theorem mem_nodes_of_node? {name : String} {node : Node} (h : fs.node? (name :: d) = some node) :
    (name :: d, node) ∈ fs.nodes := by
  rw [node?, if_neg (List.cons_ne_nil _ _), List.lookup_eq_some_iff] at h
  obtain ⟨before, behind, hnodes, -⟩ := h
  rw [hnodes]
  exact List.mem_append_right _ List.mem_cons_self

theorem OnlyFiles.of_nodes (hdir : fs.lookup dir = .ok (d, .dir))
    (h : ∀ e ∈ fs.nodes, e.1.tail = d → ∀ name ∈ e.1.head?, IsNamedFile name e.2) : fs.OnlyFiles dir :=
  Or.inr ⟨d, hdir, fun _ _ hnode => h _ (mem_nodes_of_node? hnode) rfl _ rfl⟩

end FileSystem

/-! ## what is listed of a file -/

/-- A disk is listed as the file that bears its name: with the path and the size of the file, of the kind that the
directory and the name tell, and as complete if no marker stands next to it. -/
structure Store.Lists (s : Store) (fs : FileSystem) (tags : Bool) (disk : StoredDisk) : Prop where
  named : disk.name ≠ ""
  file : ∃ d b content, fs.lookup (s.root.join (diskDir tags)) = .ok (d, .dir) ∧
    fs.node? (diskName disk.name :: d) = some (.file b content) ∧ disk.size = content.size
  path : disk.path = (s.root.join (diskDir tags)).join (diskName disk.name)
  kind : disk.kind = if tags then .tag else if IsShortHash disk.name then .derived else .base
  complete : disk.complete = true ↔ fs.isPresent (Layer.markerOf disk.path) = false

def StoredDisk.Before (a b : StoredDisk) : Prop :=
  (a.kind ≠ .tag ∧ b.kind = .tag) ∨
    ((a.kind = .tag ↔ b.kind = .tag) ∧ utf8Bytes a.name < utf8Bytes b.name)

theorem storedName?_eq_some_iff {file name : String} (hp : IsPlain file.toList) :
    Store.storedName? file = some name ↔ name ≠ "" ∧ file = diskName name := by
  refine Iff.trans ?_ (@splitExtension_iff ⟨file⟩ file name diskFormat
    (properName?_of_isPlain hp) (by decide) (by decide))
  rw [Store.storedName?]
  split
  · next h => exact (and_iff_right h).symm
  · next h =>
    refine ⟨fun hnone => ?_, fun hname => absurd hname.1 h⟩
    cases hnone

theorem storedKind_eq (tags : Bool) (name : String) :
    Store.storedKind tags name = if tags then .tag else if IsShortHash name then .derived else .base := by
  rw [Store.storedKind]
  congr 1
  exact if_congr Identity.isDigest_iff rfl rfl

theorem storedDisk?_eq_some_iff {fs : FileSystem} {dir : Path} {tags : Bool} {file : String} {disk : StoredDisk}
    (hp : IsPlain file.toList) :
    Store.storedDisk? fs dir tags file = some disk ↔ disk.name ≠ "" ∧ file = diskName disk.name ∧
      disk.kind = Store.storedKind tags disk.name ∧ disk.path = dir.join file ∧
      disk.size = (fs.sizeIn? dir file).getD 0 ∧
      disk.complete = !fs.isPresent (Layer.markerOf (dir.join file)) := by
  rw [Store.storedDisk?, Option.map_eq_some_iff]
  constructor
  · rintro ⟨name, hname, rfl⟩
    obtain ⟨hne, hfile⟩ := (storedName?_eq_some_iff hp).mp hname
    dsimp only
    exact ⟨hne, hfile, rfl, rfl, rfl, rfl⟩
  · obtain ⟨name, kind, path, size, complete⟩ := disk
    dsimp only
    rintro ⟨hne, hfile, hkind, hpath, hsize, hcomplete⟩
    refine ⟨name, (storedName?_eq_some_iff hp).mpr ⟨hne, hfile⟩, ?_⟩
    rw [hkind, hpath, hsize, hcomplete]

theorem FileSystem.sizeIn?_of_node? {fs : FileSystem} {dir : Path} {d : Trail} {name : String} {node : Node}
    (hdir : fs.lookup dir = .ok (d, .dir)) (h : fs.node? (name :: d) = some node) :
    fs.sizeIn? dir name = some node.size := by
  rw [sizeIn?, hdir]
  dsimp only
  rw [h, Option.map_some]

namespace Store.Lists
variable {s : Store} {fs : FileSystem} {tags : Bool} {disk disk' : StoredDisk}

theorem kind_iff (h : s.Lists fs tags disk) : disk.kind = .tag ↔ tags = true := by
  rw [h.kind]
  cases tags with
  | true => exact iff_of_true rfl rfl
  | false =>
    rw [if_neg Bool.false_ne_true]
    refine iff_of_false ?_ Bool.false_ne_true
    split <;> decide

/-- what a disk is listed as is known from its name -/
theorem eq_of_name (h : s.Lists fs tags disk) (h' : s.Lists fs tags disk') (hn : disk.name = disk'.name) :
    disk = disk' := by
  obtain ⟨d, b, content, hdir, hfile, hsize⟩ := h.file
  obtain ⟨d', b', content', hdir', hfile', hsize'⟩ := h'.file
  rw [hdir] at hdir'
  cases hdir'
  rw [← hn, hfile] at hfile'
  cases hfile'
  have hpath : disk.path = disk'.path := by rw [h.path, h'.path, hn]
  have hcomplete : disk.complete = disk'.complete := by
    rw [Bool.eq_iff_iff, h.complete, h'.complete, hpath]
  have hkind : disk.kind = disk'.kind := by rw [h.kind, h'.kind, hn]
  cases disk
  cases disk'
  simp_all

end Store.Lists

section
variable {s : Store} {fs : FileSystem} {tags : Bool} {d : Trail}
  (hdir : fs.lookup (s.root.join (Store.diskDir tags)) = .ok (d, .dir))
  (hfiles : ∀ name node, fs.node? (name :: d) = some node → FileSystem.IsNamedFile name node)
include hdir hfiles

/-- the files of a directory that have the name of a disk are listed, and nothing else -/
theorem mem_filterMap_storedDisk? {disk : StoredDisk} :
    disk ∈ (fs.children d).filterMap (Store.storedDisk? fs (s.root.join (Store.diskDir tags)) tags) ↔
      s.Lists fs tags disk := by
  rw [List.mem_filterMap]
  constructor
  · rintro ⟨file, hmem, hdisk⟩
    obtain ⟨node, hnode⟩ := Option.ne_none_iff_exists'.mp (FileSystem.mem_children.mp hmem)
    obtain ⟨hisFile, hplain, -⟩ := hfiles file node hnode
    obtain ⟨hne, rfl, hkind, hpath, hsize, hcomplete⟩ := (storedDisk?_eq_some_iff hplain).mp hdisk
    cases node with
    | dir => cases hisFile
    | file b content =>
      rw [FileSystem.sizeIn?_of_node? hdir hnode] at hsize
      refine ⟨hne, ⟨d, b, content, hdir, hnode, hsize⟩, hpath, hkind.trans (storedKind_eq _ _), ?_⟩
      rw [hcomplete, hpath, Bool.not_eq_true']
  · rintro ⟨hne, ⟨d', b, content, hdir', hnode, hsize⟩, hpath, hkind, hcomplete⟩
    rw [hdir] at hdir'
    cases hdir'
    have hmem : diskName disk.name ∈ fs.children d := FileSystem.mem_children.mpr (by rw [hnode]; simp)
    obtain ⟨-, hplain, -⟩ := hfiles _ _ hnode
    refine ⟨_, hmem, (storedDisk?_eq_some_iff hplain).mpr
      ⟨hne, rfl, hkind.trans (storedKind_eq _ _).symm, hpath, ?_, ?_⟩⟩
    · rw [FileSystem.sizeIn?_of_node? hdir hnode]
      exact hsize
    · rw [Bool.eq_iff_iff, hcomplete, hpath, Bool.not_eq_true']

omit hdir in
theorem nodup_filterMap_storedDisk? :
    ((fs.children d).filterMap
      (Store.storedDisk? fs (s.root.join (Store.diskDir tags)) tags)).Nodup := by
  have hnodup : (fs.children d).Nodup := ((List.mergeSort_perm _ _).nodup_iff).mpr (nodup_eraseDups _)
  have hname : ∀ file ∈ fs.children d, ∀ disk,
      Store.storedDisk? fs (s.root.join (Store.diskDir tags)) tags file = some disk →
        file = diskName disk.name := fun file hmem disk hdisk => by
    obtain ⟨node, hnode⟩ := Option.ne_none_iff_exists'.mp (FileSystem.mem_children.mp hmem)
    exact ((storedDisk?_eq_some_iff (hfiles file node hnode).2.1).mp hdisk).2.1
  refine List.pairwise_filterMap.mpr (hnodup.imp_of_mem fun {a b} ha hb hne disk hdisk disk' hdisk' heq => ?_)
  exact hne ((hname a ha disk hdisk).trans (heq ▸ (hname b hb disk' hdisk').symm))

end

/-- what is found in a directory, in whatever order it is read -/
theorem exists_scanBy (s : Store) (fs : FileSystem) (tags : Bool)
    (h : fs.OnlyFiles (s.root.join (Store.diskDir tags))) :
    ∃ found : List StoredDisk, found.Nodup ∧ (∀ disk, disk ∈ found ↔ s.Lists fs tags disk) ∧
      ∀ order : Path → List String → List String, (∀ dir names, (order dir names).Perm names) →
        ∃ found', Store.scanBy order fs (s.root.join (Store.diskDir tags)) tags = .ok found' ∧
          found'.Perm found := by
  rcases h with hnone | ⟨d, hdir, hfiles⟩
  · refine ⟨[], List.nodup_nil, fun disk => ⟨fun hmem => (nomatch hmem), fun hlists => ?_⟩, fun order _ =>
      ⟨[], ?_, .nil⟩⟩
    · obtain ⟨d, b, content, hdir, -⟩ := hlists.file
      rw [hnone] at hdir
      cases hdir
    · rw [Store.scanBy, FileSystem.readDirectory, hnone]
      exact if_pos rfl
  · refine ⟨_, nodup_filterMap_storedDisk? hfiles, fun disk => mem_filterMap_storedDisk? hdir hfiles,
      fun order horder => ⟨_, ?_, (horder (s.root.join (Store.diskDir tags)) (fs.children d)).filterMap _⟩⟩
    rw [Store.scanBy, FileSystem.readDirectory, hdir]
    rfl

/-! ## the order of the listing -/

namespace StoredDisk

theorem le_iff {a b : StoredDisk} : le a b = true ↔
    (a.kind ≠ .tag ∧ b.kind = .tag) ∨ ((a.kind = .tag ↔ b.kind = .tag) ∧ a.name ≤ b.name) := by
  rw [le]
  by_cases ha : a.kind = .tag <;> by_cases hb : b.kind = .tag <;> simp [ha, hb, FileSystem.nameLE]

theorem le_trans (a b c : StoredDisk) (h : le a b = true) (h' : le b c = true) : le a c = true := by
  rw [le_iff] at *
  rcases h with ⟨ha, hb⟩ | ⟨hab, hn⟩ <;> rcases h' with ⟨hb', hc⟩ | ⟨hbc, hn'⟩
  · exact absurd hb hb'
  · exact Or.inl ⟨ha, hbc.mp hb⟩
  · exact Or.inl ⟨fun ha => hb' (hab.mp ha), hc⟩
  · exact Or.inr ⟨hab.trans hbc, String.le_trans hn hn'⟩

theorem le_total (a b : StoredDisk) : (le a b || le b a) = true := by
  rw [Bool.or_eq_true, le_iff, le_iff]
  by_cases ha : a.kind = .tag <;> by_cases hb : b.kind = .tag
  · exact (String.le_total a.name b.name).imp (fun h => Or.inr ⟨iff_of_true ha hb, h⟩)
      fun h => Or.inr ⟨iff_of_true hb ha, h⟩
  · exact Or.inr (Or.inl ⟨hb, ha⟩)
  · exact Or.inl (Or.inl ⟨ha, hb⟩)
  · exact (String.le_total a.name b.name).imp (fun h => Or.inr ⟨iff_of_false ha hb, h⟩)
      fun h => Or.inr ⟨iff_of_false hb ha, h⟩

end StoredDisk

namespace Store.Lists
variable {s : Store} {fs : FileSystem} {tags tags' : Bool} {a b : StoredDisk}

theorem eq_of_rank (ha : s.Lists fs tags a) (hb : s.Lists fs tags' b) (hk : a.kind = .tag ↔ b.kind = .tag)
    (hn : a.name = b.name) : a = b := by
  rw [ha.kind_iff, hb.kind_iff] at hk
  obtain rfl : tags = tags' := Bool.eq_iff_iff.mpr hk
  exact ha.eq_of_name hb hn

theorem le_antisymm (ha : s.Lists fs tags a) (hb : s.Lists fs tags' b) (h : StoredDisk.le a b = true)
    (h' : StoredDisk.le b a = true) : a = b := by
  rw [StoredDisk.le_iff] at h h'
  rcases h with ⟨ha', hb'⟩ | ⟨hk, hn⟩ <;> rcases h' with ⟨hb'', ha''⟩ | ⟨hk', hn'⟩
  · exact absurd hb' hb''
  · exact absurd (hk'.mp hb') ha'
  · exact absurd (hk.mp ha'') hb''
  · exact ha.eq_of_rank hb hk (String.le_antisymm hn hn')

theorem before (ha : s.Lists fs tags a) (hb : s.Lists fs tags' b) (h : StoredDisk.le a b = true)
    (hne : a ≠ b) : a.Before b := by
  refine (StoredDisk.le_iff.mp h).imp_right fun ⟨hk, hn⟩ => ⟨hk, ?_⟩
  exact utf8Bytes_lt_iff.mpr (lt_of_le_of_ne hn fun he => hne (ha.eq_of_rank hb hk he))

end Store.Lists

/-- Whatever order the two directories are read in, the listing is one list of what there is to be listed, sorted
without repetition. -/
theorem exists_listBy {s : Store} {fs : FileSystem} (hl : fs.OnlyFiles (s.root.join Store.layersDir))
    (ht : fs.OnlyFiles (s.root.join Store.tagsDir)) :
    ∃ disks : List StoredDisk, disks.Pairwise StoredDisk.Before ∧
      (∀ disk, disk ∈ disks ↔ ∃ tags, s.Lists fs tags disk) ∧
      ∀ order : Path → List String → List String, (∀ dir names, (order dir names).Perm names) →
        s.listBy order fs = .ok disks := by
  obtain ⟨layers, hlnodup, hlmem, hlscan⟩ := exists_scanBy s fs false hl
  obtain ⟨tags, htnodup, htmem, htscan⟩ := exists_scanBy s fs true ht
  have hmem : ∀ disk, disk ∈ layers ++ tags ↔ ∃ tags, s.Lists fs tags disk := fun disk => by
    rw [List.mem_append, hlmem, htmem, Bool.exists_bool]
  have hnodup : (layers ++ tags).Nodup := by
    refine List.nodup_append.mpr ⟨hlnodup, htnodup, fun a ha b hb he => ?_⟩
    have htag := ((htmem b).mp hb).kind_iff.mpr rfl
    rw [← he] at htag
    exact Bool.false_ne_true (((hlmem a).mp ha).kind_iff.mp htag)
  have hperm := List.mergeSort_perm (layers ++ tags) StoredDisk.le
  have hsorted := List.pairwise_mergeSort StoredDisk.le_trans StoredDisk.le_total (layers ++ tags)
  refine ⟨(layers ++ tags).mergeSort StoredDisk.le, ?_, fun disk => List.mem_mergeSort.trans (hmem disk),
    fun order horder => ?_⟩
  · refine (hsorted.and (hperm.nodup_iff.mpr hnodup)).imp_of_mem fun {a b} ha hb hab => ?_
    obtain ⟨_, hla⟩ := (hmem a).mp (List.mem_mergeSort.mp ha)
    obtain ⟨_, hlb⟩ := (hmem b).mp (List.mem_mergeSort.mp hb)
    exact hla.before hlb hab.1 hab.2
  · obtain ⟨layers', hlayers, hpl⟩ := hlscan order horder
    obtain ⟨tags', htags, hpt⟩ := htscan order horder
    have hp : ((layers' ++ tags').mergeSort StoredDisk.le).Perm ((layers ++ tags).mergeSort StoredDisk.le) :=
      (List.mergeSort_perm _ _).trans ((hpl.append hpt).trans hperm.symm)
    change Store.scanBy order fs (s.root.join Store.layersDir) false = .ok layers' at hlayers
    change Store.scanBy order fs (s.root.join Store.tagsDir) true = .ok tags' at htags
    rw [Store.listBy, hlayers, htags]
    refine congrArg Except.ok (List.Perm.eq_of_pairwise (fun a b ha hb => ?_)
      (List.pairwise_mergeSort StoredDisk.le_trans StoredDisk.le_total _) hsorted hp)
    obtain ⟨_, hla⟩ := (hmem a).mp (List.mem_mergeSort.mp (hp.subset ha))
    obtain ⟨_, hlb⟩ := (hmem b).mp (List.mem_mergeSort.mp hb)
    exact hla.le_antisymm hlb

/-! ## complete disks -/

namespace Store.Lists
variable {s : Store} {fs : FileSystem} {tags : Bool} {disk : StoredDisk}

/-- A layer at a path that is listed is complete if the disk is listed so and the path can be looked at; the listing
itself does not look at the path of the disk. -/
theorem isComplete_iff (h : s.Lists fs tags disk) (ho : fs.OnlyFiles (s.root.join (diskDir tags))) {l : Layer}
    (hl : l.location = disk.path) :
    l.isComplete fs = true ↔
      disk.complete = true ∧ byteCount disk.path.chars ≤ FileSystem.maxPathLength := by
  obtain ⟨d, b, content, hdir, hnode, -⟩ := h.file
  obtain ⟨-, hplain, hshort⟩ : FileSystem.IsNamedFile (diskName disk.name) (.file b content) := by
    rcases ho with hnone | ⟨d', hdir', hfiles⟩
    · rw [hdir] at hnone
      cases hnone
    · rw [hdir] at hdir'
      cases hdir'
      exact hfiles _ _ hnode
  have hfile : fs.isFile disk.path = true ↔ byteCount disk.path.chars ≤ FileSystem.maxPathLength := by
    rw [h.path, FileSystem.isFile_join hdir hplain]
    exact ⟨fun hf => hf.1.2, fun hlen => ⟨⟨hshort, hlen⟩, b, content, hnode⟩⟩
  have hmarked : l.isMarked fs = fs.isPresent (Layer.markerOf disk.path) := by
    rw [Layer.isMarked, Layer.marker, hl]
  rw [Layer.isComplete, hl, hmarked, Bool.and_eq_true, hfile, h.complete, Bool.not_eq_true', and_comm]

/-- a tag that is complete is listed -/
theorem of_isComplete {name : String} (hv : isValidName name = true)
    (hc : (s.tagNamed name).isComplete fs = true) :
    ∃ disk, s.Lists fs true disk ∧ disk.name = name := by
  rw [Layer.isComplete, Bool.and_eq_true] at hc
  obtain ⟨hfile, -⟩ := hc
  have hplain := isPlain_diskName hv
  obtain ⟨t, node, hlookup⟩ : ∃ t node, fs.lookup (s.tagPath name) = .ok (t, node) := by
    change fs.isFile (s.tagPath name) = true at hfile
    rw [FileSystem.isFile] at hfile
    split at hfile
    · next t node hlookup => exact ⟨t, node, hlookup⟩
    · cases hfile
  obtain ⟨d, hdir, -⟩ := FileSystem.lookup_of_lookup_join_join (isPlain_diskDir true) hplain hlookup
  obtain ⟨-, b, content, hnode⟩ := (FileSystem.isFile_join hdir hplain).mp hfile
  obtain ⟨complete, hcomplete⟩ : ∃ complete : Bool,
      complete = true ↔ fs.isPresent (Layer.markerOf (s.tagPath name)) = false :=
    ⟨!fs.isPresent (Layer.markerOf (s.tagPath name)), by rw [Bool.not_eq_true']⟩
  exact ⟨⟨name, .tag, s.tagPath name, content.size, complete⟩,
    ⟨valid_ne_empty hv, ⟨d, b, content, hdir, hnode, rfl⟩, rfl, rfl, hcomplete⟩, rfl⟩

end Store.Lists

/-- Of a store whose two directories hold nothing but files, one list is told, whatever order the directories are
read in.  It is sorted, with nothing twice: layers before tags, then by the bytes of the names.  It says of each
file with the name of a disk what there is to say, and of nothing else.  A disk is listed as complete if no marker
stands next to it; so a layer at its path is complete just if the disk is listed so and the path is not too long
to be looked at, and a tag is found just if such a disk is listed for it. -/
theorem listing_exact (s : Store) (fs : FileSystem) (hl : fs.OnlyFiles (s.root.join Store.layersDir))
    (ht : fs.OnlyFiles (s.root.join Store.tagsDir)) :
    ∃ disks : List StoredDisk, s.list fs = .ok disks ∧
      (∀ order : Path → List String → List String, (∀ dir names, (order dir names).Perm names) →
        s.listBy order fs = .ok disks) ∧
      disks.Pairwise StoredDisk.Before ∧
      (∀ disk, disk ∈ disks ↔ ∃ tags, s.Lists fs tags disk) ∧
      (∀ disk ∈ disks, ∀ l : Layer, l.location = disk.path → (l.isComplete fs = true ↔
        disk.complete = true ∧ byteCount disk.path.chars ≤ FileSystem.maxPathLength)) ∧
      ∀ name, isValidName name = true → ∃ found, s.tagLayer fs name = .ok found ∧
        (found.isSome = true ↔ ∃ disk ∈ disks, disk.kind = .tag ∧ disk.name = name ∧
          disk.complete = true ∧ byteCount disk.path.chars ≤ FileSystem.maxPathLength) := by
  obtain ⟨disks, hsorted, hmem, horder⟩ := exists_listBy hl ht
  have honly : ∀ tags, fs.OnlyFiles (s.root.join (Store.diskDir tags)) := Bool.rec hl ht
  refine ⟨disks, ?_, horder, hsorted, hmem, fun disk hdisk l hloc => ?_, fun name hv => ?_⟩
  · rw [s.list_eq_listBy]
    exact horder _ fun _ names => .refl names
  · obtain ⟨tags, hlists⟩ := (hmem disk).mp hdisk
    exact hlists.isComplete_iff (honly tags) hloc
  · refine ⟨_, if_pos hv, ?_⟩
    have hsome : (if (s.tagNamed name).isComplete fs then some (s.tagNamed name) else none).isSome = true ↔
        (s.tagNamed name).isComplete fs = true := by
      split
      · next hc => exact iff_of_true rfl hc
      · next hc => exact iff_of_false (by decide) hc
    rw [hsome]
    constructor
    · intro hc
      obtain ⟨disk, hlists, rfl⟩ := Store.Lists.of_isComplete hv hc
      exact ⟨disk, (hmem disk).mpr ⟨true, hlists⟩, hlists.kind_iff.mpr rfl, rfl,
        (hlists.isComplete_iff ht hlists.path.symm).mp hc⟩
    · rintro ⟨disk, hdisk, hkind, rfl, hcomplete⟩
      obtain ⟨tags, hlists⟩ := (hmem disk).mp hdisk
      obtain rfl := hlists.kind_iff.mp hkind
      exact (hlists.isComplete_iff ht hlists.path.symm).mpr hcomplete

/-- A store with odd names: a disk of a layer that is named by dots, a file with nothing before the extension, a marker
without a disk, and two tags of which one is not finished. -/
def oddFiles : FileSystem where
  nodes := [([Store.layersDir], .dir), ([Store.tagsDir], .dir), (["...qcow2", Store.layersDir], .file 0 .empty),
    ([".qcow2", Store.layersDir], .file 1 .empty), (["é.incomplete", Store.layersDir], .file 2 .empty),
    (["b.c.qcow2", Store.tagsDir], .file 3 (.ofText "disk")), (["web.qcow2", Store.tagsDir], .file 4 .empty),
    (["web.incomplete", Store.tagsDir], .file 5 .empty)]
  births := 6

/-- The store is listed so when its directories are read backwards, too; of its tags the one that is finished is listed
as complete. -/
theorem listing_exact_odd :
    oddFiles.OnlyFiles ((⟨"/"⟩ : Path).join Store.layersDir) ∧
      oddFiles.OnlyFiles ((⟨"/"⟩ : Path).join Store.tagsDir) ∧
      ∃ disks, Store.list ⟨⟨"/"⟩⟩ oddFiles = .ok disks ∧
        Store.listBy (fun _ names => names.reverse) ⟨⟨"/"⟩⟩ oddFiles = .ok disks ∧
        disks.Pairwise StoredDisk.Before ∧
        (∃ disk ∈ disks, disk.kind = .tag ∧ disk.name = "b.c" ∧ disk.complete = true) ∧
        ¬ ∃ disk ∈ disks, disk.kind = .tag ∧ disk.name = "web" ∧ disk.complete = true ∧
          byteCount disk.path.chars ≤ FileSystem.maxPathLength := by
  have hl : oddFiles.OnlyFiles ((⟨"/"⟩ : Path).join Store.layersDir) :=
    .of_nodes (d := [Store.layersDir]) (by decide +kernel) (by decide +kernel)
  have ht : oddFiles.OnlyFiles ((⟨"/"⟩ : Path).join Store.tagsDir) :=
    .of_nodes (d := [Store.tagsDir]) (by decide +kernel) (by decide +kernel)
  obtain ⟨disks, hlist, horder, hsorted, -, -, htag⟩ := listing_exact ⟨⟨"/"⟩⟩ oddFiles hl ht
  refine ⟨hl, ht, disks, hlist, horder _ fun _ names => names.reverse_perm, hsorted, ?_, ?_⟩
  · obtain ⟨found, hfound, hiff⟩ := htag "b.c" (by decide +kernel)
    have hsome : (Store.tagLayer ⟨⟨"/"⟩⟩ oddFiles "b.c").toOption.join.isSome = true := by decide +kernel
    rw [hfound] at hsome
    obtain ⟨disk, hdisk, hkind, hname, hcomplete, -⟩ := hiff.mp hsome
    exact ⟨disk, hdisk, hkind, hname, hcomplete⟩
  · obtain ⟨found, hfound, hiff⟩ := htag "web" (by decide +kernel)
    have hnone : (Store.tagLayer ⟨⟨"/"⟩⟩ oddFiles "web").toOption.join.isSome = false := by decide +kernel
    rw [hfound] at hnone
    exact fun hdisk => Bool.false_ne_true (hnone.symm.trans (hiff.mpr hdisk))

/-! ## a path that is too long -/

/-- down into a directory and up again, a number of times -/
def climbing (count : Nat) : List Char := (List.replicate count ['/', 'd', '/', '.', '.']).flatten

theorem climbing_succ (count : Nat) : climbing (count + 1) = climbing count ++ '/' :: ['d', '/', '.', '.'] := by
  rw [climbing, List.replicate_succ', List.flatten_concat]
  rfl

theorem byteCount_climbing (count : Nat) : byteCount (climbing count) = 5 * count := by
  induction count with
  | zero => rfl
  | succ count ih =>
    have hstep : byteCount ('/' :: ['d', '/', '.', '.']) = 5 := by decide
    rw [climbing_succ, byteCount_append, ih, hstep]
    omega

theorem front_climbing (count : Nat) : front (climbing (count + 1)) = climbing (count + 1) := by
  have hlast : ('/' :: ['d', '/', '.', '.']).getLast? = some '.' := by decide
  refine if_neg ?_
  rw [climbing_succ, List.getLast?_append, hlast, Option.some_or]
  decide

theorem names_climbing (count : Nat) :
    names (climbing count) = (List.replicate count [['d'], ['.', '.']]).flatten := by
  induction count with
  | zero => rfl
  | succ count ih =>
    have hstep : names ['d', '/', '.', '.'] = [['d'], ['.', '.']] := by decide
    rw [climbing_succ, names_append, ih, hstep, List.replicate_succ', List.flatten_concat]

theorem nul_not_mem_climbing (count : Nat) : '\x00' ∉ climbing count := by
  rw [climbing, List.mem_flatten]
  rintro ⟨cs, hcs, hc⟩
  rw [List.eq_of_mem_replicate hcs] at hc
  revert hc
  decide

namespace FileSystem
variable {fs : FileSystem} (h : fs.node? ["d"] = some .dir)
include h

theorem walk_climbing (count : Nat) :
    fs.walk [] (List.replicate count [['d'], ['.', '.']]).flatten = .ok [] := by
  have hdown : fs.descend? [] ['d'] = .ok ["d"] := descend?_eq_ok.mpr ⟨by decide, h⟩
  have hup : fs.descend? ["d"] ['.', '.'] = .ok [] := descend?_eq_ok.mpr ⟨rfl, rfl⟩
  induction count with
  | zero => rfl
  | succ count ih =>
    rw [List.replicate_succ, List.flatten_cons, walk, List.foldlM_append, List.foldlM_cons, hdown, ok_bind,
      List.foldlM_cons, hup, ok_bind]
    exact ih

theorem lookup_climbing (count : Nat) (hc : 5 * (count + 1) ≤ maxPathLength) :
    fs.lookup (ofChars (climbing (count + 1))) = .ok ([], .dir) := by
  have hstart : fs.start (ofChars (climbing (count + 1))) = [] := by
    refine if_pos (decide_eq_true ?_)
    rw [chars_ofChars]
    rfl
  refine lookup_eq_dir.mpr ⟨⟨?_, ?_, ?_⟩, ?_, rfl⟩
  · rw [chars_ofChars, climbing_succ]
    exact List.append_ne_nil_of_right_ne_nil _ (List.cons_ne_nil _ _)
  · rw [chars_ofChars]
    exact nul_not_mem_climbing _
  · rw [chars_ofChars, byteCount_climbing]
    exact hc
  · rw [hstart, chars_ofChars, names_climbing]
    exact walk_climbing h _

end FileSystem

/-- a path that is longer for a directory and a name in it -/
theorem byteCount_join_climbing (count : Nat) {dir name : String} (hd : IsPlain dir.toList) (hn : IsPlain name.toList) :
    byteCount ((ofChars (climbing (count + 1))).join dir).chars = 5 * (count + 1) + 1 + byteCount dir.toList ∧
      byteCount (((ofChars (climbing (count + 1))).join dir).join name).chars =
        5 * (count + 1) + 1 + byteCount dir.toList + 1 + byteCount name.toList := by
  have hroot : (ofChars (climbing (count + 1))).chars ≠ [] := by
    rw [chars_ofChars, climbing_succ]
    exact List.append_ne_nil_of_right_ne_nil _ (List.cons_ne_nil _ _)
  have hslash : ∀ cs, byteCount ('/' :: cs) = 1 + byteCount cs := fun cs => rfl
  have hdir : byteCount ((ofChars (climbing (count + 1))).join dir).chars =
      5 * (count + 1) + 1 + byteCount dir.toList := by
    rw [chars_join, joinChars_eq hroot hd, chars_ofChars, front_climbing, byteCount_append, hslash,
      byteCount_climbing]
    omega
  refine ⟨hdir, ?_⟩
  rw [chars_join, joinChars_eq (by rw [chars_join]; exact joinChars_ne_nil hd) hn]
  have hfront : front ((ofChars (climbing (count + 1))).join dir).chars =
      ((ofChars (climbing (count + 1))).join dir).chars := by
    rw [chars_join, front_joinChars hroot hd]
  rw [hfront, byteCount_append, hslash, hdir]
  omega

/-- a store whose directories can be looked at, but not a file of a long name in them -/
def deepStore : Store := ⟨ofChars (climbing 768)⟩

/-- as long as the name of a disk can be -/
def longName : String := String.ofList (List.replicate 249 'a')

/-- one tag in a store -/
def deepFiles : FileSystem where
  nodes := [(["d"], .dir), ([Store.layersDir], .dir), ([Store.tagsDir], .dir),
    ([diskName longName, Store.tagsDir], .file 0 .empty)]
  births := 1

theorem lookup_deepStore (tags : Bool) :
    deepFiles.lookup (deepStore.root.join (Store.diskDir tags)) = .ok ([Store.diskDir tags], .dir) := by
  have hroot : deepFiles.lookup deepStore.root = .ok ([], .dir) :=
    FileSystem.lookup_climbing (by decide) 767 (by decide)
  have hplain := Store.isPlain_diskDir tags
  have hfits : deepStore.root.Fits (Store.diskDir tags) := by
    have hlen := (byteCount_join_climbing 767 hplain hplain).1
    refine ⟨?_, ?_⟩
    · cases tags <;> decide
    · rw [deepStore, hlen]
      cases tags <;> decide
  rw [FileSystem.lookup_join hroot hplain, if_pos hfits]
  cases tags <;> rfl

theorem isValidName_replicate (count : Nat) :
    isValidName (String.ofList (List.replicate (count + 1) 'a')) = true := by
  have hchar : isNameChar 'a' = true := by decide
  simp [isValidName, List.replicate_succ, hchar]

theorem isValidName_longName : isValidName longName = true := isValidName_replicate 248

theorem byteCount_replicate (count : Nat) (c : Char) :
    byteCount (List.replicate count c) = count * c.utf8Size := by
  induction count with
  | zero => simp [byteCount_nil]
  | succ count ih => rw [List.replicate_succ, byteCount_cons, ih, Nat.succ_mul, Nat.add_comm]

theorem byteCount_longName : byteCount longName.toList = 249 := by
  have hlist : longName.toList = List.replicate 249 'a' := String.toList_ofList
  rw [hlist, byteCount_replicate]
  decide

theorem byteCount_diskName_longName : byteCount (diskName longName).toList = 255 := by
  rw [toList_diskName, byteCount_append, byteCount_longName]
  decide

/-- the marker of a disk with that name cannot be looked at anywhere -/
theorem not_fits_longName (p : Path) : ¬ p.Fits (markerName longName) := by
  have hlen : byteCount (markerName longName).toList = 260 := by
    rw [toList_markerName, byteCount_append, byteCount_longName]
    decide
  rw [Fits, hlen]
  exact fun h => absurd h.1 (by decide)

theorem node?_deepFiles :
    deepFiles.node? [diskName longName, Store.tagsDir] = some (.file 0 .empty) := by
  simp [FileSystem.node?, deepFiles, List.lookup_cons]

theorem onlyFiles_deepStore (tags : Bool) :
    deepFiles.OnlyFiles (deepStore.root.join (Store.diskDir tags)) := by
  refine .of_nodes (lookup_deepStore tags) fun e he htail name hname => ?_
  simp only [deepFiles, List.mem_cons, List.not_mem_nil, or_false] at he
  rcases he with rfl | rfl | rfl | rfl
  · cases htail
  · cases htail
  · cases htail
  · obtain rfl := Option.some.inj hname
    exact ⟨rfl, isPlain_diskName isValidName_longName, byteCount_diskName_longName.le⟩

/-- A tag that is listed as complete and cannot be found: its file is there and no marker is, but its path is too long
to be looked at. -/
theorem listed_complete_not_found :
    deepFiles.OnlyFiles (deepStore.root.join Store.layersDir) ∧
      deepFiles.OnlyFiles (deepStore.root.join Store.tagsDir) ∧ isValidName longName = true ∧
      ∃ disks, deepStore.list deepFiles = .ok disks ∧
        ∃ disk ∈ disks, disk.kind = .tag ∧ disk.name = longName ∧ disk.complete = true ∧
          (∀ l : Layer, l.location = disk.path → l.isComplete deepFiles = false) ∧
          deepStore.tagLayer deepFiles longName = .ok none := by
  have hv := isValidName_longName
  have hdir : deepFiles.lookup (deepStore.root.join Store.tagsDir) = .ok ([Store.tagsDir], .dir) :=
    lookup_deepStore true
  have hlong : ¬ byteCount (deepStore.tagPath longName).chars ≤ FileSystem.maxPathLength := by
    have hlen := (byteCount_join_climbing 767 (Store.isPlain_diskDir true) (isPlain_diskName hv)).2
    rw [byteCount_diskName_longName] at hlen
    show ¬ byteCount (((ofChars (climbing (767 + 1))).join (Store.diskDir true)).join
      (diskName longName)).chars ≤ FileSystem.maxPathLength
    rw [hlen]
    decide
  have hunmarked : deepFiles.isPresent (Layer.markerOf (deepStore.tagPath longName)) = false := by
    rw [Store.tagPath, ← Bool.not_eq_true, markerOf_join hv (FileSystem.lookup_eq_dir.mp hdir).1.ne_nil,
      FileSystem.isPresent_join hdir (isPlain_markerName hv)]
    exact fun h => not_fits_longName _ h.1
  have hlists : deepStore.Lists deepFiles true ⟨longName, .tag, deepStore.tagPath longName, 0, true⟩ :=
    ⟨valid_ne_empty hv, ⟨_, 0, .empty, hdir, node?_deepFiles, rfl⟩, rfl, rfl, iff_of_true rfl hunmarked⟩
  have habsent : ∀ l : Layer, l.location = deepStore.tagPath longName → l.isComplete deepFiles = false :=
    fun l hl => by
      rw [← Bool.not_eq_true, hlists.isComplete_iff (onlyFiles_deepStore true) hl]
      exact fun h => hlong h.2
  obtain ⟨disks, -, hmem, horder⟩ := exists_listBy (onlyFiles_deepStore false) (onlyFiles_deepStore true)
  have hlist : deepStore.list deepFiles = .ok disks := by
    rw [Store.list_eq_listBy]
    exact horder _ fun _ names => .refl names
  have htag : deepStore.tagLayer deepFiles longName = .ok none := by
    rw [Store.tagLayer, if_pos hv]
    dsimp only
    rw [habsent (deepStore.tagNamed longName) rfl]
    rfl
  exact ⟨onlyFiles_deepStore false, onlyFiles_deepStore true, hv, disks, hlist,
    ⟨longName, .tag, deepStore.tagPath longName, 0, true⟩, (hmem _).mpr ⟨true, hlists⟩, rfl, rfl, rfl, habsent, htag⟩

end DiskLayers
