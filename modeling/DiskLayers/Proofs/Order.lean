import DiskLayers.Proofs.Cache
import DiskLayers.Proofs.Footprints

/-!
# Order in a store

* `Store.fileTrails`              where the files of keys stand
* `Store.Orderly`                 a store that is there, with no directory where a file belongs and no
                                  machines
* `Backend.MakesNoDirectories`    a backend that leaves no directory where a disk belongs

Whatever comes of a build, what it leaves is in order if what it found was: `Orderly.of_happens` says so
of a moment, `Orderly.build` of a build, `Orderly.runBuilds` of builds one after the other.
-/

namespace DiskLayers
open DiskLayers.Path

namespace Store

def fileTrails (r : Trail) : Set Trail :=
  {t | ∃ (kind : LayerKind) (name : String),
    t = name :: lockDir kind :: r ∨ t = name :: lockDir kind :: locksDir :: r}

/-- A store is there, reached by paths from the same directory as ever, no directory stands where a file
belongs and no file where the locks lie, and there are no machines. -/
structure Orderly (s : Store) (r : Trail) (current : Path) (fs : FileSystem) : Prop where
  stands : s.StandsAt r fs
  here : fs.currentPath = current
  files : ∀ t ∈ fileTrails r, fs.node? t ≠ some .dir
  locks : ∀ kind b c, fs.node? (lockDir kind :: locksDir :: r) ≠ some (.file b c)
  machines : ∀ name, fs.node? (name :: instancesDir :: r) = none

theorem lockDir_ne_locksDir (kind : LayerKind) : lockDir kind ≠ locksDir := by
  cases kind <;> decide

theorem lockDir_ne_instancesDir (kind : LayerKind) : lockDir kind ≠ instancesDir := by
  cases kind <;> decide

/-- the locks themselves lie deeper, or elsewhere -/
theorem lockPlace_not_mem_fileTrails {r : Trail} {dir : String} (hd : dir = locksDir ∨ dir = instancesDir)
    (name : String) : name :: dir :: r ∉ fileTrails r := by
  rintro ⟨kind, n, ht | ht⟩
  · have hdir := (List.cons.inj (List.cons.inj ht).2).1
    rcases hd with rfl | rfl
    · exact lockDir_ne_locksDir kind hdir.symm
    · exact lockDir_ne_instancesDir kind hdir.symm
  · simpa using congrArg List.length ht

/-- an empty store is in order -/
theorem IsEmpty.orderly {s : Store} {r : Trail} {fs : FileSystem} (h : s.IsEmpty fs)
    (hs : s.StandsAt r fs) (hwf : fs.WellFormed) :
    s.Orderly r fs.currentPath fs := by
  have hnone : ∀ {dir}, dir ∈ directories → ∀ name, fs.node? (name :: dir :: r) = none :=
    fun hd => h.node? hs hd
  have hlocks : ∀ kind, fs.node? (lockDir kind :: locksDir :: r) = none := fun kind =>
    hnone (by simp [directories]) _
  refine ⟨hs, rfl, ?_, fun kind b c => by rw [hlocks]; simp, hnone (by simp [directories])⟩
  rintro t ⟨kind, name, rfl | rfl⟩
  · rw [hnone (lockDir_mem_directories kind)]
    simp
  · intro hdir
    have habove := hwf name _ (by rw [hdir]; simp)
    rw [hlocks] at habove
    cases habove

theorem StandsAt.eq_trail {s : Store} {r : Trail} {fs : FileSystem} (h : s.StandsAt r fs)
    (ha : s.root.isAbsolute = true) : r = s.root.trail :=
  FileSystem.eq_trail_of_trail? ha (FileSystem.lookup_eq_ok.mp (h.root ha)).1

namespace Orderly
variable {s : Store} {r : Trail} {current : Path} {fs fs' : FileSystem}

theorem tidy (h : s.Orderly r current fs) : LocksTidy r fs :=
  ⟨h.locks, fun kind name => h.files _ ⟨kind, name, Or.inr rfl⟩⟩

theorem of_files (h : s.Orderly r current fs) (hsame : ∀ t ∉ fileTrails r, fs'.node? t = fs.node? t)
    (hfiles : ∀ t ∈ fileTrails r, fs'.node? t = some .dir → fs.node? t = some .dir)
    (hcur : fs'.current = fs.current) : s.Orderly r current fs' := by
  have hw : FileSystem.Within (fileTrails r) fs fs' := by
    refine ⟨hsame, fun t ht => ?_, hcur⟩
    rw [hsame t fun hmem => h.files t hmem ht]
    exact ht
  refine ⟨h.stands.within hw, ?_, fun t ht hdir => h.files t ht (hfiles t ht hdir),
    fun kind b c => ?_, fun name => ?_⟩
  · rw [← h.here, FileSystem.currentPath, hcur, FileSystem.currentPath]
  · rw [hsame _ (lockPlace_not_mem_fileTrails (Or.inl rfl) _)]
    exact h.locks kind b c
  · rw [hsame _ (lockPlace_not_mem_fileTrails (Or.inr rfl) _)]
    exact h.machines name

theorem trail_mem (h : s.Orderly r current fs) (ha : s.root.isAbsolute = true) {file : Path}
    (hf : file ∈ s.buildFiles) : file.trail ∈ fileTrails r := by
  obtain ⟨kind, name, hv, hfile⟩ := hf
  have hplain := isPlain_lockDir kind
  have hlocks : IsPlain locksDir.toList := isPlain_of_mem_directories (by simp [directories])
  rw [h.stands.eq_trail ha]
  rcases hfile with rfl | rfl | rfl
  · exact ⟨kind, _, Or.inl (by rw [trail_join _ (isPlain_diskName hv), trail_join _ hplain])⟩
  · exact ⟨kind, _, Or.inl (by rw [trail_join _ (isPlain_markerName hv), trail_join _ hplain])⟩
  · exact ⟨kind, _, Or.inr (by
      rw [lockName, trail_join _ (isPlain_lockFile hv), trail_join _ hplain, trail_join _ hlocks])⟩

theorem of_file {file : Path} {t : Trail} (h : s.Orderly r current fs) (ha : s.root.isAbsolute = true)
    (hf : file ∈ s.buildFiles) (ht : t = file.trail) (hw : FileSystem.Within {t} fs fs')
    (hdir : fs'.node? t = some .dir → fs.node? t = some .dir) : s.Orderly r current fs' := by
  have hmem : t ∈ fileTrails r := ht ▸ h.trail_mem ha hf
  refine h.of_files (fun u hu => hw.same u fun e => hu ?_) (fun u _ hu => ?_) hw.current
  · rw [Set.mem_singleton_iff.mp e]
    exact hmem
  · by_cases e : u = t
    · rw [e] at hu ⊢
      exact hdir hu
    · rwa [hw.same u e] at hu

/-- a directory of the store is made: it is there, or it is one for locks -/
theorem of_makeDirectories {dir : Path} (h : s.Orderly r current fs) (ha : s.root.isAbsolute = true)
    (hd : dir ∈ s.made) : s.Orderly r current (fs.makeDirectories dir).2 := by
  have hthere : ∀ dir ∈ directories, fs.makeDirectories (s.root.join dir) = (.ok (), fs) :=
    fun dir hd => FileSystem.makeDirectories_of_lookup (h.stands.root ha)
      (isPlain_of_mem_directories hd) (h.stands dir hd)
  have hlocks : ∀ kind, s.Orderly r current (fs.makeDirectories (s.lockPlace (lockDir kind))).2 := by
    intro kind
    have hplain := isPlain_lockDir kind
    rw [lockPlace, FileSystem.makeDirectories_join h.stands.locks hplain]
    split
    case isFalse => exact h
    cases hnode : fs.node? (lockDir kind :: locksDir :: r) with
    | some n => cases n <;> exact h
    | none =>
      have hw := FileSystem.Within.of_set_dir (List.cons_ne_nil _ _) hnode
      have hnot : lockDir kind :: locksDir :: r ∉ fileTrails r :=
        lockPlace_not_mem_fileTrails (Or.inl rfl) _
      refine ⟨h.stands.within hw, h.here, fun t ht => ?_, fun kind' b c => ?_, fun name => ?_⟩
      · rw [hw.same t fun e => hnot (Set.mem_singleton_iff.mp e ▸ ht)]
        exact h.files t ht
      · dsimp only
        rw [FileSystem.node?_set fs (List.cons_ne_nil _ _)]
        split
        · simp
        · exact h.locks kind' b c
      · have hne : name :: instancesDir :: r ≠ lockDir kind :: locksDir :: r := fun e =>
          absurd (List.cons.inj (List.cons.inj e).2).1 (by decide)
        rw [hw.same _ hne]
        exact h.machines name
  have hsame : ∀ dir ∈ directories, s.Orderly r current (fs.makeDirectories (s.root.join dir)).2 :=
    fun dir hd => by
      rw [hthere dir hd]
      exact h
  rcases hd with hd | rfl
  · simp only [places, List.mem_cons, List.not_mem_nil, or_false] at hd
    rcases hd with rfl | rfl | rfl | rfl | rfl
    · exact hsame _ (by simp [directories])
    · exact hsame _ (by simp [directories])
    · exact hsame _ (by simp [directories])
    · exact hlocks .base
    · exact hlocks .tag
  · exact hsame _ (by simp [directories])

end Orderly

end Store

/-- A backend that leaves no directory where a disk belongs, but maybe some file, or none. -/
def Backend.MakesNoDirectories (backend : Backend σ) : Prop :=
  ∀ c p, c.target? = some p → ∀ tools fs t, FileSystem.trail? fs p = .ok t →
    (backend c tools fs).2.2.node? t = some .dir → fs.node? t = some .dir

namespace Store.Orderly
variable {σ : Type} {backend : Backend σ} {s : Store} {r : Trail} {current : Path} (ha : s.root.isAbsolute = true)
  (hb : backend.Confined) (hd : backend.MakesNoDirectories)
include ha hb hd

/-- No moment of a build disturbs the order. -/
theorem of_happens {m : Moment} (h : s.Orderly r current m.before)
    (hm : m.Happens backend Call.target? s.buildFiles s.made) (he : m.event ≠ .waited) :
    s.Orderly r current m.after := by
  have hleads : ∀ {file : Path} {fs : FileSystem} {t : Trail}, file ∈ s.buildFiles →
      fs.trail? file = .ok t → t = file.trail := fun hf ht => FileSystem.eq_trail_of_trail?
    (Store.isAbsolute_of_mem_inside ha (Store.buildFiles_subset hf)) ht
  cases hm with
  | @call c target tools fs hc hp =>
    refine h.of_files (fun t ht => hb.same hc tools fs t fun hl => ht ?_) (fun t _ hdir => ?_)
      (hb.current hc tools fs)
    · rw [hleads hp hl]
      exact h.trail_mem ha hp
    · by_cases hl : fs.trail? target = .ok t
      · exact hd c target hc tools fs t hl hdir
      · rwa [hb.same hc tools fs t hl] at hdir
  | write hp hw =>
    obtain ⟨t, b, ht, hwithin, hnode⟩ := FileSystem.within_of_write hw
    exact h.of_file ha hp (hleads hp ht) hwithin fun hdir => by rw [hnode] at hdir; cases hdir
  | @remove file fs fs' hp hr =>
    rw [FileSystem.remove] at hr
    cases hl : fs.lookup file with
    | error e =>
      rw [hl] at hr
      cases hr
    | ok found =>
      obtain ⟨t, n⟩ := found
      rw [hl] at hr
      cases n with
      | dir => cases hr
      | file b c =>
        cases hr
        obtain ⟨ht, hnode, -⟩ := FileSystem.lookup_eq_ok.mp hl
        have hgone := FileSystem.node?_unname_eq fs hnode
        refine h.of_file ha hp (hleads hp ht) (.of_update (by rw [hnode]; simp) hgone
          (FileSystem.current_unname fs t)) fun hdir => ?_
        dsimp only at hdir
        rw [hgone, Function.update_self] at hdir
        cases hdir
  | «open» hp ho =>
    obtain ⟨ht, hwithin, c, hnode⟩ := FileSystem.within_of_open ho
    exact h.of_file ha hp (hleads hp ht) hwithin fun hdir => by rw [hnode] at hdir; cases hdir
  | @take file ref text fs hp ht =>
    -- bytes in a file leave it a file
    refine h.of_file ha hp ht (FileSystem.within_setContent fs ref _) fun hdir => ?_
    dsimp only at hdir
    rw [FileSystem.setContent] at hdir
    split at hdir
    · next b c hnode =>
      split at hdir
      · rw [FileSystem.node?_set fs (by rintro e; rw [e] at hnode; cases hnode), if_pos rfl] at hdir
        cases hdir
      · exact hdir
    · exact hdir
  | release => exact h
  | make _ hdir => exact h.of_makeDirectories ha hdir
  | wait => exact absurd rfl he

/-- What a build does leaves order behind, if the others leave the files alone. -/
theorem of_proceeds {w w' : World σ} (h : s.Orderly r current w.files) (hu : w.Undisturbed)
    (hw : w.Proceeds backend Call.target? s.buildFiles s.made w') : s.Orderly r current w'.files := by
  obtain ⟨ms, -, hlink, hms, hwait⟩ := hw.moments
  have hwaits := hwait hu
  clear hwait
  generalize w.files = fs at h hlink
  generalize w'.files = fs' at hlink
  induction ms generalizing fs with
  | nil =>
    have he : fs' = fs := hlink
    rwa [he]
  | cons m ms ih =>
    obtain ⟨hbefore, hrest⟩ := hlink
    refine ih (fun m' hm' => hms m' (List.mem_cons_of_mem m hm'))
      (fun m' hm' => hwaits m' (List.mem_cons_of_mem m hm')) m.after ?_ hrest
    rw [← hbefore] at h
    by_cases he : m.event = .waited
    · rwa [hwaits m List.mem_cons_self he]
    · exact h.of_happens ha hb hd (hms m List.mem_cons_self) he

/-- Builds leave order behind.  By induction on the history. -/
theorem runBuilds {bs : List BuildRequest} {w : World σ} (h : s.Orderly r current w.files)
    (hu : w.Undisturbed) (hroot : ∀ b ∈ bs, b.config.storeRoot.absolute? current = some s.root) :
    s.Orderly r current (runBuilds backend bs w).files := by
  induction bs generalizing w with
  | nil => exact h
  | cons b bs ih =>
    have hopen : Store.openReadOnly w.files b.config.storeRoot = .ok s := by
      rw [Store.openReadOnly, h.here, hroot b List.mem_cons_self]
    have hw := build_proceeds backend hopen b.ops b.tag
    exact ih (h.of_proceeds ha hb hd hu hw) (hw.undisturbed hu)
      fun b' hb' => hroot b' (List.mem_cons_of_mem b hb')

end Store.Orderly

end DiskLayers
