import DiskLayers.Proofs.Machines

/-!
# Launching and destroying machines, and taking tags away

* `Backend.Sparing`         machines write to their own disks only
* `FileSystem.Rewritten`    a file has other bytes, perhaps, and nothing else has changed
* `Store.instanceTrails`    the disk of a machine and its record
* `Launched`, `Destroyed`, `Untagged`
                            what comes of the three operations

`ends_launch`, `ends_destroy` and `ends_removeTag` say that nothing else can come of them: a launch
that fails leaves no record, and a tag that a machine runs on stays.
-/

namespace DiskLayers
open DiskLayers.Path

/-! ## what machines do to files -/

/-- The bytes of the file at a trail have changed, if there is one, and nothing else. -/
structure FileSystem.Rewritten (t : Trail) (fs fs' : FileSystem) : Prop where
  within : FileSystem.Within {t} fs fs'
  entry : fs'.node? t = fs.node? t ∨
    (∃ b c, fs.node? t = some (.file b c)) ∧ ∃ b c, fs'.node? t = some (.file b c)

namespace FileSystem.Rewritten
variable {t : Trail} {fs fs' : FileSystem}

theorem refl (t : Trail) (fs : FileSystem) : Rewritten t fs fs := ⟨.refl _ _, Or.inl rfl⟩

theorem file (h : Rewritten t fs fs') (hf : ∃ b c, fs.node? t = some (.file b c)) :
    ∃ b c, fs'.node? t = some (.file b c) := by
  rcases h.entry with he | ⟨-, he⟩
  · rw [he]
    exact hf
  · exact he

theorem ne_dir (h : Rewritten t fs fs') {u : Trail} (hu : fs.node? u ≠ some .dir) :
    fs'.node? u ≠ some .dir := by
  by_cases hut : u = t
  · rw [hut] at hu ⊢
    rcases h.entry with he | ⟨-, b, c, he⟩
    · rw [he]
      exact hu
    · rw [he]
      simp
  · rw [h.within.same u hut]
    exact hu

theorem ne_none (h : Rewritten t fs fs') {u : Trail} (hu : fs'.node? u ≠ none) :
    fs.node? u ≠ none := by
  by_cases hut : u = t
  · rw [hut] at hu ⊢
    rcases h.entry with he | ⟨⟨b, c, he⟩, -⟩
    · rw [← he]
      exact hu
    · rw [he]
      simp
  · rw [← h.within.same u hut]
    exact hu

end FileSystem.Rewritten

/-- the disk of the machine that a call is about -/
def Call.machineDisk? (s : Store) : Call → Option Path
  | .createMachine disk _ => some disk
  | .attachMachine name | .destroyMachine name => some (s.instancePath name)
  | .materialize _ _ _ | .snapshot _ _ | .execute _ _ => none

/-- A backend whose machines write to their own disks and to no other file, and which makes no
directories where their disks should be. -/
structure Backend.Sparing (backend : Backend σ) (s : Store) : Prop where
  same : ∀ {c : Call} {disk : Path}, c.machineDisk? s = some disk → ∀ tools fs t,
    (backend c tools fs).2.2.node? t = fs.node? t ∨ fs.trail? disk = .ok t ∧
      (∃ b c, fs.node? t = some (.file b c)) ∧
        ∃ b c', (backend c tools fs).2.2.node? t = some (.file b c')
  current : ∀ {c : Call} {disk : Path}, c.machineDisk? s = some disk → ∀ tools fs,
    (backend c tools fs).2.2.current = fs.current
  plain : ∀ {parent : Path} {name : String} (tools fs t),
    (backend (.snapshot parent (s.instancePath name)) tools fs).2.2.node? t = some .dir →
      fs.node? t = some .dir

/-- a call about a machine changes its disk and nothing else -/
theorem Backend.Sparing.rewritten {backend : Backend σ} {s : Store} (h : backend.Sparing s)
    {c : Call} {dir : Path} {name : String} {d : Trail} {fs : FileSystem} {tools : σ}
    (hc : c.machineDisk? s = some (dir.join name)) (hdir : fs.lookup dir = .ok (d, .dir))
    (hn : IsPlain name.toList) : fs.Rewritten (name :: d) (backend c tools fs).2.2 := by
  have htrail : ∀ t, fs.trail? (dir.join name) = .ok t → t = name :: d := by
    intro t ht
    rw [FileSystem.trail?_join hdir hn] at ht
    split at ht
    · cases ht
      rfl
    · cases ht
  refine ⟨⟨fun t ht => ?_, fun t ht => ?_, h.current hc tools fs⟩, ?_⟩
  · rcases h.same hc tools fs t with hsame | ⟨he, -⟩
    · exact hsame
    · exact absurd (htrail t he) ht
  · rcases h.same hc tools fs t with hsame | ⟨-, ⟨b, content, hf⟩, -⟩
    · rw [hsame]
      exact ht
    · rw [hf] at ht
      cases ht
  · rcases h.same hc tools fs (name :: d) with hsame | ⟨-, hf, hf'⟩
    · exact Or.inl hsame
    · exact Or.inr ⟨hf, hf'⟩

/-- machines that do not run at all write to nothing -/
theorem Backend.sparing_refusing (refuses : List Call → Call → Bool) (s : Store) :
    (Backend.refusing refuses).Sparing s := by
  have hquiet : ∀ (c : Call) (disk : Path), c.machineDisk? s = some disk → ∀ past fs,
      (Backend.refusing refuses c past fs).2.2 = fs := by
    intro c disk hc past fs
    have hnone : c.target? = none := by
      cases c with
      | createMachine _ _ => rfl
      | attachMachine _ => rfl
      | destroyMachine _ => rfl
      | materialize _ _ _ => cases hc
      | snapshot _ _ => cases hc
      | execute _ _ => cases hc
    rcases Backend.refusing_cases refuses c past fs with ⟨-, h⟩ | ⟨-, h⟩
    · exact h
    · rw [h, Backend.touching, hnone]
  refine ⟨fun hc past fs t => Or.inl (by rw [hquiet _ _ hc]), fun hc past fs => by
    rw [hquiet _ _ hc], fun {parent name} past fs t hdir => ?_⟩
  rcases Backend.refusing_cases refuses (.snapshot parent (s.instancePath name)) past fs with
    ⟨-, h⟩ | ⟨-, h⟩
  · rw [h] at hdir
    exact hdir
  · rw [h] at hdir
    rcases Backend.touching_cases (fun _ => false) (.snapshot parent (s.instancePath name)) () fs with
      hsame | ⟨p, u, b, c, -, -, hw, hnode⟩
    · rw [hsame] at hdir
      exact hdir
    · by_cases htu : t = u
      · rw [htu, hnode] at hdir
        cases hdir
      · rw [hw.same t htu] at hdir
        exact hdir

/-! ## the files of a machine -/

def Store.instanceTrails (r : Trail) (name : String) : Set Trail :=
  {diskName name :: instancesDir :: r, recordName name :: instancesDir :: r}

theorem Store.disk_subset_instanceTrails (r : Trail) (name : String) :
    {diskName name :: instancesDir :: r} ⊆ instanceTrails r name := fun _ ht => Or.inl ht

theorem Store.record_subset_instanceTrails (r : Trail) (name : String) :
    {recordName name :: instancesDir :: r} ⊆ instanceTrails r name := fun _ ht => Or.inr ht

theorem Store.not_mem_lockTrails_of_instance (r : Trail) (name : String) :
    ∀ t ∈ instanceTrails r name, t ∉ lockTrails r := by
  rintro t (rfl | rfl)
  · exact not_mem_lockTrails (by decide) _
  · exact not_mem_lockTrails (by decide) _

theorem Store.StandsAt.instances {s : Store} {r : Trail} {fs : FileSystem} (h : s.StandsAt r fs) :
    fs.lookup (s.root.join instancesDir) = .ok (instancesDir :: r, .dir) :=
  h _ (by simp [directories])

theorem Store.StandsAt.node?_disk_of_absent {s : Store} {r : Trail} {fs : FileSystem} {name : String}
    (h : s.StandsAt r fs) (hv : isValidName name = true)
    (hf : (s.root.join instancesDir).Fits (diskName name))
    (habsent : fs.isPresent (s.instancePath name) = false) :
    fs.node? (diskName name :: instancesDir :: r) = none := by
  by_contra hne
  have hpresent := (FileSystem.isPresent_join h.instances (isPlain_diskName hv)).mpr ⟨hf, hne⟩
  rw [instancePath, hpresent] at habsent
  cases habsent

namespace Act
variable {σ ε ε' α : Type} {backend : Backend σ} {w : World σ} {s : Store} {r : Trail}

theorem ends_callMachine {c : Call} {dir : Path} {name : String} {d : Trail} (f : ToolError → ε)
    (hsp : backend.Sparing s) (hc : c.machineDisk? s = some (dir.join name))
    (hdir : w.files.lookup dir = .ok (d, .dir)) (hn : IsPlain name.toList) :
    ((Act.call backend c).mapError f : Act σ ε Unit).Ends w fun res ms w' =>
      w.Kept w' ∧ w.files.Rewritten (name :: d) w'.files ∧ ∃ ans, answersOf ms = [(c, ans)] ∧
        res = ans.mapError f :=
  Ends.mapError (ends_of_note rfl rfl rfl
    ⟨⟨rfl, rfl⟩, hsp.rewritten hc hdir hn, (backend c w.tools w.files).1, rfl, rfl⟩)

/-- how an operation ends that is undone if it fails -/
theorem Ends.orElseUndo {act : Act σ ε α} {undo : Act σ ε' Unit}
    {P Q : Except ε α → List Moment → World σ → Prop} (h : act.Ends w P)
    (hok : ∀ a ms w', P (.ok a) ms w' → Q (.ok a) ms w')
    (herr : ∀ e ms w', P (.error e) ms w' →
      undo.Ends w' fun _ ms' w'' => Q (.error e) (ms ++ ms') w'') :
    (orElseUndo act undo).Ends w Q := by
  obtain ⟨ms, hj, hl, hp⟩ := h
  rcases hr : act.runIn w with ⟨res, w'⟩
  rw [hr] at hj hl hp
  cases res with
  | ok a =>
    have hrun : (DiskLayers.orElseUndo act undo).runIn w = (.ok a, w') := by
      rw [DiskLayers.orElseUndo, runIn_ofFunction, hr]
    refine ⟨ms, ?_, ?_, ?_⟩
    · rw [hrun]; exact hj
    · rw [hrun]; exact hl
    · rw [hrun]; exact hok a ms w' hp
  | error e =>
    have hrun : (DiskLayers.orElseUndo act undo).runIn w = (.error e, (undo.runIn w').2) := by
      rw [DiskLayers.orElseUndo, runIn_ofFunction, hr]
    obtain ⟨ms', hj', hl', hq⟩ := herr e ms w' hp
    refine ⟨ms ++ ms', ?_, ?_, ?_⟩
    · rw [hrun, ← List.append_assoc, ← hj]
      exact hj'
    · rw [hrun]
      exact hl.append hl'
    · rw [hrun]
      exact hq

/-- Taking disk and record of a machine away.  It is refused only where there can be no disk. -/
theorem ends_removeInstance {name : String} (hs : s.StandsAt r w.files)
    (hv : isValidName name = true)
    (hfree : ∀ t ∈ Store.instanceTrails r name, w.files.node? t ≠ some .dir) :
    (s.removeInstance name : Act σ StoreError Unit).Ends w fun res ms w' =>
      w.Kept w' ∧ FileSystem.Within (Store.instanceTrails r name) w.files w'.files ∧
        answersOf ms = [] ∧
        ((res = .ok () ∧ w'.files.node? (diskName name :: Store.instancesDir :: r) = none ∧
            w'.files.node? (recordName name :: Store.instancesDir :: r) = none) ∨
          ((∃ e, res = .error e) ∧ w'.files = w.files ∧
            ¬ (s.root.join Store.instancesDir).Fits (diskName name))) := by
  have hbase := (FileSystem.lookup_eq_dir.mp hs.instances).1.ne_nil
  have hdisk := Store.disk_subset_instanceTrails r name
  have hrecord := Store.record_subset_instanceTrails r name
  refine (ends_removePath hs.instances (isPlain_diskName hv)).bind ?_ ?_
  · rintro ⟨⟩ ms v ⟨ht, ⟨-, hf, hnone⟩ | ⟨⟨e, he⟩, -⟩⟩
    · have hsame : ∀ file, file ≠ diskName name →
          v.files.node? (file :: Store.instancesDir :: r) =
            w.files.node? (file :: Store.instancesDir :: r) := fun file hne =>
        ht.reaches.within.same _ fun e => hne (List.cons.inj e).1
      refine (ends_removePath (hs.within ht.reaches.within).instances (isPlain_recordName hv)).mono ?_
      rintro res ms' w' ⟨ht', hres⟩
      have hgone : w'.files.node? (diskName name :: Store.instancesDir :: r) = none := by
        rw [ht'.reaches.within.same _ fun e => diskName_ne_recordName _ _ (List.cons.inj e).1]
        exact hnone
      refine ⟨ht.kept.trans ht'.kept,
        (ht.reaches.within.mono hdisk).trans (ht'.reaches.within.mono hrecord), ?_, Or.inl ?_⟩
      · rw [answersOf_append, ht.silent, ht'.silent]
        rfl
      · rcases hres with ⟨rfl, -, hnone'⟩ | ⟨-, -, -, hdir⟩
        · exact ⟨rfl, hgone, hnone'⟩
        · have hd := hdir (fits_recordName hv hbase hf)
          rw [hsame _ fun e => diskName_ne_recordName _ _ e.symm] at hd
          exact absurd hd (hfree _ (hrecord rfl))
    · cases he
  · rintro e ms v ⟨ht, ⟨he, -⟩ | ⟨⟨e', -⟩, rfl, rfl, hdir⟩⟩
    · cases he
    · exact ⟨ht.kept, ht.reaches.within.mono hdisk, rfl,
        Or.inr ⟨⟨e, rfl⟩, rfl, fun hf => hfree _ (hdisk rfl) (hdir hf)⟩⟩

end Act

/-! ## launching -/

/-- What comes of launching a machine: the result, the moments, the files. -/
inductive Launched (s : Store) (r : Trail) (tag : String) (m : MachineSpec) (fs : FileSystem) :
    Except MachineError Path → List Moment → FileSystem → Prop
  /-- nothing has come of it but a lock file -/
  | refused {e ms fs'} : (∀ a ∈ answersOf ms, a.2 ≠ .ok ()) →
    FileSystem.Within (Store.lockTrails r) fs fs' → Launched s r tag m fs (.error e) ms fs'
  /-- the disk was not there before; it may be there now if making it has failed, but there is no
  record of it -/
  | undone {e ms fs'} : isValidName m.name = true →
    fs.node? (diskName m.name :: Store.instancesDir :: r) = none →
    FileSystem.Within (Store.instanceTrails r m.name ∪ Store.lockTrails r) fs fs' →
    fs'.node? (diskName m.name :: Store.instancesDir :: r) ≠ some .dir →
    fs'.node? (recordName m.name :: Store.instancesDir :: r) = none ∨
      fs'.node? (recordName m.name :: Store.instancesDir :: r) =
        fs.node? (recordName m.name :: Store.instancesDir :: r) →
    (fs'.node? (diskName m.name :: Store.instancesDir :: r) = none ∨ ∃ cause,
      e = .storage m.name (.backend cause) ∧
        answersOf ms = [(.snapshot (s.tagPath tag) (s.instancePath m.name), .error cause)]) →
    Launched s r tag m fs (.error e) ms fs'
  /-- the machine runs -/
  | running {ms fs'} : isValidName m.name = true → isValidName tag = true →
    fs.isWhole (s.tagPath tag) = true →
    fs.node? (diskName m.name :: Store.instancesDir :: r) = none →
    FileSystem.Within (Store.instanceTrails r m.name ∪ Store.lockTrails r) fs fs' →
    (s.root.join Store.instancesDir).Fits (diskName m.name) →
    (∃ b c, fs'.node? (diskName m.name :: Store.instancesDir :: r) = some (.file b c)) →
    (∃ b, fs'.node? (recordName m.name :: Store.instancesDir :: r) =
      some (.file b (.ofText (tag ++ "\n")))) →
    answersOf ms = [(.snapshot (s.tagPath tag) (s.instancePath m.name), .ok ()),
      (.createMachine (s.instancePath m.name) m, .ok ())] →
    Launched s r tag m fs (.ok (s.instancePath m.name)) ms fs'

/-- only these calls are made by a launch -/
def Launches (s : Store) (tag : String) (m : MachineSpec) (ms : List Moment) : Prop :=
  ∀ a ∈ answersOf ms, a.1 = .snapshot (s.tagPath tag) (s.instancePath m.name) ∨
    a.1 = .createMachine (s.instancePath m.name) m

/-- taking a lock before and giving it back afterwards makes no difference -/
theorem Launched.of_locks {s : Store} {r : Trail} {tag : String} {m : MachineSpec}
    {fs fs₀ fs' : FileSystem} {res : Except MachineError Path} {ms₀ ms : List Moment} {m₁ : Moment}
    (h : Launched s r tag m fs₀ res ms fs') (hs : s.StandsAt r fs)
    (hw : FileSystem.Within (Store.lockTrails r) fs fs₀) (h₀ : answersOf ms₀ = [])
    (h₁ : m₁.answered? = none) : Launched s r tag m fs res (ms₀ ++ (ms ++ [m₁])) fs' := by
  have hsub : Store.lockTrails r ⊆ Store.instanceTrails r m.name ∪ Store.lockTrails r :=
    fun _ ht => Or.inr ht
  have hsame : fs₀.node? (diskName m.name :: Store.instancesDir :: r) =
      fs.node? (diskName m.name :: Store.instancesDir :: r) :=
    hw.same _ (Store.not_mem_lockTrails (by decide) _)
  have hlast : answersOf [m₁] = [] := by
    rw [answersOf, List.filterMap_cons, h₁]
    rfl
  have hans : answersOf (ms₀ ++ (ms ++ [m₁])) = answersOf ms := by
    rw [answersOf_append, answersOf_append, h₀, hlast, List.append_nil, List.nil_append]
  cases h with
  | refused hans' hw' => exact .refused (hans ▸ hans') (hw.trans hw')
  | undone hm hnone hw' hdisk hrecord hfailed =>
    refine .undone hm (hsame ▸ hnone) ((hw.mono hsub).trans hw') hdisk (hrecord.imp_right fun he => ?_)
      (hans ▸ hfailed)
    rw [he, hw.same _ (Store.not_mem_lockTrails (by decide) _)]
  | running hm ht hwhole hnone hw' hf hdisk hrecord hans' =>
    refine .running hm ht ?_ (hsame ▸ hnone) ((hw.mono hsub).trans hw') hf hdisk hrecord
      (hans.trans hans')
    rw [← hwhole, Store.tagPath]
    exact (hw.isWhole_join hs.tags ht (Store.not_mem_lockTrails (by decide) _)
      (Store.not_mem_lockTrails (by decide) _)).symm

namespace Act
variable {σ : Type} {backend : Backend σ} {w : World σ} {s : Store} {r : Trail}

/-- Making the disk of a machine from a tag.  Where the path of the disk is too long nothing is made. -/
theorem ends_snapshotInstance {name : String} (tag : String) (hb : backend.Confined)
    (hl : backend.LeavesFiles) (hsp : backend.Sparing s) (hs : s.StandsAt r w.files)
    (hv : isValidName name = true)
    (hfree : w.files.node? (diskName name :: Store.instancesDir :: r) ≠ some .dir) :
    (Act.call backend (.snapshot (s.tagPath tag) (s.instancePath name))).Ends w fun res ms w' =>
      w.Kept w' ∧ answersOf ms = [(.snapshot (s.tagPath tag) (s.instancePath name), res)] ∧
        (((s.root.join Store.instancesDir).Fits (diskName name) ∧
            FileSystem.Within {diskName name :: Store.instancesDir :: r} w.files w'.files ∧
            w'.files.node? (diskName name :: Store.instancesDir :: r) ≠ some .dir ∧
            (res = .ok () →
              ∃ b c, w'.files.node? (diskName name :: Store.instancesDir :: r) = some (.file b c))) ∨
          (FileSystem.Within ∅ w.files w'.files ∧ ∃ e, res = .error e)) := by
  have hplain := isPlain_diskName hv
  refine ends_of_note rfl rfl rfl ⟨⟨rfl, rfl⟩, rfl, ?_⟩
  have hfile := hl (.snapshot (s.tagPath tag) (s.instancePath name)) _ rfl w.tools w.files
  by_cases hf : (s.root.join Store.instancesDir).Fits (diskName name)
  · have hw := within_call (s := w.tools) hb (c := .snapshot (s.tagPath tag) (s.instancePath name))
      rfl hs.instances hplain hf hfree
    exact Or.inl ⟨hf, hw, fun hdir => hfree (hsp.plain _ _ _ hdir), fun hok =>
      ((FileSystem.isFile_join (hw.lookup_dir hs.instances) hplain).mp (hfile hok)).2⟩
  · -- a path that is too long leads nowhere, before and after
    have hsame := fun t => hb.same (c := .snapshot (s.tagPath tag) (s.instancePath name)) rfl
      w.tools w.files t (by
        rw [Store.instancePath, FileSystem.trail?_join hs.instances hplain, if_neg hf]
        simp)
    have hw : FileSystem.Within ∅ w.files
        (backend (.snapshot (s.tagPath tag) (s.instancePath name)) w.tools w.files).2.2 :=
      ⟨fun t _ => hsame t, fun t hd => (hsame t).trans hd, hb.current rfl _ _⟩
    refine Or.inr ⟨hw, ?_⟩
    cases hres : (backend (.snapshot (s.tagPath tag) (s.instancePath name)) w.tools w.files).1 with
    | error e => exact ⟨e, rfl⟩
    | ok u =>
      exact absurd ((FileSystem.isFile_join (hw.lookup_dir hs.instances) hplain).mp (hfile hres)).1 hf

/-- Writing the record of a machine.  Where there is room for a disk it does not fail, so there is
nothing to undo. -/
theorem ends_recordMachine {name : String} (tag : String) (hs : s.StandsAt r w.files)
    (hv : isValidName name = true) (hf : (s.root.join Store.instancesDir).Fits (diskName name))
    (hfree : w.files.node? (recordName name :: Store.instancesDir :: r) ≠ some .dir) :
    (orElseUndo ((s.recordInstance name tag).mapError (MachineError.storage name))
        (s.removeInstance name)).Ends w fun res ms w' => w.Kept w' ∧
      FileSystem.Within {recordName name :: Store.instancesDir :: r} w.files w'.files ∧
      answersOf ms = [] ∧ res = .ok () ∧
      ∃ b, w'.files.node? (recordName name :: Store.instancesDir :: r) =
        some (.file b (.ofText (tag ++ "\n"))) := by
  have hbase := (FileSystem.lookup_eq_dir.mp hs.instances).1.ne_nil
  have hrecord : ((s.recordInstance name tag).mapError (MachineError.storage name) :
      Act σ MachineError Unit).Ends w fun res ms w' => w.Kept w' ∧
        FileSystem.Within {recordName name :: Store.instancesDir :: r} w.files w'.files ∧
        answersOf ms = [] ∧ res = .ok () ∧
        ∃ b, w'.files.node? (recordName name :: Store.instancesDir :: r) =
          some (.file b (.ofText (tag ++ "\n"))) := by
    refine Ends.mapError ((ends_writePath hs.instances (isPlain_recordName hv) _).mono ?_)
    rintro res ms w' ⟨ht, ⟨rfl, -, hfile⟩ | ⟨-, -, -, hdir⟩⟩
    · exact ⟨ht.kept, ht.reaches.within, ht.silent, rfl, hfile⟩
    · exact absurd (hdir (fits_recordName hv hbase hf)) hfree
  exact hrecord.orElseUndo (fun _ _ _ h => h) fun e ms w' h => by cases h.2.2.2.1

/-- Starting a machine on its disk.  If that fails, the disk and its record are taken away. -/
theorem ends_startMachine {m : MachineSpec} (hsp : backend.Sparing s) (hs : s.StandsAt r w.files)
    (hv : isValidName m.name = true) (hf : (s.root.join Store.instancesDir).Fits (diskName m.name))
    (hdisk : ∃ b c, w.files.node? (diskName m.name :: Store.instancesDir :: r) = some (.file b c))
    (hrecord : ∃ b c, w.files.node? (recordName m.name :: Store.instancesDir :: r) = some (.file b c)) :
    (orElseUndo ((Act.call backend (.createMachine (s.instancePath m.name) m)).mapError
        (MachineError.create m.name)) (s.removeInstance m.name)).Ends w fun res ms w' =>
      w.Kept w' ∧ FileSystem.Within (Store.instanceTrails r m.name) w.files w'.files ∧
        (∃ ans, answersOf ms = [(.createMachine (s.instancePath m.name) m, ans)] ∧
          res = ans.mapError (MachineError.create m.name)) ∧
        (res = .ok () ∧
            (∃ b c, w'.files.node? (diskName m.name :: Store.instancesDir :: r) = some (.file b c)) ∧
            w'.files.node? (recordName m.name :: Store.instancesDir :: r) =
              w.files.node? (recordName m.name :: Store.instancesDir :: r) ∨
          (∃ e, res = .error e) ∧ w'.files.node? (diskName m.name :: Store.instancesDir :: r) = none ∧
            w'.files.node? (recordName m.name :: Store.instancesDir :: r) = none) := by
  obtain ⟨b, c, hdisk⟩ := hdisk
  obtain ⟨b', c', hrecord⟩ := hrecord
  have hsub := Store.disk_subset_instanceTrails r m.name
  refine (ends_callMachine (MachineError.create m.name) hsp rfl hs.instances
    (isPlain_diskName hv)).orElseUndo ?_ ?_
  · rintro ⟨⟩ ms w' ⟨hk, hrw, hans⟩
    refine ⟨hk, hrw.within.mono hsub, hans, Or.inl ⟨rfl, hrw.file ⟨b, c, hdisk⟩, ?_⟩⟩
    exact hrw.within.same _ fun e => diskName_ne_recordName _ _ (List.cons.inj e).1.symm
  · rintro e ms v ⟨hk, hrw, ans, hans, hres⟩
    have hfree : ∀ t ∈ Store.instanceTrails r m.name, v.files.node? t ≠ some .dir := by
      rintro t (rfl | rfl)
      · exact hrw.ne_dir (by rw [hdisk]; simp)
      · exact hrw.ne_dir (by rw [hrecord]; simp)
    refine (ends_removeInstance (hs.within hrw.within) hv hfree).mono ?_
    rintro res ms' w' ⟨hk', hw', hans', ⟨-, hgone⟩ | ⟨-, -, hnot⟩⟩
    · refine ⟨hk.trans hk', (hrw.within.mono hsub).trans hw', ⟨ans, ?_, hres⟩, Or.inr ⟨⟨e, rfl⟩, hgone⟩⟩
      rw [answersOf_append, hans, hans']
      rfl
    · exact absurd hf hnot

/-- The record of a machine and the machine itself, on a disk that is there.  If the machine does not
start, disk and record are gone. -/
theorem ends_startRecorded {m : MachineSpec} (tag : String) (hsp : backend.Sparing s)
    (hs : s.StandsAt r w.files) (hv : isValidName m.name = true)
    (hf : (s.root.join Store.instancesDir).Fits (diskName m.name))
    (hfile : ∃ b c, w.files.node? (diskName m.name :: Store.instancesDir :: r) = some (.file b c))
    (hfree : w.files.node? (recordName m.name :: Store.instancesDir :: r) ≠ some .dir) :
    (orElseUndo ((s.recordInstance m.name tag).mapError (MachineError.storage m.name))
        (s.removeInstance m.name) >>= fun _ =>
      orElseUndo ((Act.call backend (.createMachine (s.instancePath m.name) m)).mapError
        (MachineError.create m.name)) (s.removeInstance m.name)).Ends w fun res ms w' =>
      w.Kept w' ∧ FileSystem.Within (Store.instanceTrails r m.name) w.files w'.files ∧
        (∃ ans, answersOf ms = [(.createMachine (s.instancePath m.name) m, ans)] ∧
          res = ans.mapError (MachineError.create m.name)) ∧
        (res = .ok () ∧
            (∃ b c, w'.files.node? (diskName m.name :: Store.instancesDir :: r) = some (.file b c)) ∧
            (∃ b, w'.files.node? (recordName m.name :: Store.instancesDir :: r) =
              some (.file b (.ofText (tag ++ "\n")))) ∨
          (∃ e, res = .error e) ∧ w'.files.node? (diskName m.name :: Store.instancesDir :: r) = none ∧
            w'.files.node? (recordName m.name :: Store.instancesDir :: r) = none) := by
  refine (ends_recordMachine tag hs hv hf hfree).bind ?_ fun e ms v h => by cases h.2.2.2.1
  rintro ⟨⟩ ms v ⟨hk, hw, hsilent, -, b, hrecord⟩
  have hdisk : ∃ b c, v.files.node? (diskName m.name :: Store.instancesDir :: r) = some (.file b c) := by
    rw [hw.same _ fun e => diskName_ne_recordName _ _ (List.cons.inj e).1]
    exact hfile
  refine (ends_startMachine hsp (hs.within hw) hv hf hdisk ⟨b, _, hrecord⟩).mono ?_
  rintro res ms' w' ⟨hk', hw', ⟨ans, hans, hres⟩, hcases⟩
  refine ⟨hk.trans hk', (hw.mono (Store.record_subset_instanceTrails r m.name)).trans hw',
    ⟨ans, ?_, hres⟩, hcases.imp_left fun ⟨hok, hdisk', hsame⟩ => ⟨hok, hdisk', b, ?_⟩⟩
  · rw [answersOf_append, hsilent, hans]
    rfl
  · exact hsame.trans hrecord

/-- how a launch goes on once it holds the lock of the tag -/
theorem ends_launchLocked (tag : String) (m : MachineSpec) (hb : backend.Confined)
    (hl : backend.LeavesFiles) (hsp : backend.Sparing s) (hs : s.StandsAt r w.files)
    (hm : isValidName m.name = true) (ht : isValidName tag = true)
    (hfree : ∀ t ∈ Store.instanceTrails r m.name, w.files.node? t ≠ some .dir)
    (habsent : w.files.isPresent (s.instancePath m.name) = false) :
    (launchLocked backend s (s.tagNamed tag) m).Ends w fun res ms w' =>
      w.Kept w' ∧ FileSystem.Within (Store.instanceTrails r m.name) w.files w'.files ∧
        Launches s tag m ms ∧ Launched s r tag m w.files res ms w'.files := by
  have hdisk := Store.disk_subset_instanceTrails r m.name
  have hsub : Store.instanceTrails r m.name ⊆ Store.instanceTrails r m.name ∪ Store.lockTrails r :=
    fun _ ht => Or.inl ht
  have hsame : ∀ {fs : FileSystem}, FileSystem.Within {diskName m.name :: Store.instancesDir :: r} w.files fs →
      fs.node? (recordName m.name :: Store.instancesDir :: r) =
        w.files.node? (recordName m.name :: Store.instancesDir :: r) := fun hw =>
    hw.same _ fun e => diskName_ne_recordName _ _ (List.cons.inj e).1.symm
  have hnone := fun hf => hs.node?_disk_of_absent hm hf habsent
  rw [launchLocked]
  refine ends_inspect_bind ?_
  by_cases hwhole : (s.tagNamed tag).isComplete w.files = true
  case neg =>
    rw [if_pos (by simpa using hwhole)]
    exact ends_throw ⟨.refl w, .refl _ _, fun a ha => absurd ha List.not_mem_nil,
      .refused (fun a ha => absurd ha List.not_mem_nil) (.refl _ _)⟩
  rw [if_neg (by simpa using hwhole)]
  -- the disk of the machine
  refine (ends_snapshotInstance tag hb hl hsp hs hm (hfree _ (hdisk rfl))).bind_mapError ?_ ?_
  case refine_2 =>
    rintro e ms v ⟨hk, hans, hcases⟩
    have hmem : ∀ a ∈ answersOf ms,
        a = (.snapshot (s.tagPath tag) (s.instancePath m.name), .error e) := by
      intro a ha
      rw [hans] at ha
      exact List.mem_singleton.mp ha
    have hcalls : Launches s tag m ms := fun a ha => Or.inl (by rw [hmem a ha])
    rcases hcases with ⟨hf, hw, hdir, -⟩ | ⟨hw, -⟩
    · exact ⟨hk, hw.mono hdisk, hcalls, .undone hm (hnone hf) ((hw.mono hdisk).mono hsub) hdir
        (Or.inr (hsame hw)) (Or.inr ⟨e, rfl, hans⟩)⟩
    · refine ⟨hk, hw.mono (Set.empty_subset _), hcalls,
        .refused (fun a ha hok => ?_) (hw.mono (Set.empty_subset _))⟩
      rw [hmem a ha] at hok
      cases hok
  rintro ⟨⟩ ms v ⟨hk, hans, ⟨hf, hw, -, hok⟩ | ⟨-, e, he⟩⟩
  case inr => cases he
  -- its record, and the machine itself
  have hstart := ends_startRecorded tag hsp (hs.within hw) hm hf (hok rfl) (by
    rw [hsame hw]
    exact hfree _ (Store.record_subset_instanceTrails r m.name rfl))
  have hcalls : ∀ {ms' : List Moment} {ans},
      answersOf ms' = [(.createMachine (s.instancePath m.name) m, ans)] →
        answersOf (ms ++ ms') = [(.snapshot (s.tagPath tag) (s.instancePath m.name), .ok ()),
          (.createMachine (s.instancePath m.name) m, ans)] := by
    intro ms' ans hans'
    rw [answersOf_append, hans, hans']
    rfl
  have hmade : ∀ {ms' : List Moment} {ans},
      answersOf ms' = [(.createMachine (s.instancePath m.name) m, ans)] →
        Launches s tag m (ms ++ ms') := by
    intro ms' ans hans' a ha
    rw [hcalls hans'] at ha
    rcases List.mem_cons.mp ha with rfl | ha
    · exact Or.inl rfl
    · rw [List.mem_singleton.mp ha]
      exact Or.inr rfl
  rw [← bind_assoc]
  refine hstart.bind ?_ ?_
  · rintro ⟨⟩ ms' v' ⟨hk', hw', ⟨ans, hans', hres⟩, ⟨-, hdisk', hrecord'⟩ | ⟨⟨e, he⟩, -⟩⟩
    · cases ans with
      | error e => cases hres
      | ok u =>
        have hwithin := (hw.mono hdisk).trans hw'
        refine ends_pure ⟨hk.trans hk', hwithin, ?_, ?_⟩
        · rw [List.append_nil]
          exact hmade hans'
        · rw [List.append_nil]
          exact .running hm ht hwhole (hnone hf) (hwithin.mono hsub) hf hdisk' hrecord' (hcalls hans')
    · cases he
  · rintro e ms' v' ⟨hk', hw', ⟨ans, hans', -⟩, ⟨he, -⟩ | ⟨-, hgone, hgone'⟩⟩
    · cases he
    · have hwithin := (hw.mono hdisk).trans hw'
      exact ⟨hk.trans hk', hwithin, hmade hans', .undone hm (hnone hf) (hwithin.mono hsub)
        (by rw [hgone]; simp) (Or.inl hgone') (Or.inl hgone)⟩

/-- what is under the lock of the tag in a launch -/
def lockedLaunch (backend : Backend σ) (s : Store) (tag : String) (m : MachineSpec) :
    Act σ MachineError Path :=
  Lock.during
    ((s.acquire (s.tagNamed tag) (programName ++ " run " ++ tag) defaultLockWait).mapError
      (.storage m.name))
    (launchLocked backend s (s.tagNamed tag) m)

/-- what a launch looks at before it takes the lock of its tag -/
theorem launch_runIn (tag : String) (m : MachineSpec) : (launch backend s tag m).runIn w =
    if isValidName m.name = false then (.error (.invalidName m.name), w)
    else if isValidName tag = false then (.error (.storage m.name (.invalidName tag)), w)
    else if w.files.isWhole (s.tagPath tag) = false then (.error (.unknownTag tag), w)
    else if w.files.isPresent (s.instancePath m.name) = true then (.error (.instanceExists m.name), w)
    else (lockedLaunch backend s tag m).runIn w := by
  rw [launch]
  cases hm : isValidName m.name with
  | false => rfl
  | true =>
    rw [if_neg (by simp), if_neg (by simp), runIn_bind, runIn_mapError, runIn_ofFunction,
      Store.tagLayer]
    cases ht : isValidName tag with
    | false => rfl
    | true =>
      rw [if_pos rfl, if_neg (by simp)]
      dsimp only
      have hlayer : (s.tagNamed tag).isComplete w.files = w.files.isWhole (s.tagPath tag) := rfl
      rw [hlayer]
      cases hwhole : w.files.isWhole (s.tagPath tag) with
      | false => rfl
      | true =>
        rw [if_pos rfl, if_neg (by simp)]
        dsimp only [Except.mapError]
        rw [runIn_bind, runIn_inspect]
        dsimp only
        cases hp : w.files.isPresent (s.instancePath m.name) with
        | true => rfl
        | false => rfl

/-- A launch ends at once, without any doing, or as it ends under the lock of its tag. -/
theorem ends_launch_of_locked {tag : String} {m : MachineSpec}
    {Q : Except MachineError Path → List Moment → World σ → Prop} (hrefused : ∀ e, Q (.error e) [] w)
    (hlocked : isValidName m.name = true → isValidName tag = true →
      w.files.isWhole (s.tagPath tag) = true → w.files.isPresent (s.instancePath m.name) = false →
        (lockedLaunch backend s tag m).Ends w Q) :
    (launch backend s tag m).Ends w Q := by
  have hrun := @launch_runIn σ backend w s tag m
  split at hrun
  · exact ends_of_runIn hrun (hrefused _)
  next hm =>
  split at hrun
  · exact ends_of_runIn hrun (hrefused _)
  next ht =>
  split at hrun
  · exact ends_of_runIn hrun (hrefused _)
  next hwhole =>
  split at hrun
  · exact ends_of_runIn hrun (hrefused _)
  next hpresent =>
  rw [Bool.not_eq_false] at hm ht hwhole
  exact (hlocked hm ht hwhole (Bool.not_eq_true _ ▸ hpresent)).of_runIn_eq hrun

/-- how launching a machine ends -/
theorem ends_launch (tag : String) (m : MachineSpec) (hb : backend.Confined)
    (hl : backend.LeavesFiles) (hsp : backend.Sparing s) (hs : s.StandsAt r w.files)
    (hu : w.Undisturbed)
    (hfree : ∀ t ∈ Store.instanceTrails r m.name, w.files.node? t ≠ some .dir) :
    (launch backend s tag m).Ends w fun res ms w' => w.Leaves r w' ∧ Launches s tag m ms ∧
      Launched s r tag m w.files res ms w'.files := by
  refine ends_launch_of_locked (fun e => ⟨.refl r w, fun a ha => absurd ha List.not_mem_nil,
    .refused (fun a ha => absurd ha List.not_mem_nil) (.refl _ _)⟩) fun hm ht hwhole hpresent => ?_
  have hacq := ends_acquire (w := w) hs hu .tag (show isValidName (⟨tag⟩ : Identity).name = true from ht) tag
    (programName ++ " run " ++ tag) defaultLockWait
  refine Ends.during (P := fun res ms w' => w.Locks r ms w' ∧ (w.Clear r → w.Holds res w'))
    (Ends.mapError (Ends.mapError (hacq.mono ?_))) ?_ ?_
  · rintro res ms w' ⟨hlocks, hclear⟩
    refine ⟨hlocks, fun hc => ?_⟩
    cases res with
    | ok l => exact (hclear hc).1
    | error e => exact (hclear hc).1
  · rintro lock ms₀ w₀ ⟨hlocks, hholds⟩
    have hw₀ := hlocks.reaches.within
    have hs₀ := hs.within hw₀
    -- the lock lies apart from the disks of machines, so they are as they were found
    have hsame : ∀ file, w₀.files.node? (file :: Store.instancesDir :: r) =
        w.files.node? (file :: Store.instancesDir :: r) := fun file =>
      hw₀.same _ (Store.not_mem_lockTrails (by decide) _)
    have habsent : w₀.files.isPresent (s.instancePath m.name) = false := by
      rw [← Bool.not_eq_true, Store.instancePath,
        FileSystem.isPresent_join hs₀.instances (isPlain_diskName hm), hsame,
        ← FileSystem.isPresent_join hs.instances (isPlain_diskName hm), Bool.not_eq_true]
      exact hpresent
    have hlocked := ends_launchLocked (w := w₀) tag m hb hl hsp hs₀ hm ht
      (by
        rintro t (rfl | rfl)
        · rw [hsame]
          exact hfree _ (Or.inl rfl)
        · rw [hsame]
          exact hfree _ (Or.inr rfl)) habsent
    refine hlocked.mono ?_
    rintro res ms w' ⟨hk, hw, hcalls, hres⟩
    refine ⟨.of_during hlocks hholds hk hw (Store.not_mem_lockTrails_of_instance r _), fun a ha => ?_,
      hres.of_locks hs hw₀ hlocks.silent rfl⟩
    rw [answersOf_append, hlocks.silent, answersOf_append] at ha
    rcases List.mem_append.mp ha with ha | ha
    · cases ha
    · rcases List.mem_append.mp ha with ha | ha
      · exact hcalls a ha
      · cases ha
  · rintro e ms w' ⟨hlocks, hholds⟩
    have hsilent : ∀ a, a ∉ answersOf ms := fun a ha => by
      rw [hlocks.silent] at ha
      cases ha
    exact ⟨.of_refused hlocks hholds, fun a ha => absurd ha (hsilent a),
      .refused (fun a ha => absurd ha (hsilent a)) hlocks.reaches.within⟩

end Act

/-! ## destroying -/

/-- What comes of destroying a machine: the result and the files. -/
inductive Destroyed (s : Store) (r : Trail) (name : String) (fs : FileSystem) :
    Except MachineError Unit → FileSystem → Prop
  /-- the disk stays, though the machine may have written to it -/
  | refused {e fs'} : fs.Rewritten (diskName name :: Store.instancesDir :: r) fs' →
    Destroyed s r name fs (.error e) fs'
  /-- disk and record are gone -/
  | gone {fs'} : isValidName name = true →
    FileSystem.Within (Store.instanceTrails r name) fs fs' →
    fs'.node? (diskName name :: Store.instancesDir :: r) = none →
    fs'.node? (recordName name :: Store.instancesDir :: r) = none →
    Destroyed s r name fs (.ok ()) fs'

namespace Act
variable {σ : Type} {backend : Backend σ} {w : World σ} {s : Store} {r : Trail}

/-- How destroying a machine ends.  If it fails, its disk is as it was or the call has failed; a disk
that is there is never left half-way. -/
theorem ends_destroy (name : String) (hsp : backend.Sparing s) (hs : s.StandsAt r w.files)
    (hfree : ∀ t ∈ Store.instanceTrails r name, w.files.node? t ≠ some .dir) :
    (destroy backend s name).Ends w fun res ms w' => w.Leaves r w' ∧
      (∀ a ∈ answersOf ms, a.1 = .destroyMachine name) ∧
      Destroyed s r name w.files res w'.files := by
  rw [destroy]
  by_cases hv : isValidName name = true
  case neg =>
    rw [if_pos (by simpa using hv)]
    exact ends_throw ⟨.refl r w, fun a ha => absurd ha List.not_mem_nil, .refused (.refl _ _)⟩
  rw [if_neg (by simpa using hv)]
  have hdisk := Store.disk_subset_instanceTrails r name
  have hlocks := Store.not_mem_lockTrails_of_instance r name
  refine (ends_callMachine (c := .destroyMachine name) (MachineError.destroy name) hsp rfl
    hs.instances (isPlain_diskName hv)).bind ?_ ?_
  · rintro ⟨⟩ ms v ⟨hk, hrw, ans, hans, -⟩
    have hfree' : ∀ t ∈ Store.instanceTrails r name, v.files.node? t ≠ some .dir := fun t ht =>
      hrw.ne_dir (hfree t ht)
    refine Ends.mapError ((ends_removeInstance (hs.within hrw.within) hv hfree').mono ?_)
    rintro res ms' w' ⟨hk', hw', hans', hres⟩
    have hwithin := (hrw.within.mono hdisk).trans hw'
    refine ⟨.of_within (hk.trans hk') hwithin hlocks, ?_, ?_⟩
    · rw [answersOf_append, hans, hans']
      intro a ha
      rw [List.append_nil, List.mem_singleton] at ha
      rw [ha]
    · rcases hres with ⟨rfl, hgone, hgone'⟩ | ⟨⟨e, rfl⟩, hsame, -⟩
      · exact .gone hv hwithin hgone hgone'
      · exact .refused (hsame ▸ hrw)
  · rintro e ms v ⟨hk, hrw, ans, hans, -⟩
    refine ⟨.of_within hk (hrw.within.mono hdisk) hlocks, ?_, .refused hrw⟩
    rw [hans]
    intro a ha
    rw [List.mem_singleton.mp ha]

end Act

/-! ## taking a tag away -/

/-- What comes of taking a tag away: the result and the files. -/
inductive Untagged (s : Store) (r : Trail) (name : String) (fs : FileSystem) :
    Except StoreError Unit → FileSystem → Prop
  /-- there is no such tag -/
  | absent {e} : ¬ (isValidName name = true ∧ fs.isWhole (s.tagPath name) = true) →
    Untagged s r name fs (.error e) fs
  /-- machines run on it -/
  | used {e fs'} : FileSystem.Within (Store.lockTrails r) fs fs' →
    s.ensureUnused fs' name = .error e → Untagged s r name fs (.error e) fs'
  /-- no machine runs on it, and it is gone -/
  | gone {fs₀ fs'} : isValidName name = true → FileSystem.Within (Store.lockTrails r) fs fs₀ →
    s.ensureUnused fs₀ name = .ok () →
    FileSystem.Within (Store.tagTrails r (some name)) fs fs' →
    fs'.isWhole (s.tagPath name) = false → Untagged s r name fs (.ok ()) fs'

/-- Where the marker of a key fits, its lock does. -/
theorem lockFits_of_marker {s : Store} (kind : LayerKind) {name : String} (hv : isValidName name = true)
    (ha : s.root.isAbsolute = true)
    (hf : (s.root.join (Store.lockDir kind)).Fits (markerName name)) : s.LockFits kind ⟨name⟩ := by
  have hroot := ne_nil_of_isAbsolute ha
  have hdir := Store.isPlain_lockDir kind
  have hlocks : IsPlain Store.locksDir.toList := Store.isPlain_of_mem_directories (by decide)
  have hlock := isPlain_lockFile hv
  have hbytes : byteCount (name ++ ".lock").toList + 6 = byteCount (markerName name).toList := by
    rw [toList_markerName, String.toList_append, byteCount_append, byteCount_append, Nat.add_assoc]
    rfl
  obtain ⟨h1, h2⟩ := hf
  refine ⟨?_, ?_⟩
  · show byteCount (name ++ ".lock").toList ≤ _
    omega
  · show byteCount ((((s.root.join Store.locksDir).join (Store.lockDir kind))).join
      (name ++ ".lock")).chars ≤ _
    have hne := fun (base : Path) (n : String) (hn : IsPlain n.toList) =>
      (chars_join base n) ▸ @joinChars_ne_nil base.chars _ hn
    rw [chars_join, joinChars_eq (hne _ _ hdir) (isPlain_markerName hv), chars_join,
      front_joinChars hroot hdir, joinChars_eq hroot hdir] at h2
    rw [chars_join, joinChars_eq (hne _ _ hdir) hlock, chars_join,
      front_joinChars (hne _ _ hlocks) hdir, joinChars_eq (hne _ _ hlocks) hdir, chars_join,
      front_joinChars hroot hlocks, joinChars_eq hroot hlocks]
    simp only [byteCount_append, byteCount_cons] at h2 ⊢
    have h3 : byteCount Store.locksDir.toList = 5 := by decide
    have h4 : ('/' : Char).utf8Size = 1 := by decide
    omega

namespace Act
variable {σ : Type} {w : World σ} {s : Store} {r : Trail}

/-- a whole disk can be taken away if its marker fits -/
theorem ends_discardWhole {l : Layer} {dir : Path} {d : Trail} (h : l.LiesIn dir d w.files)
    (hwhole : w.files.isWhole l.location = true) (hf : dir.Fits (markerName l.identity.name)) :
    (l.discard : Act σ StoreError Unit).Ends w fun res ms w' =>
      w.Kept w' ∧ w.Reaches (l.trails d) ms w' ∧ answersOf ms = [] ∧ res = .ok () ∧
        w'.files.isWhole l.location = false := by
  obtain ⟨⟨-, b, c, hfile⟩, hnone⟩ := h.isWhole_iff.mp hwhole
  refine (ends_discard h).mono ?_
  rintro res ms w' ⟨hk, hreach, hsilent, hres⟩
  have h' := h.within hreach.within
  refine ⟨hk, hreach, hsilent, ?_⟩
  generalize w'.files = fs' at hres h'
  cases hres with
  | gone _ hgone _ _ => exact ⟨rfl, h'.not_isWhole_of_absent fun _ => hgone⟩
  | stuck hdir =>
    rw [hfile] at hdir
    cases hdir
  | refused hdir _ _ =>
    have hd := hdir hf
    rw [hnone hf] at hd
    cases hd

/-- what is done to a whole tag under its lock: it goes, unless something uses it -/
theorem ends_discardUnused {name : String}
    (h : (s.tagNamed name).LiesIn (s.root.join Store.tagsDir) (Store.tagsDir :: r) w.files)
    (hwhole : w.files.isWhole (s.tagPath name) = true)
    (hf : (s.root.join Store.tagsDir).Fits (markerName name)) :
    ((s.refuseIfUsed name : Act σ StoreError Unit) >>= fun _ => (s.tagNamed name).discard).Ends w
      fun res ms w' => w.Kept w' ∧ answersOf ms = [] ∧
        FileSystem.Within ((s.tagNamed name).trails (Store.tagsDir :: r)) w.files w'.files ∧
        res = s.ensureUnused w.files name ∧
          ((∃ e, res = .error e ∧ w' = w) ∨
            (res = .ok () ∧ w'.files.isWhole (s.tagPath name) = false)) := by
  refine (ends_refuseIfUsed s name w).bind ?_ ?_
  · rintro ⟨⟩ ms v ⟨rfl, rfl, hunused⟩
    refine (ends_discardWhole h hwhole hf).mono ?_
    rintro res ms' w' ⟨hk, hreach, hsilent, rfl, hgone⟩
    exact ⟨hk, hsilent, hreach.within, hunused, Or.inr ⟨rfl, hgone⟩⟩
  · rintro e ms v ⟨rfl, rfl, he⟩
    exact ⟨.refl v, rfl, .refl _ _, he, Or.inl ⟨e, rfl, rfl⟩⟩

/-- How taking a tag away ends where nobody holds a lock. -/
theorem ends_removeTag (name command : String) (wait : Duration)
    (ha : s.root.isAbsolute = true) (hs : s.StandsAt r w.files) (hu : w.Undisturbed)
    (hc : w.Clear r) (hfits : isValidName name = true → w.files.isWhole (s.tagPath name) = true →
      (s.root.join Store.tagsDir).Fits (markerName name)) :
    (s.removeTag name command wait : Act σ StoreError Unit).Ends w fun res ms w' =>
      w.Leaves r w' ∧ answersOf ms = [] ∧ Untagged s r name w.files res w'.files := by
  rw [Store.removeTag]
  have hfind : (Act.ofFunction fun w => (s.tagLayer w.files name, w) :
      Act σ StoreError (Option Layer)).Ends w fun res ms w' =>
        res = s.tagLayer w.files name ∧ ms = [] ∧ w' = w := ends_of_runIn rfl ⟨rfl, rfl, rfl⟩
  have habsent : ¬ (isValidName name = true ∧ w.files.isWhole (s.tagPath name) = true) → ∀ e,
      w.Leaves r w ∧ answersOf [] = [] ∧ Untagged s r name w.files (.error e) w.files :=
    fun h e => ⟨.refl r w, rfl, .absent h⟩
  have hlayer : s.tagLayer w.files name = if isValidName name then
      .ok (if w.files.isWhole (s.tagPath name) then some (s.tagNamed name) else none)
      else .error (.invalidName name) := rfl
  refine hfind.bind ?_ ?_
  case refine_2 =>
    rintro e ms v ⟨he, rfl, rfl⟩
    refine habsent (fun h => ?_) e
    rw [hlayer, if_pos h.1] at he
    cases he
  rintro found ms v ⟨hfound, rfl, rfl⟩
  simp only [List.nil_append]
  rw [hlayer] at hfound
  by_cases hv : isValidName name = true
  case neg =>
    rw [if_neg hv] at hfound
    cases hfound
  rw [if_pos hv] at hfound
  by_cases hwhole : v.files.isWhole (s.tagPath name) = true
  case neg =>
    rw [if_neg hwhole] at hfound
    cases hfound
    exact ends_throw (habsent (fun h => hwhole h.2) _)
  rw [if_pos hwhole] at hfound
  cases hfound
  have hfit := hfits hv hwhole
  have hlies : (s.tagNamed name).LiesIn (s.root.join Store.tagsDir) (Store.tagsDir :: r) v.files :=
    ⟨hv, rfl, hs.tags⟩
  have hacq := ends_acquire (w := v) hs hu .tag (show isValidName (⟨name⟩ : Identity).name = true from hv) name command wait
  refine Ends.during (P := fun res ms w' => v.Locks r ms w' ∧ v.Holds res w' ∧ ∃ l, res = .ok l)
    (Ends.mapError (hacq.mono ?_)) ?_ ?_
  · rintro res ms w' ⟨hlocks, hclear⟩
    obtain ⟨hholds, hok⟩ := hclear hc
    obtain ⟨l, rfl⟩ := hok (lockFits_of_marker .tag hv ha hfit)
    exact ⟨hlocks, hholds, l, rfl⟩
  · rintro lock ms₀ w₀ ⟨hlocks, hholds, -⟩
    have hw₀ := hlocks.reaches.within
    have hdisk : diskName name :: Store.tagsDir :: r ∉ Store.lockTrails r :=
      Store.not_mem_lockTrails (by decide) _
    have hmark : markerName name :: Store.tagsDir :: r ∉ Store.lockTrails r :=
      Store.not_mem_lockTrails (by decide) _
    -- the lock lies apart from the tag, which is still whole when the lock is held
    have hwhole₀ : w₀.files.isWhole (s.tagPath name) = true :=
      (hlies.isWhole_within hw₀ hdisk hmark).trans hwhole
    refine (ends_discardUnused (hlies.within hw₀) hwhole₀ hfit).mono ?_
    rintro res ms w' ⟨hk, hsilent, hw, hunused, hres⟩
    have hT := (s.tagNamed name).trails_not_mem_lockTrails
      (show Store.tagsDir ≠ Store.locksDir by decide) r
    have hsub : (s.tagNamed name).trails (Store.tagsDir :: r) ⊆ Store.tagTrails r (some name) := by
      rintro t (rfl | rfl)
      · exact Or.inl ⟨name, rfl, Or.inl rfl⟩
      · exact Or.inl ⟨name, rfl, Or.inr rfl⟩
    refine ⟨.of_during hlocks (fun _ => hholds) hk hw hT, ?_, ?_⟩
    · rw [answersOf_append, answersOf_append, hlocks.silent, hsilent]
      rfl
    · rcases hres with ⟨e, rfl, rfl⟩ | ⟨rfl, hgone⟩
      · exact .used hw₀ hunused.symm
      · exact .gone hv hw₀ hunused.symm
          ((hw₀.mono (Store.lockTrails_subset_tagTrails r (some name))).trans (hw.mono hsub)) hgone
  · rintro e ms w' ⟨-, -, l, hl⟩
    cases hl

end Act

end DiskLayers
