import DiskLayers.Proofs.Waiting

/-!
# What a launch leaves

* `Store.Spares`          others that leave the directories of a store and the files of a machine alone
* `Backend.Serves`        host tools that make the disk of a machine and start the machine
* `Attempt`, `attempts`   launches one after the other, each with what the others do meanwhile

A launch that fails leaves no record, and no disk but what the call for it may have left
(`failed_launch_leaves`).  A launch that finds a disk does nothing, so that of several launches of a
machine at most one succeeds (`launched_at_most_once`).
-/

namespace DiskLayers
open DiskLayers.Path

/-! ## taking a lock while others are at work -/

namespace Act
variable {σ : Type} {w : World σ} {s : Store} {r : Trail}

/-- What is true of the files stays true while a lock is taken whose file is open, if neither what is
written to it nor the others harm it. -/
theorem ends_attempt_keeps {P : FileSystem → Prop} {ref : FileRef} {v : World σ} (hP : P v.files)
    (hset : ∀ fs content, P fs → P (fs.setContent ref content))
    (hturn : ∀ turn, v.meanwhile = some turn → ∀ sh : Shared, P sh.files → P (turn sh).files)
    (p : Path) (who command : String) (wait : Duration) :
    (Lock.attempt ref p who command wait).Ends v fun _ ms w' => answersOf ms = [] ∧ P w'.files := by
  have htake : ∀ v : World σ, P v.files → (Lock.take ref p who command).Ends v
      fun _ ms w' => answersOf ms = [] ∧ P w'.files :=
    fun v hv => ends_of_note rfl rfl rfl ⟨rfl, hset _ _ hv⟩
  have hyield : ∀ turn, v.meanwhile = some turn → P v.yield.files := fun turn hm => by
    rw [World.files_yield hm]
    exact hturn turn hm _ hP
  exact ends_attempt (fun _ => htake v hP) (fun _ => ⟨rfl, hP⟩)
    (fun turn hm _ _ => htake _ (hyield turn hm)) fun turn hm _ _ => ⟨rfl, hyield turn hm⟩

/-- What is true of the files stays true while a lock is taken, if neither what is done for the lock
nor the others harm it. -/
theorem ends_acquire_keeps {P : FileSystem → Prop} {p dir : Path} (hparent : p.parent? = some dir)
    (hmade : P (w.files.makeDirectories dir).2)
    (hopened : (w.files.makeDirectories dir).1 = .ok () → ∀ ref fs,
      (w.files.makeDirectories dir).2.open p = .ok (ref, fs) →
        P fs ∧ ∀ fs content, P fs → P (fs.setContent ref content))
    (hturn : ∀ turn, w.meanwhile = some turn → ∀ sh : Shared, P sh.files → P (turn sh).files)
    (who command : String) (wait : Duration) :
    (Lock.acquire p who command wait : Act σ LockError Lock).Ends w
      fun _ ms w' => answersOf ms = [] ∧ P w'.files := by
  rw [Lock.acquire, hparent]
  have hmake : (Lock.makeDirectories dir : Act σ LockError Unit).Ends w fun res ms v =>
      answersOf ms = [] ∧ v.meanwhile = w.meanwhile ∧ v.files = (w.files.makeDirectories dir).2 ∧
        (res = .ok () → (w.files.makeDirectories dir).1 = .ok ()) := by
    refine ends_of_note (runIn_makeDirectories _) rfl rfl
      ⟨rfl, w.meanwhile_note _ _, w.files_note _ _, fun hok => ?_⟩
    cases hm : (w.files.makeDirectories dir).1 with
    | ok _ => rfl
    | error e =>
      rw [hm] at hok
      cases hok
  refine hmake.bind ?_ fun e ms v hv => ⟨hv.1, hv.2.2.1 ▸ hmade⟩
  rintro ⟨⟩ ms v ⟨hans, hmean, hfiles, hok⟩
  have hopen := hopened (hok rfl)
  rw [← hfiles] at hmade hopen
  cases ho : v.files.open p with
  | error e =>
    refine (ends_of_runIn (Q := fun res ms' v' => ms' = [] ∧ v' = v ∧ res = .error (.openFile e))
      (runIn_openFile_error ho) ⟨rfl, rfl, rfl⟩).bind ?_ ?_
    · rintro ref ms' v' ⟨-, -, hres⟩
      cases hres
    · rintro e' ms' v' ⟨rfl, rfl, -⟩
      rw [List.append_nil]
      exact ⟨hans, hmade⟩
  | ok opened =>
    obtain ⟨ref, fs⟩ := opened
    obtain ⟨hPfs, hset⟩ := hopen ref fs ho
    refine (ends_of_note (Q := fun res ms' v' => answersOf ms' = [] ∧ v'.meanwhile = v.meanwhile ∧
      v'.files = fs ∧ res = .ok ref) (runIn_openFile_ok ho) rfl rfl
      ⟨rfl, v.meanwhile_note _ _, v.files_note _ _, rfl⟩).bind ?_ ?_
    · rintro ref' ms' v' ⟨hans', hmean', hfiles', hres⟩
      cases hres
      refine (ends_attempt_keeps (hfiles' ▸ hPfs) hset
        (fun turn hm => hturn turn (hmean ▸ hmean' ▸ hm)) p who command wait).mono ?_
      rintro res ms'' w' ⟨hans'', hP⟩
      rw [answersOf_append, answersOf_append, hans, hans', hans'']
      exact ⟨rfl, hP⟩
    · rintro e ms' v' ⟨-, -, -, hres⟩
      cases hres

theorem ends_acquire_standing {P : FileSystem → Prop} (hP : P w.files) (hs : s.StandsAt r w.files)
    (hlocks : ∀ fs fs', P fs → FileSystem.Within (Store.lockTrails r) fs fs' → P fs')
    (hturn : ∀ turn, w.meanwhile = some turn → ∀ sh : Shared, P sh.files → P (turn sh).files)
    (kind : LayerKind) {key : Identity} (hv : isValidName key.name = true) (who command : String)
    (wait : Duration) :
    (Lock.acquire (s.lockPath kind key) who command wait : Act σ LockError Lock).Ends w
      fun _ ms w' => answersOf ms = [] ∧ P w'.files := by
  have hkind := Store.isPlain_lockDir kind
  have hmade := hlocks _ _ hP
    ((FileSystem.within_makeDirectories hs.locks hkind).of_singleton ⟨[_], rfl⟩)
  refine ends_acquire_keeps (s.parent?_lockPath kind hv) hmade (fun hok ref fs ho => ?_) hturn who
    command wait
  obtain ⟨hw, href⟩ := FileSystem.within_open (FileSystem.lookup_makeDirectories hs.locks hkind hok)
    (isPlain_lockFile hv) ho
  refine ⟨hlocks _ _ hmade (hw.of_singleton ⟨[_, _], rfl⟩), fun fs content hfs => hlocks _ _ hfs ?_⟩
  exact (FileSystem.within_setContent _ _ _).of_singleton (href ▸ ⟨[_, _], rfl⟩)

end Act

/-! ## launching while others are at work -/

/-- Others that leave the directories of a store and the files of a machine alone, if they have their
turn. -/
def Store.Spares (s : Store) (r : Trail) (name : String) (turn : Option (Shared → Shared)) : Prop :=
  ∀ f, turn = some f → ∀ sh : Shared, s.StandsAt r sh.files →
    s.StandsAt r (f sh).files ∧ ∀ t ∈ Store.instanceTrails r name,
      (f sh).files.node? t = sh.files.node? t

namespace Act
variable {σ : Type} {backend : Backend σ} {w : World σ} {s : Store} {r : Trail}

theorem launch_of_present {tag : String} {m : MachineSpec}
    (h : w.files.isPresent (s.instancePath m.name) = true) :
    ∃ e, (launch backend s tag m).runIn w = (.error e, w) ∧
      (isValidName m.name = true → isValidName tag = true →
        w.files.isWhole (s.tagPath tag) = true → e = .instanceExists m.name) := by
  have hrun := @launch_runIn σ backend w s tag m
  rw [if_pos h] at hrun
  split at hrun
  · next hm => exact ⟨_, hrun, fun hm' => by rw [hm] at hm'; cases hm'⟩
  split at hrun
  · next ht => exact ⟨_, hrun, fun _ ht' => by rw [ht] at ht'; cases ht'⟩
  split at hrun
  · next hwhole => exact ⟨_, hrun, fun _ _ hwhole' => by rw [hwhole] at hwhole'; cases hwhole'⟩
  exact ⟨_, hrun, fun _ _ _ => rfl⟩

/-- How a launch ends while others leave the store and the files of the machine alone: as it ends
where it takes its lock. -/
theorem ends_launch_spared (tag : String) (m : MachineSpec) (hb : backend.Confined)
    (hl : backend.LeavesFiles) (hsp : backend.Sparing s) (hs : s.StandsAt r w.files)
    (hspares : s.Spares r m.name w.meanwhile)
    (hfree : ∀ t ∈ Store.instanceTrails r m.name, w.files.node? t ≠ some .dir) :
    (launch backend s tag m).Ends w fun res ms w' => ∃ fs, s.StandsAt r fs ∧
      (∀ t ∈ Store.instanceTrails r m.name, fs.node? t = w.files.node? t) ∧
        Launched s r tag m fs res ms w'.files := by
  refine ends_launch_of_locked (fun e => ⟨w.files, hs, fun _ _ => rfl,
    .refused (fun a ha => absurd ha List.not_mem_nil) (.refl _ _)⟩) fun hm ht hwhole hpresent => ?_
  have hacq := ends_acquire_standing (w := w) (s := s) (r := r)
    (P := fun fs => s.StandsAt r fs ∧ ∀ t ∈ Store.instanceTrails r m.name, fs.node? t = w.files.node? t)
    ⟨hs, fun _ _ => rfl⟩ hs
    (fun fs fs' h hw => ⟨h.1.within hw, fun t ht =>
      (hw.same t (Store.not_mem_lockTrails_of_instance r m.name t ht)).trans (h.2 t ht)⟩)
    (fun turn hturn sh h => ⟨(hspares turn hturn sh h.1).1, fun t ht =>
      ((hspares turn hturn sh h.1).2 t ht).trans (h.2 t ht)⟩)
    .tag (show isValidName (⟨tag⟩ : Identity).name = true from ht) tag
    (programName ++ " run " ++ tag) defaultLockWait
  refine Ends.during (Ends.mapError (Q := fun _ ms w' => answersOf ms = [] ∧ s.StandsAt r w'.files ∧
    ∀ t ∈ Store.instanceTrails r m.name, w'.files.node? t = w.files.node? t) (Ends.mapError hacq)) ?_ ?_
  · rintro lock ms₀ w₀ ⟨hsilent, hs₀, hsame⟩
    have habsent : w₀.files.isPresent (s.instancePath m.name) = false := by
      rw [← Bool.not_eq_true, Store.instancePath,
        FileSystem.isPresent_join hs₀.instances (isPlain_diskName hm), hsame _ (Or.inl rfl),
        ← FileSystem.isPresent_join hs.instances (isPlain_diskName hm), Bool.not_eq_true]
      exact hpresent
    refine (ends_launchLocked (w := w₀) tag m hb hl hsp hs₀ hm ht
      (fun t ht => by rw [hsame t ht]; exact hfree t ht) habsent).mono ?_
    rintro res ms w' ⟨-, -, -, hres⟩
    exact ⟨w₀.files, hs₀, hsame, hres.of_locks hs₀ (.refl _ _) hsilent rfl⟩
  · rintro e ms w' ⟨hsilent, hs', hsame⟩
    refine ⟨w'.files, hs', hsame, .refused (fun a ha => ?_) (.refl _ _)⟩
    rw [hsilent] at ha
    cases ha

end Act

/-! ## what a machine is recorded by -/

theorem recordedMachine?_eq_some {file machine : String} (hn : IsPlain file.toList)
    (h : Store.recordedMachine? file = some machine) : file = recordName machine := by
  rw [Store.recordedMachine?] at h
  split at h
  · next hext => exact ((splitExtension_iff (properName?_of_isPlain hn) (by decide) (by decide)).mp ⟨hext, h⟩).2
  · cases h

/-- a machine without a record runs on no tag -/
theorem Store.not_mem_instancesOf {s : Store} {fs : FileSystem} {r : Trail} {name tag : String}
    {machines : List String} (hs : s.StandsAt r fs)
    (hplain : ∀ file ∈ fs.children (instancesDir :: r), IsPlain file.toList)
    (hnone : fs.node? (recordName name :: instancesDir :: r) = none)
    (h : s.instancesOf fs tag = .ok machines) : name ∉ machines := by
  rw [instancesOf_eq_bind tag hs.instances] at h
  intro hmem
  cases hm : (fs.children (instancesDir :: r)).mapM (s.machineOf? fs tag) with
  | error e =>
    rw [hm] at h
    cases h
  | ok found =>
    rw [hm, ok_bind] at h
    cases h
    obtain ⟨o, ho, he⟩ := List.mem_filterMap.mp (List.mem_mergeSort.mp hmem)
    have hfound : o = some name := he
    rw [hfound] at ho
    obtain ⟨file, hfile, hmachine⟩ := (mem_of_mapM_eq_ok hm).2 _ ho
    rw [machineOf?] at hmachine
    cases hrec : recordedMachine? file with
    | none =>
      rw [hrec] at hmachine
      cases hmachine
    | some machine =>
      rw [hrec] at hmachine
      dsimp only at hmachine
      have hname : machine = name := by
        split at hmachine
        · split at hmachine
          · cases hmachine
          · split at hmachine
            · cases hmachine
              rfl
            · cases hmachine
        · cases hmachine
      rw [recordedMachine?_eq_some (hplain file hfile) hrec, hname] at hfile
      exact FileSystem.mem_children.mp hfile hnone

/-! ## launches that succeed -/

/-- Host tools that make the disk of a machine, where there is none, from a tag that is whole, and
start the machine on it. -/
structure Backend.Serves (backend : Backend σ) (s : Store) (r : Trail) (tag : String)
    (m : MachineSpec) : Prop where
  confined : backend.Confined
  leaves : backend.LeavesFiles
  snapshot : ∀ tools fs, s.StandsAt r fs → fs.isWhole (s.tagPath tag) = true →
    (s.root.join Store.instancesDir).Fits (diskName m.name) →
      fs.node? (diskName m.name :: Store.instancesDir :: r) = none →
        (backend (.snapshot (s.tagPath tag) (s.instancePath m.name)) tools fs).1 = .ok ()
  start : ∀ tools fs, fs.isFile (s.instancePath m.name) = true →
    (backend (.createMachine (s.instancePath m.name) m) tools fs).1 = .ok ()

/-- host tools that write whatever disk they are asked for serve any machine -/
theorem Backend.serves_touching (s : Store) (r : Trail) (tag : String) {m : MachineSpec}
    (hm : isValidName m.name = true) :
    (Backend.touching (fun _ => false) : Backend σ).Serves s r tag m := by
  refine ⟨confined_touching _, leavesFiles_touching _, fun tools fs hs _ hf hnone => ?_, fun _ _ _ => rfl⟩
  have hplain := isPlain_diskName hm
  obtain ⟨fs', hwrite⟩ := FileSystem.write_join hs.instances hplain hf (by simp [hnone]) .empty
  have hfile : fs'.isFile (s.instancePath m.name) = true := by
    rcases FileSystem.write_join_cases hs.instances hplain .empty with ⟨e, he⟩ | ⟨-, -, b, fs₁, he, -, hnode⟩
    · rw [he] at hwrite
      cases hwrite
    · rw [he] at hwrite
      cases hwrite
      rw [Store.instancePath, FileSystem.isFile_join
        (hs.within (FileSystem.within_write hs.instances hplain he)).instances hplain]
      exact ⟨hf, b, .empty, by rw [hnode, Function.update_self]⟩
  have hwrite' : fs.write (s.instancePath m.name) .empty = .ok fs' := hwrite
  rw [touching]
  dsimp only [Call.target?]
  rw [if_neg Bool.false_ne_true, hwrite']
  dsimp only
  rw [if_pos hfile]

/-- A machine that can be launched from a tag: the tag is whole, its lock is free, names are not too
long, and the host tools do their part. -/
structure World.Launchable (backend : Backend σ) (s : Store) (r : Trail) (tag : String)
    (m : MachineSpec) (w : World σ) : Prop where
  serves : backend.Serves s r tag m
  undisturbed : w.Undisturbed
  clear : w.Clear r
  machine : isValidName m.name = true
  fits : (s.root.join Store.instancesDir).Fits (diskName m.name)
  named : isValidName tag = true
  lock : s.LockFits .tag ⟨tag⟩
  whole : w.files.isWhole (s.tagPath tag) = true

namespace Act
variable {σ : Type} {backend : Backend σ} {w : World σ} {s : Store} {r : Trail} {tag : String}
  {m : MachineSpec}

/-- a launch succeeds that holds its lock -/
theorem launchLocked_succeeds (hserves : backend.Serves s r tag m) (hs : s.StandsAt r w.files)
    (hm : isValidName m.name = true) (hf : (s.root.join Store.instancesDir).Fits (diskName m.name))
    (hwhole : w.files.isWhole (s.tagPath tag) = true)
    (hnone : ∀ t ∈ Store.instanceTrails r m.name, w.files.node? t = none) :
    (launchLocked backend s (s.tagNamed tag) m).Ends w fun res _ _ => res = .ok (s.instancePath m.name) := by
  have hplain := isPlain_diskName hm
  have hbase := (FileSystem.lookup_eq_dir.mp hs.instances).1.ne_nil
  have hdisk := hnone _ (Or.inl rfl)
  rw [launchLocked]
  refine ends_inspect_bind ?_
  rw [show (s.tagNamed tag).isComplete w.files = true from hwhole]
  have hsnap : (Act.call backend (.snapshot (s.tagPath tag) (s.instancePath m.name))).Ends w
      fun res _ v => res = .ok () ∧ s.StandsAt r v.files ∧
        FileSystem.Within {diskName m.name :: Store.instancesDir :: r} w.files v.files ∧
          v.files.isFile (s.instancePath m.name) = true := by
    have hok := hserves.snapshot w.tools w.files hs hwhole hf hdisk
    have hw := within_call (s := w.tools) hserves.confined
      (c := .snapshot (s.tagPath tag) (s.instancePath m.name)) rfl hs.instances hplain hf
      (by rw [hdisk]; simp)
    exact ends_of_note rfl rfl rfl ⟨hok, hs.within hw, hw, hserves.leaves _ _ rfl _ _ hok⟩
  refine hsnap.bind_mapError ?_ fun e _ _ hv => by cases hv.1
  rintro ⟨⟩ ms v ⟨-, hsv, hwv, hfile⟩
  have hrecord : (s.recordInstance m.name tag : Act σ StoreError Unit).Ends v fun res _ v' =>
      res = .ok () ∧ v'.files.isFile (s.instancePath m.name) = true := by
    refine (ends_writePath hsv.instances (isPlain_recordName hm) _).mono ?_
    rintro res ms' v' ⟨ht, ⟨hres, -⟩ | ⟨-, -, -, hdir⟩⟩
    · refine ⟨hres, ?_⟩
      rw [Store.instancePath, FileSystem.isFile_join (hsv.within ht.reaches.within).instances hplain,
        ht.reaches.within.same _ fun e => diskName_ne_recordName _ _ (List.cons.inj e).1]
      exact (FileSystem.isFile_join hsv.instances hplain).mp hfile
    · have hd := hdir (fits_recordName hm hbase hf)
      rw [hwv.same _ fun e => diskName_ne_recordName _ _ (List.cons.inj e).1.symm,
        hnone _ (Or.inr rfl)] at hd
      cases hd
  refine Ends.bind (P := fun res _ v' => res = .ok () ∧ v'.files.isFile (s.instancePath m.name) = true)
    (Ends.orElseUndo (Ends.mapError (Q := fun res _ v' => res = .ok () ∧
      v'.files.isFile (s.instancePath m.name) = true) (hrecord.mono ?_)) (fun _ _ _ hv => hv)
        fun e _ _ hv => by cases hv.1) ?_ fun e _ _ hv => by cases hv.1
  · rintro res _ v' ⟨rfl, hv'⟩
    exact ⟨rfl, hv'⟩
  rintro ⟨⟩ ms' v' ⟨-, hfile'⟩
  have hstart : ((Act.call backend (.createMachine (s.instancePath m.name) m)).mapError
      (MachineError.create m.name) : Act σ MachineError Unit).Ends v' fun res _ _ => res = .ok () := by
    refine Ends.mapError (ends_of_note rfl rfl rfl ?_)
    rw [hserves.start v'.tools v'.files hfile']
    rfl
  refine Ends.bind (P := fun res _ _ => res = .ok ()) (hstart.orElseUndo (fun _ _ _ hv => hv)
    fun e _ _ hv => by cases hv) ?_ fun e _ _ hv => by cases hv
  rintro ⟨⟩ ms'' v'' -
  exact ends_pure rfl

/-- a machine is launched that has neither a disk nor a record -/
theorem launch_succeeds (h : w.Launchable backend s r tag m) (hs : s.StandsAt r w.files)
    (hnone : ∀ t ∈ Store.instanceTrails r m.name, w.files.node? t = none) :
    ((launch backend s tag m).runIn w).1 = .ok (s.instancePath m.name) := by
  have hplain := isPlain_diskName h.machine
  have habsent : ¬ w.files.isPresent (s.instancePath m.name) = true := by
    rw [Store.instancePath, FileSystem.isPresent_join hs.instances hplain]
    exact fun hp => hp.2 (hnone _ (Or.inl rfl))
  have hlocked : (lockedLaunch backend s tag m).Ends w fun res _ _ =>
      res = .ok (s.instancePath m.name) := by
    have hacq := ends_acquire (w := w) hs h.undisturbed .tag
      (show isValidName (⟨tag⟩ : Identity).name = true from h.named) tag
      (programName ++ " run " ++ tag) defaultLockWait
    refine Ends.during (P := fun res ms w' => w.Locks r ms w' ∧ w.Holds res w' ∧ ∃ l, res = .ok l)
      (Ends.mapError (Ends.mapError (hacq.mono ?_))) ?_ ?_
    · rintro res ms w' ⟨hlocks, hclear⟩
      obtain ⟨hholds, hok⟩ := hclear h.clear
      obtain ⟨l, rfl⟩ := hok h.lock
      exact ⟨hlocks, hholds, l, rfl⟩
    · rintro l ms w₀ ⟨hlocks, -, -⟩
      have hw₀ := hlocks.reaches.within
      have hwhole : w₀.files.isWhole (s.tagPath tag) = true := by
        rw [← h.whole, Store.tagPath]
        exact hw₀.isWhole_join hs.tags h.named (Store.not_mem_lockTrails (by decide) _)
          (Store.not_mem_lockTrails (by decide) _)
      refine launchLocked_succeeds h.serves (hs.within hw₀) h.machine h.fits hwhole fun t ht => ?_
      rw [hw₀.same t (Store.not_mem_lockTrails_of_instance r m.name t ht)]
      exact hnone t ht
    · rintro e ms w' ⟨-, -, l, hl⟩
      cases hl
  obtain ⟨ms, -, -, hres⟩ := hlocked
  rw [launch_runIn, if_neg (by rw [h.machine]; simp), if_neg (by rw [h.named]; simp),
    if_neg (by rw [h.whole]; simp), if_neg habsent]
  exact hres

end Act

/-! ## launches that fail -/

/-- What is left of a machine when its launch has ended with an error: no record, so that it pins no
tag, and no disk either, unless the call for the disk was the only one made and has failed.  Where no
disk is left the machine can be launched, from whichever tag. -/
structure Abandoned (s : Store) (r : Trail) (tag : String) (m : MachineSpec) (e : MachineError)
    (ms : List Moment) (fs : FileSystem) : Prop where
  record : fs.node? (recordName m.name :: Store.instancesDir :: r) = none
  disk : fs.node? (diskName m.name :: Store.instancesDir :: r) = none ∨ ∃ cause,
    e = .storage m.name (.backend cause) ∧
      answersOf ms = [(.snapshot (s.tagPath tag) (s.instancePath m.name), .error cause)]
  unpinned : (∀ file ∈ fs.children (Store.instancesDir :: r), IsPlain file.toList) →
    ∀ tag' machines, s.instancesOf fs tag' = .ok machines → m.name ∉ machines
  again : fs.node? (diskName m.name :: Store.instancesDir :: r) = none →
    ∀ (σ : Type) (backend : Backend σ) (v : World σ) (tag' : String) (m' : MachineSpec),
      v.files = fs → m'.name = m.name → v.Launchable backend s r tag' m' →
        ((launch backend s tag' m').runIn v).1 = .ok (s.instancePath m.name)

/-- without a record, and with a disk only where it is said, a machine is abandoned -/
theorem Abandoned.of_files {s : Store} {r : Trail} {tag : String} {m : MachineSpec} {e : MachineError}
    {ms : List Moment} {fs : FileSystem} (hs : s.StandsAt r fs)
    (hrecord : fs.node? (recordName m.name :: Store.instancesDir :: r) = none)
    (hdisk : fs.node? (diskName m.name :: Store.instancesDir :: r) = none ∨ ∃ cause,
      e = .storage m.name (.backend cause) ∧
        answersOf ms = [(.snapshot (s.tagPath tag) (s.instancePath m.name), .error cause)]) :
    Abandoned s r tag m e ms fs where
  record := hrecord
  disk := hdisk
  unpinned hplain _ _ h := Store.not_mem_instancesOf hs hplain hrecord h
  again hnone σ backend v tag' m' hv hname hlaunch := by
    subst hv
    rw [← hname] at hnone hrecord ⊢
    refine Act.launch_succeeds hlaunch hs ?_
    rintro t (rfl | rfl)
    · exact hnone
    · exact hrecord

/-- A launch that fails, of a machine that had neither a disk nor a record, leaves nothing but what the
call for the disk leaves when it is this that fails. -/
theorem failed_launch_leaves {σ : Type} {backend : Backend σ} {w : World σ} {s : Store} {r : Trail}
    (tag : String) (m : MachineSpec) (hb : backend.Confined) (hl : backend.LeavesFiles)
    (hsp : backend.Sparing s) (hs : s.StandsAt r w.files) (hspares : s.Spares r m.name w.meanwhile)
    (hnone : ∀ t ∈ Store.instanceTrails r m.name, w.files.node? t = none) :
    (launch backend s tag m).Ends w fun res ms w' => ∀ e, res = .error e →
      Abandoned s r tag m e ms w'.files := by
  refine (Act.ends_launch_spared tag m hb hl hsp hs hspares fun t ht => by simp [hnone t ht]).mono ?_
  rintro res ms w' ⟨fs, hfs, hsame, hres⟩ e rfl
  have hrecord := (hsame _ (Or.inr rfl)).trans (hnone _ (Or.inr rfl))
  have hdisk := (hsame _ (Or.inl rfl)).trans (hnone _ (Or.inl rfl))
  generalize w'.files = fs' at hres ⊢
  cases hres with
  | refused _ hw =>
    refine .of_files (hfs.within hw) ?_ (Or.inl ?_)
    · rw [hw.same _ (Store.not_mem_lockTrails_of_instance r m.name _ (Or.inr rfl))]
      exact hrecord
    · rw [hw.same _ (Store.not_mem_lockTrails_of_instance r m.name _ (Or.inl rfl))]
      exact hdisk
  | undone _ _ hw _ hrecord' hdisk' =>
    exact .of_files (hfs.within hw) (hrecord'.elim id fun he => he.trans hrecord) hdisk'

/-! ### a snapshot that is interrupted -/

/-- where nobody holds a lock, any machine can be launched from a whole tag -/
theorem World.Launchable.of_tidy {s : Store} {r : Trail} {tag : String} {m : MachineSpec}
    {fs : FileSystem} (hm : isValidName m.name = true)
    (hf : (s.root.join Store.instancesDir).Fits (diskName m.name)) (ht : isValidName tag = true)
    (htidy : Store.LocksTidy r fs) (hlock : s.LockFits .tag ⟨tag⟩)
    (hwhole : fs.isWhole (s.tagPath tag) = true) :
    (World.on fs).Launchable (.touching fun _ => false) s r tag m where
  serves := Backend.serves_touching s r tag hm
  undisturbed := World.undisturbed_on fs
  clear := ⟨fun _ href => absurd href List.not_mem_nil, htidy⟩
  machine := hm
  fits := hf
  named := ht
  lock := hlock
  whole := hwhole

/-- locks are tidy if no directory of locks is a file and none holds a directory -/
theorem Store.locksTidy_iff {r : Trail} {fs : FileSystem} :
    (∀ kind ∈ [LayerKind.base, .derived, .tag],
      (fs.node? (lockDir kind :: locksDir :: r)).all (fun n => !n.isFile) = true ∧
        ∀ name ∈ fs.children (lockDir kind :: locksDir :: r),
          fs.node? (name :: lockDir kind :: locksDir :: r) ≠ some .dir) ↔ LocksTidy r fs := by
  constructor
  · intro h
    have hkind : ∀ kind, kind ∈ [LayerKind.base, .derived, .tag] := by
      intro kind
      cases kind <;> decide
    refine ⟨fun kind b c hf => ?_, fun kind name hd => ?_⟩
    · have hdir := (h kind (hkind kind)).1
      rw [hf] at hdir
      cases hdir
    · exact (h kind (hkind kind)).2 name (FileSystem.mem_children.mpr (by simp [hd])) hd
  · intro h kind _
    refine ⟨?_, fun name _ => h.files kind name⟩
    rw [Option.all_eq_true]
    intro n hn
    cases n with
    | dir => rfl
    | file b c => exact absurd hn (h.dirs kind b c)

instance (r : Trail) (fs : FileSystem) : Decidable (Store.LocksTidy r fs) :=
  decidable_of_iff _ Store.locksTidy_iff

/-- a store at the root with a tag -/
def FileSystem.tagged : FileSystem where
  nodes := (Store.directories.map fun dir => ([dir], .dir)) ++
    [(["web.qcow2", Store.tagsDir], .file 0 .empty)]
  births := 1

/-- The machine does not start: its disk is taken away, and it can be launched by host tools that start
it. -/
theorem failed_launch_leaves_unstarted :
    let s : Store := ⟨⟨"/"⟩⟩
    let w : World (List Call) := .afresh .tagged
    let backend : Backend (List Call) := .refusing fun _ c => c.target?.isNone
    let out := (launch backend s "web" { name := "m" }).runIn w
    (∀ t ∈ Store.instanceTrails [] "m", w.files.node? t = none) ∧
      out.1 = .error (.create "m" (.timeout "virsh" ⟨60, 0⟩)) ∧
        (∀ t ∈ Store.instanceTrails [] "m", out.2.files.node? t = none) ∧
          ((launch (.touching fun _ => false) s "web" { name := "m" }).runIn (.on out.2.files)).1 =
            .ok (s.instancePath "m") := by
  intro s w backend
  have hs : s.StandsAt [] w.files := by
    unfold Store.StandsAt
    decide +kernel
  have hnone : ∀ t ∈ Store.instanceTrails [] "m", w.files.node? t = none := by
    rintro t (rfl | rfl) <;> decide +kernel
  obtain ⟨herror, htidy, hwhole⟩ :
      ((launch backend s "web" { name := "m" }).runIn w).1 =
          .error (.create "m" (.timeout "virsh" ⟨60, 0⟩)) ∧
        Store.LocksTidy [] ((launch backend s "web" { name := "m" }).runIn w).2.files ∧
          ((launch backend s "web" { name := "m" }).runIn w).2.files.isWhole (s.tagPath "web") = true := by
    decide +kernel
  obtain ⟨ms, hj, -, hleft⟩ := @failed_launch_leaves (List Call) backend w s [] "web"
    { name := "m" } (Backend.confined_refusing _) (Backend.leavesFiles_refusing _)
    (Backend.sparing_refusing _ s) hs (fun f hf => by cases hf) hnone
  dsimp only
  generalize (launch backend s "web" { name := "m" }).runIn w = out at herror htidy hwhole hj hleft ⊢
  have hms : out.2.journal = ms := hj
  have h := hleft _ herror
  have hdisk : out.2.files.node? (diskName "m" :: Store.instancesDir :: []) = none := by
    rcases h.disk with hd | ⟨_, he, -⟩
    · exact hd
    · cases he
  refine ⟨hnone, herror, ?_, h.again hdisk Unit _ _ "web" { name := "m" } rfl rfl
    (.of_tidy (by decide) (by decide) (by decide) htidy ?_ hwhole)⟩
  · rintro t (rfl | rfl)
    · exact hdisk
    · exact h.record
  · unfold Store.LockFits
    decide

/-- Host tools whose snapshot is interrupted once it has been written. -/
def Backend.interrupted : Backend σ := fun c tools fs =>
  match c.target? with
  | none => (.ok (), tools, fs)
  | some _ => (.error (.timeout "qemu-img" ⟨60, 0⟩), tools,
      (Backend.touching (fun _ => false) c tools fs).2.2)

theorem Backend.confined_interrupted : (Backend.interrupted : Backend σ).Confined := by
  refine ⟨fun {c p} hc tools fs t ht => ?_, fun {c p} hc tools fs => ?_⟩
  · rw [interrupted, hc]
    exact (confined_touching _).same hc tools fs t ht
  · rw [interrupted, hc]
    exact (confined_touching _).current hc tools fs

/-- The disk that an interrupted snapshot has begun is left, and no launch of the machine succeeds while
it is there. -/
theorem failed_launch_leaves_disk :
    let s : Store := ⟨⟨"/"⟩⟩
    let w : World Unit := .on .tagged
    let out := (launch .interrupted s "web" { name := "m" }).runIn w
    (Backend.interrupted : Backend Unit).Confined ∧
      (∀ t ∈ Store.instanceTrails [] "m", w.files.node? t = none) ∧
        (World.on out.2.files).Launchable (.touching fun _ => false) s [] "web" { name := "m" } ∧
          out.1 = .error (.storage "m" (.backend (.timeout "qemu-img" ⟨60, 0⟩))) ∧
            out.2.files.isPresent (s.instancePath "m") = true ∧
              ((launch (.touching fun _ => false) s "web" { name := "m" }).runIn (.on out.2.files)).1 =
                .error (.instanceExists "m") := by
  intro s w out
  obtain ⟨htidy, hwhole, hrest⟩ : Store.LocksTidy [] out.2.files ∧
      out.2.files.isWhole (s.tagPath "web") = true ∧
        out.1 = .error (.storage "m" (.backend (.timeout "qemu-img" ⟨60, 0⟩))) ∧
          out.2.files.isPresent (s.instancePath "m") = true ∧
            ((launch (.touching fun _ => false) s "web" { name := "m" }).runIn (.on out.2.files)).1 =
              .error (.instanceExists "m") := by
    decide +kernel
  refine ⟨Backend.confined_interrupted, ?_, .of_tidy (by decide) (by decide) (by decide) htidy ?_ hwhole,
    hrest⟩
  · rintro t (rfl | rfl) <;> decide +kernel
  · unfold Store.LockFits
    decide

/-! ## launches one after the other -/

/-- A launch of a machine, with what the others do if they get their turn while it waits. -/
structure Attempt (σ : Type) where
  backend : Backend σ
  tag : String
  spec : MachineSpec
  meanwhile : Option (Shared → Shared) := none

/-- what comes of the attempt -/
def Attempt.run (s : Store) (a : Attempt σ) (w : World σ) : Except MachineError Path × World σ :=
  (launch a.backend s a.tag a.spec).runIn { w with meanwhile := a.meanwhile }

/-- attempts one after the other, with what comes of each -/
def attempts (s : Store) : List (Attempt σ) → World σ → List (Except MachineError Path) × World σ
  | [], w => ([], w)
  | a :: rest, w =>
    let out := a.run s w
    let outs := attempts s rest out.2
    (out.1 :: outs.1, outs.2)

/-- The attempt is about the machine of this name, and neither its host tools nor the others touch what
is not theirs. -/
structure Attempt.IsFair (a : Attempt σ) (s : Store) (r : Trail) (name : String) : Prop where
  named : a.spec.name = name
  confined : a.backend.Confined
  leaves : a.backend.LeavesFiles
  sparing : a.backend.Sparing s
  others : s.Spares r name a.meanwhile

/-- The directories of the store are there, and neither the disk nor the record of the machine is a
directory. -/
structure Store.Awaits (s : Store) (r : Trail) (name : String) (fs : FileSystem) : Prop where
  stands : s.StandsAt r fs
  free : ∀ t ∈ instanceTrails r name, fs.node? t ≠ some .dir

section
variable {σ : Type} {s : Store} {r : Trail} {name : String} {w : World σ} {a : Attempt σ}

/-- an attempt leaves the store ready for the next one, and if it succeeds the disk is there -/
theorem Attempt.IsFair.run (ha : a.IsFair s r name) (hw : s.Awaits r name w.files) :
    s.Awaits r name (a.run s w).2.files ∧
      ((a.run s w).1.isOk = true → (a.run s w).2.files.isPresent (s.instancePath name) = true) := by
  obtain ⟨rfl, hb, hl, hsp, hothers⟩ := ha
  obtain ⟨ms, -, -, fs, hfs, hsame, hres⟩ := Act.ends_launch_spared (w := { w with meanwhile := a.meanwhile })
    a.tag a.spec hb hl hsp hw.stands hothers hw.free
  change Launched s r a.tag a.spec fs (a.run s w).1 ms (a.run s w).2.files at hres
  have hfree : ∀ t ∈ Store.instanceTrails r a.spec.name, fs.node? t ≠ some .dir := fun t ht => by
    rw [hsame t ht]
    exact hw.free t ht
  generalize (a.run s w).2.files = fs' at hres ⊢
  generalize (a.run s w).1 = res at hres ⊢
  cases hres with
  | refused _ hw' =>
    refine ⟨⟨hfs.within hw', fun t ht => ?_⟩, fun h => by cases h⟩
    rw [hw'.same t (Store.not_mem_lockTrails_of_instance r _ t ht)]
    exact hfree t ht
  | undone _ _ hw' hdisk hrecord _ =>
    refine ⟨⟨hfs.within hw', ?_⟩, fun h => by cases h⟩
    rintro t (rfl | rfl)
    · exact hdisk
    · rcases hrecord with he | he
      · simp [he]
      · rw [he]
        exact hfree _ (Or.inr rfl)
  | running hm _ _ _ hw' hf hdisk hrecord _ =>
    obtain ⟨b, c, hdisk⟩ := hdisk
    obtain ⟨b', hrecord⟩ := hrecord
    refine ⟨⟨hfs.within hw', ?_⟩, fun _ => ?_⟩
    · rintro t (rfl | rfl)
      · simp [hdisk]
      · simp [hrecord]
    · rw [Store.instancePath, FileSystem.isPresent_join (hfs.within hw').instances (isPlain_diskName hm)]
      exact ⟨hf, by simp [hdisk]⟩

/-- attempts at a machine whose disk is there all fail and do nothing -/
theorem attempts_of_present {as : List (Attempt σ)} (has : ∀ a ∈ as, a.spec.name = name)
    (hw : w.files.isPresent (s.instancePath name) = true) :
    (∀ res ∈ (attempts s as w).1, res.isOk = false) ∧ (attempts s as w).2.files = w.files ∧
      (attempts s as w).2.journal = w.journal := by
  induction as generalizing w with
  | nil => exact ⟨fun _ h => absurd h List.not_mem_nil, rfl, rfl⟩
  | cons a rest ih =>
    obtain ⟨e, hrun⟩ : ∃ e, a.run s w = (.error e, { w with meanwhile := a.meanwhile }) := by
      have hdisk : w.files.isPresent (s.instancePath a.spec.name) = true := has a List.mem_cons_self ▸ hw
      obtain ⟨e, hrun, -⟩ := @Act.launch_of_present σ a.backend { w with meanwhile := a.meanwhile } s
        a.tag a.spec hdisk
      exact ⟨e, hrun⟩
    obtain ⟨hfail, hfiles, hjournal⟩ := ih (w := { w with meanwhile := a.meanwhile })
      (fun b hb => has b (List.mem_cons_of_mem _ hb)) hw
    rw [attempts, hrun]
    refine ⟨fun res hres => ?_, hfiles, hjournal⟩
    rcases List.mem_cons.mp hres with rfl | hres
    · rfl
    · exact hfail res hres

theorem attempts_awaits {as : List (Attempt σ)} (has : ∀ a ∈ as, a.IsFair s r name)
    (hw : s.Awaits r name w.files) : s.Awaits r name (attempts s as w).2.files := by
  induction as generalizing w with
  | nil => exact hw
  | cons a rest ih =>
    exact ih (fun b hb => has b (List.mem_cons_of_mem _ hb)) ((has a List.mem_cons_self).run hw).1

/-- at most one attempt succeeds -/
theorem countP_attempts_le_one {as : List (Attempt σ)} (has : ∀ a ∈ as, a.IsFair s r name)
    (hw : s.Awaits r name w.files) : (attempts s as w).1.countP Except.isOk ≤ 1 := by
  induction as generalizing w with
  | nil => exact Nat.zero_le _
  | cons a rest ih =>
    obtain ⟨hready, hdisk⟩ := (has a List.mem_cons_self).run hw
    have hrest : ∀ b ∈ rest, b.IsFair s r name := fun b hb => has b (List.mem_cons_of_mem _ hb)
    rw [attempts]
    dsimp only
    cases hok : (a.run s w).1.isOk with
    | false =>
      rw [List.countP_cons_of_neg (by simp [hok])]
      exact ih hrest hready
    | true =>
      have hfail := (attempts_of_present (fun b hb => (hrest b hb).named) (hdisk hok)).1
      rw [List.countP_cons_of_pos hok, List.countP_eq_zero.mpr fun res hres => by simp [hfail res hres]]

/-- A launch that finds a disk of the machine does nothing and says so; of launches of one machine, one
after the other, that neither the others nor the host tools interfere with at most one succeeds, and those
after it make no call and change no file. -/
theorem launched_at_most_once {as : List (Attempt σ)} (has : ∀ a ∈ as, a.IsFair s r name)
    (hw : s.Awaits r name w.files) :
    (∀ (backend : Backend σ) (tag : String) (m : MachineSpec) (v : World σ),
      v.files.isPresent (s.instancePath m.name) = true →
        ∃ e, (launch backend s tag m).runIn v = (.error e, v) ∧
          (isValidName m.name = true → isValidName tag = true →
            v.files.isWhole (s.tagPath tag) = true → e = .instanceExists m.name)) ∧
      (attempts s as w).1.countP Except.isOk ≤ 1 ∧
        ∀ first a rest, as = first ++ a :: rest →
          let won := a.run s (attempts s first w).2
          won.1.isOk = true → (∀ res ∈ (attempts s rest won.2).1, res.isOk = false) ∧
            (attempts s rest won.2).2.files = won.2.files ∧
              (attempts s rest won.2).2.journal = won.2.journal := by
  refine ⟨fun backend tag m v hv => Act.launch_of_present hv, countP_attempts_le_one has hw, ?_⟩
  rintro first a rest rfl won hok
  have hfirst := attempts_awaits (fun b hb => has b (List.mem_append_left _ hb)) hw
  have hrun := (has a (List.mem_append_right _ List.mem_cons_self)).run hfirst
  exact attempts_of_present (fun b hb =>
    (has b (List.mem_append_right _ (List.mem_cons_of_mem _ hb))).named) (hrun.2 hok)

end

/-- The first of three launches is given up, the second succeeds, the third finds its disk. -/
theorem launched_at_most_once_of_three :
    let s : Store := ⟨⟨"/"⟩⟩
    let w : World (List Call) := .afresh .tagged
    let good : Attempt (List Call) :=
      { backend := .refusing fun _ _ => false, tag := "web", spec := { name := "m" } }
    let bad : Attempt (List Call) := { good with backend := .refusing fun _ c => c.target?.isNone }
    let won := good.run s (attempts s [bad] w).2
    s.Awaits [] "m" w.files ∧ (attempts s [bad, good, good] w).1.countP Except.isOk ≤ 1 ∧
      won.1.isOk = true ∧ (∀ res ∈ (attempts s [good] won.2).1, res.isOk = false) ∧
        (attempts s [good] won.2).2.files = won.2.files ∧
          (attempts s [good] won.2).2.journal = won.2.journal := by
  intro s w good bad won
  have hw : s.Awaits [] "m" w.files := by
    refine ⟨?_, ?_⟩
    · unfold Store.StandsAt
      decide +kernel
    · rintro t (rfl | rfl) <;> decide +kernel
  have hfair : ∀ refuses, Attempt.IsFair { good with backend := .refusing refuses } s [] "m" := fun _ =>
    ⟨rfl, Backend.confined_refusing _, Backend.leavesFiles_refusing _, Backend.sparing_refusing _ s,
      fun f hf => by cases hf⟩
  have hok : won.1.isOk = true := by decide +kernel
  have has : ∀ a ∈ [bad, good, good], a.IsFair s [] "m" := by
    rintro a ha
    rcases List.mem_cons.mp ha with rfl | ha
    · exact hfair _
    · have hgood : a = good := by simpa using ha
      exact hgood ▸ hfair _
  obtain ⟨-, hcount, hafter⟩ := launched_at_most_once has hw
  exact ⟨hw, hcount, hok, hafter [bad] good [good] rfl hok⟩

/-- A world with a store at its root and a tag in it, of which somebody else holds the lock.  When waited
for they launch the machine `m`: they put its disk and its record there and give the lock back. -/
def World.raced : World Unit where
  files :=
    { nodes := FileSystem.tagged.nodes ++ [(["tags", "locks"], .dir),
        (["web.lock", "tags", "locks"], .file 1 .empty)]
      births := 2 }
  locked := [⟨["web.lock", "tags", "locks"], 1⟩]
  meanwhile := some fun sh =>
    ⟨(sh.files.set ["m.qcow2", "instances"] (.file 7 (.ofText "winner"))).set ["m.tag", "instances"]
      (.file 8 (.ofText "web\n")), []⟩
  tools := ()
  pid := 1
  now := 0

/-- A launch that waits for its lock while somebody else launches the machine writes over their disk: it
has looked for the disk before it waited and does not look again. -/
theorem launch_overwrites_winner :
    let s : Store := ⟨⟨"/"⟩⟩
    let out := (launch (.touching fun _ => false) s "web" { name := "m" }).runIn World.raced
    (∃ m ∈ out.2.journal, m.event = .waited ∧
      m.after.node? ["m.qcow2", "instances"] = some (.file 7 (.ofText "winner")) ∧
        m.after.isPresent (s.instancePath "m") = true) ∧
      out.1 = .ok (s.instancePath "m") ∧ (answersOf out.2.journal).length = 2 ∧
        out.2.files.node? ["m.qcow2", "instances"] = some (.file 7 .empty) := by
  intro s out
  obtain ⟨⟨m, hm, hturn, hdisk⟩, hrest⟩ : (∃ m ∈ out.2.journal, m.isTurn = true ∧
      m.after.node? ["m.qcow2", "instances"] = some (.file 7 (.ofText "winner")) ∧
        m.after.isPresent (s.instancePath "m") = true) ∧
      out.1 = .ok (s.instancePath "m") ∧ (answersOf out.2.journal).length = 2 ∧
        out.2.files.node? ["m.qcow2", "instances"] = some (.file 7 .empty) := by
    decide +kernel
  exact ⟨⟨m, hm, Moment.isTurn_iff.mp hturn, hdisk⟩, hrest⟩

end DiskLayers
