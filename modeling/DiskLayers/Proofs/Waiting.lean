import DiskLayers.Proofs.Discipline

/-!
# What others do while an operation waits

* `Act.Blind`               an operation that does not look at its own journal
* `FileSystem.HasLock`      the lock of a name in a directory is there
* `World.IsFree`            nobody holds the lock at a path
* `World.after`             what the others leave
* `World.ComesTo`           a run that has come to what an operation comes to in some world
* `Store.diskTrails`        the directories of disks, and what lies in them
* `Moment.Interferes`       the others change nothing but disks, and leave the lock where it is

`ends_layer_waited` says what comes of an operation under the lock of a layer that it has to wait for.
-/

namespace DiskLayers
open DiskLayers.Path

/-! ## operations that do not look at their journals -/

/-- the same world with another journal -/
def World.telling (w : World σ) (journal : List Moment) : World σ := { w with journal := journal }

theorem World.files_telling (w : World σ) (journal : List Moment) :
    (w.telling journal).files = w.files := rfl

def Act.Blind (act : Act σ ε α) : Prop :=
  ∀ w : World σ, ∃ ms, ∀ journal, act.runIn (w.telling journal) =
    ((act.runIn w).1, (act.runIn w).2.telling (journal ++ ms))

namespace Act
variable {σ ε ε' α β : Type}

theorem Blind.of_note {act : Act σ ε α}
    (h : ∀ w : World σ, (∃ r, ∀ journal, act.runIn (w.telling journal) = (r, w.telling journal)) ∨
      ∃ r e files, ∃ w₀ : World σ, ∀ journal,
        act.runIn (w.telling journal) = (r, (w₀.telling journal).note e files)) : act.Blind := by
  intro w
  rcases h w with ⟨r, hrun⟩ | ⟨r, e, files, w₀, hrun⟩
  · refine ⟨[], fun journal => ?_⟩
    have hself : act.runIn w = (r, w) := hrun w.journal
    rw [hrun, hself, List.append_nil]
  · refine ⟨[⟨e, w₀.files, files⟩], fun journal => ?_⟩
    have hself : act.runIn w = (r, (w₀.telling w.journal).note e files) := hrun w.journal
    rw [hrun, hself]
    rfl

theorem Blind.bind {act : Act σ ε β} {f : β → Act σ ε α} (h : act.Blind) (hf : ∀ b, (f b).Blind) :
    (act >>= f).Blind := by
  intro w
  obtain ⟨ms, hms⟩ := h w
  rcases hrun : act.runIn w with ⟨res, w'⟩
  rw [hrun] at hms
  cases res with
  | error e => exact ⟨ms, fun journal => by rw [runIn_bind, runIn_bind, hms, hrun]⟩
  | ok b =>
    obtain ⟨ms', hms'⟩ := hf b w'
    refine ⟨ms ++ ms', fun journal => ?_⟩
    rw [runIn_bind, runIn_bind, hms, hrun]
    dsimp only
    rw [hms', List.append_assoc]

theorem Blind.mapError {f : ε → ε'} {act : Act σ ε α} (h : act.Blind) : (act.mapError f).Blind := by
  intro w
  obtain ⟨ms, hms⟩ := h w
  exact ⟨ms, fun journal => by rw [runIn_mapError, runIn_mapError, hms]⟩

theorem Blind.orElseUndo {act : Act σ ε α} {undo : Act σ ε' Unit} (h : act.Blind)
    (hundo : undo.Blind) : (orElseUndo act undo).Blind := by
  intro w
  obtain ⟨ms, hms⟩ := h w
  rcases hrun : act.runIn w with ⟨res, w'⟩
  rw [hrun] at hms
  cases res with
  | ok a =>
    refine ⟨ms, fun journal => ?_⟩
    rw [DiskLayers.orElseUndo, runIn_ofFunction, runIn_ofFunction, hms, hrun]
  | error e =>
    obtain ⟨ms', hms'⟩ := hundo w'
    refine ⟨ms ++ ms', fun journal => ?_⟩
    rw [DiskLayers.orElseUndo, runIn_ofFunction, runIn_ofFunction, hms, hrun]
    dsimp only
    rw [hms', List.append_assoc]

/-- by induction on how the operation is put together -/
theorem Handles.blind {files : Set Path} {act : Act σ ε α} (h : act.Handles files) : act.Blind := by
  induction h with
  | look f => exact .of_note fun w => Or.inl ⟨f w.files, fun _ => rfl⟩
  | @call backend c _ _ _ =>
    exact .of_note fun w => Or.inr ⟨(backend c w.tools w.files).1,
      .called c (backend c w.tools w.files).1, (backend c w.tools w.files).2.2,
      { w with tools := (backend c w.tools w.files).2.1 }, fun _ => rfl⟩
  | @write file text _ =>
    refine .of_note fun w => ?_
    cases hw : w.files.write file (.ofText text) with
    | error e =>
      exact Or.inl ⟨.error e, fun journal => by
        rw [writeFile, change, runIn_ofFunction, World.files_telling, hw]⟩
    | ok fs =>
      exact Or.inr ⟨.ok (), .wrote file, fs, w, fun journal => by
        rw [writeFile, change, runIn_ofFunction, World.files_telling, hw]⟩
  | @remove dir name _ _ _ =>
    refine .of_note fun w => ?_
    cases hw : w.files.remove (dir.join name) with
    | error e =>
      exact Or.inl ⟨if e = .notFound then .ok () else .error e, fun journal => by
        rw [removeFile, runIn_ofFunction, World.files_telling, hw]⟩
    | ok fs =>
      exact Or.inr ⟨.ok (), .removed (dir.join name), fs, w, fun journal => by
        rw [removeFile, runIn_ofFunction, World.files_telling, hw]⟩
  | mapError _ ih => exact ih.mapError
  | bind _ _ ih ihf => exact ih.bind ihf
  | orElseUndo _ _ ih ihundo => exact ih.orElseUndo ihundo

/-- what an operation does in a world -/
def momentsIn (act : Act σ ε α) (w : World σ) : List Moment :=
  (act.runIn w).2.journal.drop w.journal.length

theorem Ends.momentsIn {act : Act σ ε α} {w : World σ} {Q : Except ε α → List Moment → World σ → Prop}
    (h : act.Ends w Q) : Q (act.runIn w).1 (act.momentsIn w) (act.runIn w).2 := by
  obtain ⟨ms, hj, -, hq⟩ := h
  rw [Act.momentsIn, hj, List.drop_left]
  exact hq

/-- an operation that does not look at its journal ends alike with every journal -/
theorem Handles.ends_telling {files : Set Path} {act : Act σ ε α} (h : act.Handles files)
    (w : World σ) (journal : List Moment) :
    act.Ends (w.telling journal) fun res ms w' => res = (act.runIn w).1 ∧
      (∃ journal', w' = (act.runIn w).2.telling journal') ∧ ms = act.momentsIn w ∧
        ∀ m ∈ ms, m.event ≠ .waited := by
  obtain ⟨ms, hms⟩ := h.blind w
  obtain ⟨ms', hj, hl, -, hms'⟩ := h.works (w.telling journal)
  have hself : (act.runIn w).2.journal = w.journal ++ ms := by
    have hself : act.runIn w = ((act.runIn w).1, (act.runIn w).2.telling (w.journal ++ ms)) :=
      hms w.journal
    rw [hself]
    rfl
  have hsame : ms' = ms := by
    rw [hms] at hj
    exact (List.append_cancel_left hj).symm
  refine ⟨ms', hj, hl, ?_, ?_, ?_, fun m hm hwaited => ?_⟩
  · rw [hms]
  · exact ⟨_, by rw [hms]⟩
  · rw [Act.momentsIn, hself, List.drop_left, hsame]
  · obtain ⟨file, -, hfile⟩ := (hms' m hm).file
    rw [hwaited] at hfile
    cases hfile

end Act

/-! ## paths that lead where they led -/

theorem Path.isAbsolute_join {p : Path} {name : String} (hp : p.isAbsolute = true)
    (hn : IsPlain name.toList) : (p.join name).isAbsolute = true := by
  have hne := ne_nil_of_isAbsolute hp
  rw [isAbsolute, chars_join, head?_joinChars hne hn]
  exact hp

namespace FileSystem
variable {fs fs' : FileSystem}

theorem walk_of_suffixes {ns : List (List Char)} {d : Trail} (hns : ['.', '.'] ∉ ns)
    (h : fs.walk [] ns = .ok d) (hsame : ∀ t, t <:+ d → fs'.node? t = fs.node? t) :
    fs'.walk [] ns = .ok d := by
  induction ns using List.reverseRecOn generalizing d with
  | nil => exact h
  | append_singleton ns n ih =>
    rw [walk_concat] at h ⊢
    cases hw : fs.walk [] ns with
    | error e =>
      rw [hw] at h
      cases h
    | ok above =>
      rw [hw] at h
      obtain ⟨hchild, hdir⟩ := descend?_eq_ok.mp h
      have hn : n ≠ ['.', '.'] := fun e => hns (by rw [e]; simp)
      have hd : d = String.ofList n :: above := by
        rw [child?, if_neg hn] at hchild
        split at hchild
        · cases hchild
        · exact (Except.ok.inj hchild).symm
      have habove := ih (fun hmem => hns (List.mem_append_left _ hmem)) hw fun t ht =>
        hsame t (hd ▸ ht.trans (List.suffix_cons _ _))
      rw [habove]
      exact descend?_eq_ok.mpr ⟨hchild, by rw [hsame d List.suffix_rfl, hdir]⟩

theorem lookup_of_straight {p : Path} {d : Trail} (ha : p.isAbsolute = true) (hp : p.IsStraight)
    (h : fs.lookup p = .ok (d, .dir)) (hsame : ∀ t, t <:+ d → fs'.node? t = fs.node? t) :
    fs'.lookup p = .ok (d, .dir) := by
  obtain ⟨hu, hw, hd⟩ := lookup_eq_dir.mp h
  refine lookup_eq_dir.mpr ⟨hu, ?_, by rw [hsame d List.suffix_rfl, hd]⟩
  rw [start, if_pos ha] at hw ⊢
  exact walk_of_suffixes hp hw hsame

end FileSystem

/-! ## where a lock is -/

/-- The lock of a name in a directory is there, as this file. -/
structure FileSystem.HasLock (fs : FileSystem) (dir : Path) (name : String) (ref : FileRef) : Prop where
  home : ∃ d, fs.lookup dir = .ok (d, .dir) ∧ ref.trail = name :: d
  made : fs.makeDirectories dir = (.ok (), fs)
  opened : fs.open (dir.join name) = .ok (ref, fs)

def World.IsFree (w : World σ) (path : Path) : Prop :=
  ∀ ref files, w.files.open path = .ok (ref, files) → ref ∉ w.locked

theorem FileSystem.HasLock.isFree_iff {w : World σ} {dir : Path} {name : String} {ref : FileRef}
    (h : w.files.HasLock dir name ref) : w.IsFree (dir.join name) ↔ ref ∉ w.locked := by
  refine ⟨fun hfree => hfree ref w.files h.opened, fun hfree ref' files ho => ?_⟩
  rw [h.opened] at ho
  cases ho
  exact hfree

/-- what the others leave that have their turn with these files -/
def World.after (w : World σ) (files : FileSystem) : World σ := ({ w with files := files } : World σ).yield

theorem World.yield_telling (w : World σ) (journal : List Moment) :
    ∃ journal', (w.telling journal).yield = w.yield.telling journal' := by
  cases ht : w.meanwhile with
  | none => exact ⟨journal, by rw [w.yield_of_none ht, (w.telling journal).yield_of_none ht]⟩
  | some turn =>
    refine ⟨journal ++ [⟨.waited, w.files, (turn w.toShared).files⟩], ?_⟩
    have ht' : (w.telling journal).meanwhile = some turn := ht
    rw [World.yield, World.yield, ht, ht']
    rfl

section
variable {fs fs' : FileSystem} {base : Path} {sub name : String} {ref : FileRef}
  (ha : base.isAbsolute = true) (hsub : IsPlain sub.toList) (hn : IsPlain name.toList)
include ha hsub hn

theorem FileSystem.hasLock_iff : fs.HasLock (base.join sub) name ref ↔
    (base.join sub).Fits name ∧ ∃ d c, fs.lookup (base.join sub) = .ok (d, .dir) ∧
      ref.trail = name :: d ∧ fs.node? (name :: d) = some (.file ref.birth c) := by
  constructor
  · rintro ⟨⟨d, hdir, ht⟩, -, ho⟩
    rcases open_join_cases hdir hn with ⟨e, he⟩ | ⟨hf, -, b, c, fs₁, ho', -, hnode⟩
    · rw [he] at ho
      cases ho
    · rw [ho'] at ho
      cases ho
      exact ⟨hf, d, c, hdir, rfl, by rw [hnode, Function.update_self]⟩
  · rintro ⟨hf, d, c, hdir, ht, hfile⟩
    obtain ⟨d₀, hbase, -⟩ := lookup_of_lookup_join ha hsub hdir
    refine ⟨⟨d, hdir, ht⟩, makeDirectories_of_lookup hbase hsub hdir, ?_⟩
    rw [open_join hdir hn, if_pos hf, hfile, ← ht]

theorem FileSystem.HasLock.of_same (h : fs.HasLock (base.join sub) name ref)
    (hdir : fs'.lookup (base.join sub) = fs.lookup (base.join sub))
    (hfile : fs'.node? ref.trail = fs.node? ref.trail) : fs'.HasLock (base.join sub) name ref := by
  obtain ⟨hf, d, c, hd, ht, hc⟩ := (hasLock_iff ha hsub hn).mp h
  rw [ht, hc] at hfile
  exact (hasLock_iff ha hsub hn).mpr ⟨hf, d, c, hdir.trans hd, ht, hfile⟩

end

namespace Act
variable {σ ε ε' α : Type} {base : Path} {sub name : String}

/-- what an attempt to take a lock comes to, once its file is open and it was waited for -/
theorem ends_attempt_waited (ref : FileRef) (path : Path) (who command : String) (wait : Duration)
    (w : World σ) :
    (Lock.attempt ref path who command wait : Act σ LockError Lock).Ends w fun res ms w' =>
      answersOf ms = [] ∧ ∀ m ∈ ms, m.event = .waited →
        m.before = w.files ∧ w.yield.files = m.after ∧ (res, w') =
          if ref ∉ w.yield.locked then (Lock.take ref path who command).runIn w.yield
          else (.error (Lock.contentionError w.yield.files path who), w.yield) := by
  have htake : ∀ v : World σ, (Lock.take ref path who command : Act σ LockError Lock).Ends v
      fun res ms w' => (∀ m ∈ ms, m.event ≠ .waited) ∧ answersOf ms = [] ∧
        (res, w') = (Lock.take ref path who command).runIn v := fun v =>
    ends_of_note rfl rfl rfl ⟨fun m hm => by rw [List.mem_singleton.mp hm]; simp, rfl, rfl⟩
  have hnever : ∀ {ms : List Moment} {p : Moment → Prop}, (∀ m ∈ ms, m.event ≠ .waited) →
      ∀ m ∈ ms, m.event = .waited → p m := fun h m hm hw => absurd hw (h m hm)
  refine ends_attempt (fun _ => (htake w).mono fun res ms w' h => ⟨h.2.1, hnever h.1⟩)
    (fun _ => ⟨rfl, fun m hm => absurd hm List.not_mem_nil⟩) (fun turn _ _ hfree => ?_)
    fun turn _ _ hmem => ⟨rfl, fun m hm _ => ?_⟩
  · refine (htake w.yield).mono ?_
    rintro res ms w' ⟨hms, hans, hout⟩
    refine ⟨hans, fun m hm hwaited => ?_⟩
    rcases List.mem_cons.mp hm with rfl | hm
    · exact ⟨rfl, rfl, by rw [if_pos hfree]; exact hout⟩
    · exact absurd hwaited (hms m hm)
  · rw [List.mem_singleton.mp hm]
    exact ⟨rfl, rfl, by rw [if_neg (not_not.mpr hmem)]⟩

/-- the directory of a lock is made without waiting, and is there if nothing goes wrong -/
theorem ends_makeDirectories_unwaited {dir : Path} (ha : dir.isAbsolute = true) (w : World σ) :
    (Lock.makeDirectories dir : Act σ LockError Unit).Ends w fun res ms v =>
      answersOf ms = [] ∧ (∀ m ∈ ms, m.event ≠ .waited) ∧
        v = w.note (.made dir) (w.files.makeDirectories dir).2 ∧
          (res = .ok () → ∃ d, v.files.lookup dir = .ok (d, .dir)) := by
  have hrun : (Lock.makeDirectories dir : Act σ LockError Unit).runIn w =
      ((w.files.makeDirectories dir).1.mapError .createDir,
        w.note (.made dir) (w.files.makeDirectories dir).2) := rfl
  refine ends_of_note hrun rfl rfl ⟨rfl, fun m hm => ?_, rfl, fun hok => ?_⟩
  · rw [List.mem_singleton.mp hm]
    simp
  · have hgrown := FileSystem.grown_makeDirectoriesWithin w.files (dir.chars.length + 1) ha (Nat.le_refl _)
    refine FileSystem.isDir_iff.mp (hgrown.2 ?_)
    cases hres : (w.files.makeDirectories dir).1 with
    | ok _ => exact hres
    | error e =>
      rw [hres] at hok
      cases hok

/-- the file of a lock is opened without waiting, and is there if nothing goes wrong -/
theorem ends_openFile_unwaited (ha : base.isAbsolute = true) (hsub : IsPlain sub.toList)
    (hn : IsPlain name.toList) {w : World σ} {d : Trail}
    (hd : w.files.lookup (base.join sub) = .ok (d, .dir)) :
    (Lock.openFile ((base.join sub).join name) : Act σ LockError FileRef).Ends w fun res ms v =>
      answersOf ms = [] ∧ (∀ m ∈ ms, m.event ≠ .waited) ∧ ∀ ref, res = .ok ref →
        v.files.HasLock (base.join sub) name ref ∧
          ∃ journal, v = ({ w with files := v.files } : World σ).telling journal := by
  rcases FileSystem.open_join_cases hd hn with ⟨e, he⟩ | ⟨hf, -, b, c, fs', ho, hcur, hnode⟩
  · exact ends_of_runIn (runIn_openFile_error he)
      ⟨rfl, fun m hm => absurd hm List.not_mem_nil, fun ref hok => by cases hok⟩
  · refine ends_of_note (runIn_openFile_ok ho) rfl rfl ⟨rfl, fun m hm => ?_, fun ref hok => ?_⟩
    · rw [List.mem_singleton.mp hm]
      simp
    · cases hok
      refine ⟨(FileSystem.hasLock_iff ha hsub hn).mpr ⟨hf, d, c, ?_, rfl, ?_⟩, _, rfl⟩
      · exact (FileSystem.within_open hd hn ho).1.lookup_dir hd
      · show fs'.node? _ = _
        rw [hnode, Function.update_self]

/-- What comes of taking a lock, if it was waited for: the others had their turn once the file of the
lock was there, and then the lock was taken, or it was still held. -/
theorem ends_acquire_waited (ha : base.isAbsolute = true) (hsub : IsPlain sub.toList)
    (hn : IsPlain name.toList) (who command : String) (wait : Duration) (w : World σ) :
    (Lock.acquire ((base.join sub).join name) who command wait : Act σ LockError Lock).Ends w
      fun res ms w' => answersOf ms = [] ∧ ∀ m ∈ ms, m.event = .waited →
        ∃ ref, m.before.HasLock (base.join sub) name ref ∧ (w.after m.before).files = m.after ∧
          ∃ journal, (res, w') =
            if ref ∉ (w.after m.before).locked then
              (Lock.take ref ((base.join sub).join name) who command).runIn
                ((w.after m.before).telling journal)
            else (.error (Lock.contentionError m.after ((base.join sub).join name) who),
              (w.after m.before).telling journal) := by
  have hne := ne_nil_of_isAbsolute ha
  have hnever : ∀ {ms : List Moment} {p : Moment → Prop}, (∀ m ∈ ms, m.event ≠ .waited) →
      ∀ m ∈ ms, m.event = .waited → p m := fun h m hm hw => absurd hw (h m hm)
  rw [Lock.acquire, parent?_join hne hsub hn]
  refine (ends_makeDirectories_unwaited (isAbsolute_join ha hsub) w).bind ?_
    fun e ms v hv => ⟨hv.1, hnever hv.2.1⟩
  rintro ⟨⟩ ms v₁ ⟨hans, hms, hv₁, hlookup⟩
  obtain ⟨d, hd⟩ := hlookup rfl
  refine (ends_openFile_unwaited ha hsub hn hd).bind ?_ fun e ms' v hv => ⟨?_, ?_⟩
  · rintro ref ms' v ⟨hans', hms', hok⟩
    obtain ⟨hlock, journal, hv⟩ := hok ref rfl
    rw [hv₁] at hv
    refine (ends_attempt_waited ref _ who command wait v).mono ?_
    rintro res ms'' w' ⟨hans'', hwaited⟩
    refine ⟨?_, fun m hm hw => ?_⟩
    · rw [answersOf_append, answersOf_append, hans, hans', hans'']
      rfl
    · rcases List.mem_append.mp hm with hm | hm
      · exact absurd hw (hms m hm)
      rcases List.mem_append.mp hm with hm | hm
      · exact absurd hw (hms' m hm)
      obtain ⟨hbefore, hafter, hout⟩ := hwaited m hm hw
      -- the journal apart, the others find what they find in the files before their turn
      obtain ⟨journal', hy⟩ := World.yield_telling ({ w with files := v.files } : World σ) journal
      have hyield : v.yield = _ := (congrArg World.yield hv).trans hy
      rw [hbefore]
      refine ⟨ref, hlock, ?_, journal', ?_⟩
      · rw [← hafter, hyield]
        rfl
      · rw [hyield] at hafter hout
        rw [← hafter]
        exact hout
  · rw [answersOf_append, hans, hv.1]
    rfl
  · exact fun m hm hw => (List.mem_append.mp hm).elim (fun hm => absurd hw (hms m hm)) fun hm =>
      absurd hw (hv.2.1 m hm)

/-- taking a lock that is there, and that nobody holds -/
theorem ends_acquire_free {ref : FileRef} (ha : base.isAbsolute = true) (hsub : IsPlain sub.toList)
    (hn : IsPlain name.toList) (who command : String) (wait : Duration) {w : World σ}
    (hlock : w.files.HasLock (base.join sub) name ref) (hfree : ref ∉ w.locked) :
    (Lock.acquire ((base.join sub).join name) who command wait : Act σ LockError Lock).Ends w
      fun res ms w' => answersOf ms = [] ∧ ∃ journal, (res, w') =
        (Lock.take ref ((base.join sub).join name) who command).runIn (w.telling journal) := by
  have hne := ne_nil_of_isAbsolute ha
  have hmade : (Lock.makeDirectories (base.join sub) : Act σ LockError Unit).runIn w =
      (.ok (), w.note (.made (base.join sub)) w.files) := by
    rw [Lock.makeDirectories, runIn_ofFunction]
    dsimp only
    rw [hlock.made]
    rfl
  have hopened := runIn_openFile_ok (w := w.note (.made (base.join sub)) w.files) hlock.opened
  rw [Lock.acquire, parent?_join hne hsub hn]
  refine Ends.bind (ends_of_note (Q := fun res ms v => res = .ok () ∧ answersOf ms = [] ∧
    v = w.note (.made (base.join sub)) w.files) hmade rfl rfl ⟨rfl, rfl, rfl⟩) ?_ ?_
  · rintro _ ms v ⟨-, hans, rfl⟩
    refine Ends.bind (ends_of_note (Q := fun res ms v => res = .ok ref ∧ answersOf ms = [] ∧
      ∃ journal, v = w.telling journal) hopened rfl rfl ⟨rfl, rfl, _, rfl⟩) ?_ ?_
    · rintro ref' ms' v ⟨hr, hans', journal, rfl⟩
      cases hr
      refine @Ends.of_runIn_eq σ _ _ _ _ (Lock.take ref _ who command) _
        (ends_of_note rfl rfl rfl ⟨?_, journal, rfl⟩) ?_
      · rw [answersOf_append, answersOf_append, hans, hans']
        rfl
      · rw [runIn_ofFunction]
        exact if_pos hfree
    · rintro e ms' v ⟨hr, -⟩
      cases hr
  · rintro e ms v ⟨hr, -⟩
    cases hr

end Act

/-- the world once a lock is taken -/
def World.taking (w : World σ) (ref : FileRef) (path : Path) (who command : String) : World σ :=
  ((Lock.take ref path who command : Act σ LockError Lock).runIn w).2

structure World.ComesTo (act : Act σ ε α) (w : World σ) (res : Except ε α) (ms : List Moment)
    (w' : World σ) : Prop where
  result : res = (act.runIn w).1
  /-- before and after there are no calls -/
  moments : ∃ before after, ms = before ++ (act.momentsIn w ++ after) ∧ answersOf before = [] ∧
    answersOf after = []
  tools : w'.tools = (act.runIn w).2.tools
  files : w'.files = (act.runIn w).2.files

/-- the same calls are made -/
theorem World.ComesTo.answers {act : Act σ ε α} {w w' : World σ} {res : Except ε α} {ms : List Moment}
    (h : w.ComesTo act res ms w') : answersOf ms = answersOf (act.momentsIn w) := by
  obtain ⟨before, after, rfl, hbefore, hafter⟩ := h.moments
  rw [answersOf_append, answersOf_append, hbefore, hafter, List.append_nil, List.nil_append]

/-- what comes of an operation comes of it between other things, if there are no calls among them and
they leave tools and files alone -/
theorem World.ComesTo.between {act : Act σ ε α} {w w' : World σ} {res : Except ε α}
    {ms ms₀ : List Moment} {m : Moment} {l : Lock} (h : w.ComesTo act res ms w')
    (h₀ : answersOf ms₀ = []) (hm : m.answered? = none) :
    w.ComesTo act res (ms₀ ++ (ms ++ [m])) (l.release w') := by
  obtain ⟨before, after, rfl, hbefore, hafter⟩ := h.moments
  refine ⟨h.result, ⟨ms₀ ++ before, after ++ [m], by simp only [List.append_assoc], ?_, ?_⟩, h.tools,
    h.files⟩
  · rw [answersOf_append, h₀, hbefore]
    rfl
  · rw [answersOf_append, hafter, answersOf, List.filterMap_cons, hm]
    rfl

namespace Act
variable {σ ε ε' α : Type} {base : Path} {sub name : String} {files : Set Path} {g : LockError → ε}
  {body : Act σ ε α}

/-- what comes of an operation under a lock, once that is taken -/
theorem Handles.ends_taken (hbody : body.Handles files) {w : World σ} {ref : FileRef} {path : Path}
    {who command : String} {journal : List Moment} {l : Lock} {w₀ : World σ}
    (htake : (Except.ok l, w₀) = (Lock.take ref path who command).runIn (w.telling journal)) :
    body.Ends w₀ fun res ms w' => (∀ m ∈ ms, m.event ≠ .waited) ∧
      (w.taking ref path who command).ComesTo body res ms w' := by
  obtain ⟨journal', hw₀⟩ : ∃ journal', w₀ = (w.taking ref path who command).telling journal' := by
    cases htake
    exact ⟨_, rfl⟩
  rw [hw₀]
  refine (hbody.ends_telling _ _).mono ?_
  rintro res ms w' ⟨hres, ⟨journal'', rfl⟩, hmoments, hms⟩
  exact ⟨hms, hres, ⟨[], [], by rw [hmoments, List.append_nil, List.nil_append], rfl, rfl⟩, rfl, rfl⟩

/-- What comes of an operation under a lock, if the lock was waited for. -/
theorem ends_during_waited (ha : base.isAbsolute = true) (hsub : IsPlain sub.toList)
    (hn : IsPlain name.toList) (who command : String) (wait : Duration) (hbody : body.Handles files)
    (w : World σ) :
    (Lock.during ((Lock.acquire ((base.join sub).join name) who command wait).mapError g) body).Ends w
      fun res ms w' => ∀ m ∈ ms, m.event = .waited →
        ∃ ref, m.before.HasLock (base.join sub) name ref ∧ (w.after m.before).files = m.after ∧
          if ref ∉ (w.after m.before).locked then
            ((w.after m.before).taking ref ((base.join sub).join name) who command).ComesTo body res ms w'
          else (∃ e, res = .error (g e)) ∧ answersOf ms = [] ∧ w'.files = m.after := by
  have hacq := Ends.mapError (f := g) (Q := fun res ms w' => ∃ res', res = res'.mapError g ∧
      answersOf ms = [] ∧ ∀ m ∈ ms, m.event = .waited →
        ∃ ref, m.before.HasLock (base.join sub) name ref ∧ (w.after m.before).files = m.after ∧
          ∃ journal, (res', w') =
            if ref ∉ (w.after m.before).locked then
              (Lock.take ref ((base.join sub).join name) who command).runIn
                ((w.after m.before).telling journal)
            else (.error (Lock.contentionError m.after ((base.join sub).join name) who),
              (w.after m.before).telling journal))
    ((ends_acquire_waited ha hsub hn who command wait w).mono fun res ms w' h => ⟨res, rfl, h⟩)
  refine hacq.during ?_ ?_
  · rintro l ms₀ w₀ ⟨res', hres', hans, hwaited⟩
    cases res' with
    | error e => cases hres'
    | ok l' =>
      cases hres'
      obtain ⟨ms', hj, hl, -, hms'⟩ := hbody.works w₀
      refine ⟨ms', hj, hl, fun m hm hw => ?_⟩
      -- the operation itself never waits, so the others came in while the lock was taken
      have hbefore : m ∈ ms₀ := by
        rcases List.mem_append.mp hm with hm | hm
        · exact hm
        rcases List.mem_append.mp hm with hm | hm
        · obtain ⟨file, -, hfile⟩ := (hms' m hm).file
          rw [hw] at hfile
          cases hfile
        · rw [List.mem_singleton.mp hm] at hw
          cases hw
      obtain ⟨ref, hlock, hleft, journal, hout⟩ := hwaited m hbefore hw
      refine ⟨ref, hlock, hleft, ?_⟩
      by_cases hfree : ref ∉ (w.after m.before).locked
      · rw [if_pos hfree] at hout ⊢
        obtain ⟨ms'', hj', -, -, hcome⟩ := hbody.ends_taken hout
        have hsame : ms'' = ms' := List.append_cancel_left (hj'.symm.trans hj)
        rw [← hsame]
        exact hcome.between hans rfl
      · rw [if_neg hfree] at hout
        cases hout
  · rintro e ms w' ⟨res', hres', hans, hwaited⟩ m hm hw
    obtain ⟨ref, hlock, hleft, journal, hout⟩ := hwaited m hm hw
    refine ⟨ref, hlock, hleft, ?_⟩
    by_cases hfree : ref ∉ (w.after m.before).locked
    · rw [if_pos hfree] at hout
      cases hout
      cases hres'
    · rw [if_neg hfree] at hout ⊢
      cases hout
      cases hres'
      exact ⟨⟨_, rfl⟩, hans, hleft⟩

/-- What comes of an operation under a lock that is there and free. -/
theorem ends_during_free {ref : FileRef} (ha : base.isAbsolute = true) (hsub : IsPlain sub.toList)
    (hn : IsPlain name.toList) (who command : String) (wait : Duration) (hbody : body.Handles files)
    {w : World σ} (hlock : w.files.HasLock (base.join sub) name ref) (hfree : ref ∉ w.locked) :
    (Lock.during ((Lock.acquire ((base.join sub).join name) who command wait).mapError g) body).Ends w
      fun res ms w' => (w.taking ref ((base.join sub).join name) who command).ComesTo body res ms w' := by
  have hacq := Ends.mapError (f := g) (Q := fun res ms w' => ∃ res', res = res'.mapError g ∧
      answersOf ms = [] ∧ ∃ journal, (res', w') =
        (Lock.take ref ((base.join sub).join name) who command).runIn (w.telling journal))
    ((ends_acquire_free ha hsub hn who command wait hlock hfree).mono fun res ms w' h =>
      ⟨res, rfl, h⟩)
  refine hacq.during ?_ ?_
  · rintro l ms₀ w₀ ⟨res', hres', hans, journal, hout⟩
    cases res' with
    | error e => cases hres'
    | ok l' =>
      cases hres'
      refine (hbody.ends_taken hout).mono ?_
      rintro res ms' w' ⟨-, hcome⟩
      exact hcome.between hans rfl
  · rintro e ms w' ⟨res', hres', -, journal, hout⟩
    cases hout
    cases hres'

end Act

/-! ## what the others may do -/

def Store.diskTrails (r : Trail) : Set Trail :=
  {t | ∃ dir ∈ [layersDir, tagsDir, instancesDir], dir :: r <:+ t}

/-- the directory of a lock -/
def Store.lockHome (s : Store) (kind : LayerKind) : Path := (s.root.join locksDir).join (lockDir kind)

/-- the moment is the turn of the others -/
def Moment.isTurn (m : Moment) : Bool :=
  match m.event with
  | .waited => true
  | _ => false

theorem Moment.isTurn_iff {m : Moment} : m.isTurn = true ↔ m.event = .waited := by
  rw [isTurn]
  cases m.event <;> simp

/-- The turn that the others have while an operation waits for a lock: they change nothing but the
directories of disks and what lies in them, and the directory of the lock is found where it was.  A path without
`..` does not lead through any of those directories. -/
structure Moment.Interferes (s : Store) (r : Trail) (kind : LayerKind) (m : Moment) : Prop where
  root : m.before.lookup s.root = .ok (r, .dir)
  disks : ∀ t ∉ Store.diskTrails r, m.after.node? t = m.before.node? t
  found : s.root.IsStraight ∨ m.after.lookup (s.lockHome kind) = m.before.lookup (s.lockHome kind)

theorem Store.not_mem_diskTrails {r t : Trail} {kind : LayerKind} {name : String}
    (h : t <:+ name :: lockDir kind :: locksDir :: r) : t ∉ diskTrails r := by
  rintro ⟨dir, hdir, hsuffix⟩
  have hlocks : locksDir :: r <:+ name :: lockDir kind :: locksDir :: r := ⟨[name, lockDir kind], rfl⟩
  have hlong : (dir :: r).length ≤ t.length := hsuffix.length_le
  have hlocks' : locksDir :: r <:+ t := List.suffix_of_suffix_length_le hlocks h hlong
  have he : dir :: r = locksDir :: r :=
    (List.suffix_of_suffix_length_le hsuffix hlocks' (Nat.le_refl _)).eq_of_length rfl
  rw [(List.cons.inj he).1] at hdir
  exact absurd hdir (by decide)

namespace Moment.Interferes
variable {s : Store} {r : Trail} {kind : LayerKind} {key : Identity} {m : Moment} {ref : FileRef}

/-- the store is there afterwards, and the lock as it was before -/
theorem hasLock (h : m.Interferes s r kind) (ha : s.root.isAbsolute = true)
    (hv : isValidName key.name = true)
    (hlock : m.before.HasLock (s.lockHome kind) (key.name ++ ".lock") ref) :
    m.after.lookup s.root = .ok (r, .dir) ∧
      m.after.HasLock (s.lockHome kind) (key.name ++ ".lock") ref ∧
        ref.trail ∈ Store.lockTrails r := by
  have hlocks := Store.isPlain_of_mem_directories (show Store.locksDir ∈ Store.directories by
    simp [Store.directories])
  have hkind := Store.isPlain_lockDir kind
  have hname := isPlain_lockFile hv
  have hne : s.root.chars ≠ [] := (FileSystem.lookup_eq_dir.mp h.root).1.ne_nil
  have ha' := isAbsolute_join ha hlocks
  obtain ⟨d, hd, ht⟩ := hlock.home
  obtain ⟨d₀, hd₀, rfl⟩ := FileSystem.lookup_of_lookup_join ha' hkind hd
  obtain ⟨d₁, hd₁, rfl⟩ := FileSystem.lookup_of_lookup_join ha hlocks hd₀
  rw [h.root] at hd₁
  cases hd₁
  have hsame : m.after.lookup (s.lockHome kind) = m.before.lookup (s.lockHome kind) := by
    rcases h.found with hstraight | hfound
    · refine (FileSystem.lookup_of_straight (isAbsolute_join ha' hkind) ?_ hd fun t ht' =>
        h.disks t (Store.not_mem_diskTrails (ht'.trans (List.suffix_cons key.name _)))).trans hd.symm
      show ['.', '.'] ∉ names ((s.root.join Store.locksDir).join (Store.lockDir kind)).chars
      rw [names_chars_join _ hkind, names_chars_join _ hlocks]
      simp only [List.mem_append, List.mem_singleton, not_or]
      exact ⟨⟨hstraight, by decide⟩, by cases kind <;> decide⟩
    · exact hfound
  refine ⟨?_, hlock.of_same ha' hkind hname hsame ?_, ?_⟩
  · obtain ⟨d₂, hd₂, he⟩ := FileSystem.lookup_of_lookup_join ha' hkind (hsame.trans hd)
    obtain ⟨d₃, hd₃, he'⟩ := FileSystem.lookup_of_lookup_join ha hlocks hd₂
    rw [(List.cons.inj ((List.cons.inj he).2.trans he')).2]
    exact hd₃
  · rw [ht]
    exact h.disks _ (Store.not_mem_diskTrails List.suffix_rfl)
  · rw [ht]
    exact ⟨[_, _], rfl⟩

end Moment.Interferes

/-- A world with a store once a lock of it is taken: the file of the lock has other bytes. -/
structure World.Enters (s : Store) (r : Trail) (w u : World σ) : Prop where
  root : w.files.lookup s.root = .ok (r, .dir)
  tools : u.tools = w.tools
  lock : ∃ t ∈ Store.lockTrails r, w.files.Rewritten t u.files

theorem World.enters_taking {s : Store} {r : Trail} {w : World σ} {dir path : Path} {name : String}
    {ref : FileRef} (hroot : w.files.lookup s.root = .ok (r, .dir)) (h : w.files.HasLock dir name ref)
    (ht : ref.trail ∈ Store.lockTrails r) (who command : String) :
    w.Enters s r (w.taking ref path who command) := by
  obtain ⟨-, -, c, hfile⟩ := FileSystem.within_of_open h.opened
  refine ⟨hroot, rfl, ref.trail, ht, FileSystem.within_setContent _ _ _, Or.inr ⟨⟨_, c, hfile⟩, ?_⟩⟩
  exact ⟨_, _, (congrFun (FileSystem.node?_setContent_self _ hfile _) _).trans (Function.update_self ..)⟩

namespace Act
variable {σ ε α : Type} {s : Store} {files : Set Path} {body : Act σ ε α}

/-- What comes of an operation under the lock of a layer, if it has to wait for the lock while the
others change disks: it is refused if they still hold the lock, and else it does what it does, under
the same lock, in the world they left. -/
theorem ends_layer_waited {l : Layer} (ha : s.root.isAbsolute = true)
    (hv : isValidName l.identity.name = true) (command : String) (wait : Duration) (f : StoreError → ε)
    (hbody : body.Handles files) (w : World σ) :
    (Lock.during ((s.acquire l command wait).mapError f) body).Ends w fun res ms w' =>
      ∀ m ∈ ms, m.event = .waited → ∀ r, m.Interferes s r l.kind →
        (w.after m.before).files = m.after ∧
        (¬ (w.after m.before).IsFree (s.lockPath l.kind l.identity) →
          (∃ e, res = .error (f (.lock e))) ∧ answersOf ms = [] ∧ w'.files = m.after) ∧
        ((w.after m.before).IsFree (s.lockPath l.kind l.identity) →
          ∃ u, (w.after m.before).Enters s r u ∧ u.ComesTo body res ms w' ∧
            (Lock.during ((s.acquire l command wait).mapError f) body).Ends (w.after m.before)
              fun res' ms' v => u.ComesTo body res' ms' v) := by
  have hlocks := Store.isPlain_of_mem_directories (show Store.locksDir ∈ Store.directories by
    simp [Store.directories])
  have hkind := Store.isPlain_lockDir l.kind
  have hname := isPlain_lockFile hv
  have ha' : (s.root.join Store.locksDir).isAbsolute = true := isAbsolute_join ha hlocks
  rw [Store.acquire, mapError_mapError]
  refine (ends_during_waited ha' hkind hname l.identity.name command wait hbody w).mono ?_
  intro res ms w' hwaited m hm hw r hothers
  obtain ⟨ref, hlock, hleft, hout⟩ := hwaited m hm hw
  obtain ⟨hroot, hlock', htrail⟩ := hothers.hasLock ha hv hlock
  rw [← hleft] at hroot hlock'
  have hfree := hlock'.isFree_iff
  refine ⟨hleft, fun hheld => ?_, fun hopen => ?_⟩
  · rw [if_neg (fun h => hheld (hfree.mpr h))] at hout
    exact hout
  · rw [if_pos (hfree.mp hopen)] at hout
    exact ⟨_, World.enters_taking hroot hlock' htrail _ _, hout, ends_during_free ha' hkind hname
      l.identity.name command wait hbody hlock' (hfree.mp hopen)⟩

end Act

end DiskLayers
