import DiskLayers.Proofs.Waiting

/-!
# What happens to files

* `Path.trail`             where an absolute path leads, if it leads anywhere
* `Path.Above`             a path and those above it
* `Moment.Happens`         what a moment of an operation can be, and what it is about
* `World.Proceeds`         moments of that kind lead from one world to another
* `Act.Proceeds`           an operation all of whose moments are of that kind, from every world
* `FileSystem.Altered`     nothing has changed but at some paths, and some directories are new
* `Backend.KeepsTo`        a backend that changes nothing but the disk that a call is for
* `Backend.WritesOnly`     the same, where calls about a machine are for its disk
* `World.Alters`           all that was done on the way to another world altered some paths only

There are no links, so that a path leads to the same place whenever it leads anywhere
(`eq_trail_of_trail?`).  Hence what is altered is told by paths alone, whatever the files are, and what
the others do in their turn does not matter.
-/

namespace DiskLayers
open DiskLayers.Path

/-! ## where paths lead -/

namespace Path

/-- one name further; dots lead back -/
def step (here : Trail) (name : List Char) : Trail :=
  if name = ['.', '.'] then here.tail else String.ofList name :: here

def trail (p : Path) : Trail := (names p.chars).foldl step []

theorem trail_join (p : Path) {name : String} (hn : IsPlain name.toList) :
    (p.join name).trail = name :: p.trail := by
  rw [trail, names_chars_join p hn, List.foldl_append, List.foldl_cons, List.foldl_nil, step,
    if_neg hn.ne_dots, String.ofList_toList]
  rfl

inductive Above (p : Path) : Path → Prop
  | self : Above p p
  | up {q r : Path} : Above p q → q.parent? = some r → Above p r

theorem Above.of_parent {p q r : Path} (h : p.parent? = some q) (hr : q.Above r) : p.Above r := by
  induction hr with
  | self => exact .up .self h
  | up _ hp ih => exact ih.up hp

end Path

namespace FileSystem

theorem child?_eq_step {here t : Trail} {name : List Char} (h : child? here name = .ok t) :
    t = Path.step here name := by
  rw [child?] at h
  rw [Path.step]
  split at h
  · next hdots =>
    cases h
    rw [if_pos hdots]
  · next hdots =>
    rw [if_neg hdots]
    split at h <;> cases h
    rfl

theorem walk_eq_foldl {fs : FileSystem} {here t : Trail} {ns : List (List Char)}
    (h : fs.walk here ns = .ok t) : t = ns.foldl Path.step here := by
  induction ns generalizing here with
  | nil =>
    cases h
    rfl
  | cons n ns ih =>
    have h' : (fs.descend? here n).bind (fs.walk · ns) = .ok t := h
    cases hd : fs.descend? here n with
    | error e =>
      rw [hd] at h'
      cases h'
    | ok next =>
      rw [hd] at h'
      rw [List.foldl_cons, ← child?_eq_step (descend?_eq_ok.mp hd).1]
      exact ih h'

/-- an absolute path leads to one place only, whatever the files are -/
theorem eq_trail_of_trail? {fs : FileSystem} {p : Path} {t : Trail} (hp : p.isAbsolute = true)
    (h : fs.trail? p = .ok t) : t = p.trail := by
  obtain ⟨-, here, hwalk, ht⟩ := trail?_eq_ok h
  have hhere := walk_eq_foldl hwalk
  rw [start, if_pos hp] at hhere
  rw [trail]
  rcases List.eq_nil_or_concat (names p.chars) with hn | ⟨ns, n, hn⟩
  · rw [hn] at ht hhere ⊢
    cases ht
    exact hhere
  · rw [List.concat_eq_append] at hn
    rw [hn, List.getLast?_concat] at ht
    rw [hn, List.dropLast_concat] at hhere
    rw [hn, List.foldl_append, List.foldl_cons, List.foldl_nil, ← hhere]
    exact child?_eq_step ht

end FileSystem

/-! ## what happens at a moment -/

/-- What a moment of an operation can be.  All but the turn of the others is about some files, or makes
directories; a call is about the disk that it is for. -/
inductive Moment.Happens (backend : Backend σ) (disk : Call → Option Path)
    (files dirs : Set Path) : Moment → Prop
  | call {c target tools fs} : disk c = some target → target ∈ files →
    Happens backend disk files dirs ⟨.called c (backend c tools fs).1, fs, (backend c tools fs).2.2⟩
  | write {file text fs fs'} : file ∈ files → fs.write file (.ofText text) = .ok fs' →
    Happens backend disk files dirs ⟨.wrote file, fs, fs'⟩
  | remove {file fs fs'} : file ∈ files → fs.remove file = .ok fs' →
    Happens backend disk files dirs ⟨.removed file, fs, fs'⟩
  | «open» {file ref fs fs'} : file ∈ files → fs.open file = .ok (ref, fs') →
    Happens backend disk files dirs ⟨.opened file, fs, fs'⟩
  /-- the file that was opened stands where its path leads, and stays there -/
  | take {file ref text fs} : file ∈ files → ref.trail = file.trail →
    Happens backend disk files dirs ⟨.took file, fs, fs.setContent ref (.ofText text)⟩
  | release {file fs} : Happens backend disk files dirs ⟨.released file, fs, fs⟩
  | make {dir fs} : dir.isAbsolute = true → dir ∈ dirs →
    Happens backend disk files dirs ⟨.made dir, fs, (fs.makeDirectories dir).2⟩
  | wait {fs fs'} : Happens backend disk files dirs ⟨.waited, fs, fs'⟩

theorem Moment.Happens.mono {backend : Backend σ} {disk : Call → Option Path}
    {files files' dirs dirs' : Set Path} {m : Moment} (h : m.Happens backend disk files dirs)
    (hf : files ⊆ files') (hd : dirs ⊆ dirs') : m.Happens backend disk files' dirs' := by
  cases h with
  | call hc hp => exact .call hc (hf hp)
  | write hp hw => exact .write (hf hp) hw
  | remove hp hr => exact .remove (hf hp) hr
  | «open» hp ho => exact .open (hf hp) ho
  | take hp ht => exact .take (hf hp) ht
  | release => exact .release
  | make ha hp => exact .make ha (hd hp)
  | wait => exact .wait

/-- Such moments lead from one world to another.  If the others leave the files alone in their turn,
they have done so. -/
structure World.Proceeds (backend : Backend σ) (disk : Call → Option Path) (files dirs : Set Path)
    (w w' : World σ) : Prop where
  moments : ∃ ms, w'.journal = w.journal ++ ms ∧ Linked w.files ms w'.files ∧
    (∀ m ∈ ms, m.Happens backend disk files dirs) ∧
    (w.Undisturbed → ∀ m ∈ ms, m.event = .waited → m.after = m.before)
  undisturbed : w.Undisturbed → w'.Undisturbed

namespace World.Proceeds
variable {backend : Backend σ} {disk : Call → Option Path} {files files' dirs dirs' : Set Path}
  {w w' w'' : World σ}

theorem refl (backend : Backend σ) (disk : Call → Option Path) (files dirs : Set Path)
    (w : World σ) : w.Proceeds backend disk files dirs w :=
  ⟨⟨[], (List.append_nil _).symm, rfl, fun _ hm => absurd hm List.not_mem_nil,
    fun _ _ hm => absurd hm List.not_mem_nil⟩, id⟩

theorem trans (h : w.Proceeds backend disk files dirs w') (h' : w'.Proceeds backend disk files dirs w'') :
    w.Proceeds backend disk files dirs w'' := by
  obtain ⟨ms, hj, hl, hms, hwait⟩ := h.moments
  obtain ⟨ms', hj', hl', hms', hwait'⟩ := h'.moments
  refine ⟨⟨ms ++ ms', ?_, hl.append hl', ?_, fun hu => ?_⟩, fun hu => h'.undisturbed (h.undisturbed hu)⟩
  · rw [hj', hj, List.append_assoc]
  · exact fun m hm => (List.mem_append.mp hm).elim (hms m) (hms' m)
  · exact fun m hm => (List.mem_append.mp hm).elim (hwait hu m) (hwait' (h.undisturbed hu) m)

theorem mono (h : w.Proceeds backend disk files dirs w') (hf : files ⊆ files') (hd : dirs ⊆ dirs') :
    w.Proceeds backend disk files' dirs' w' := by
  obtain ⟨ms, hj, hl, hms, hwait⟩ := h.moments
  exact ⟨⟨ms, hj, hl, fun m hm => (hms m hm).mono hf hd, hwait⟩, h.undisturbed⟩

theorem of_note {v : World σ} {e : Event} {fs : FileSystem} (hj : v.journal = w.journal)
    (hf : v.files = w.files) (hm : v.meanwhile = w.meanwhile) (he : e ≠ .waited)
    (h : Moment.Happens backend disk files dirs ⟨e, w.files, fs⟩) :
    w.Proceeds backend disk files dirs (v.note e fs) := by
  refine ⟨⟨[⟨e, w.files, fs⟩], ?_, ⟨rfl, rfl⟩, fun m hmem => ?_, fun _ m hmem hw => ?_⟩,
    fun hu turn hturn => hu turn (hm ▸ hturn)⟩
  · show v.journal ++ [⟨e, v.files, fs⟩] = _
    rw [hj, hf]
  · rw [List.mem_singleton.mp hmem]
    exact h
  · rw [List.mem_singleton.mp hmem] at hw
    exact absurd hw he

/-- the turn of the others -/
theorem of_yield (w : World σ) : w.Proceeds backend disk files dirs w.yield := by
  rw [World.yield]
  cases hturn : w.meanwhile with
  | none => exact .refl backend disk files dirs w
  | some turn =>
    refine ⟨⟨[⟨.waited, w.files, (turn w.toShared).files⟩], rfl, ⟨rfl, rfl⟩, fun m hm => ?_,
      fun hu m hm _ => ?_⟩, fun hu turn' hturn' => by cases hturn'⟩
    · rw [List.mem_singleton.mp hm]
      exact .wait
    · rw [List.mem_singleton.mp hm]
      exact hu turn hturn w.toShared

end World.Proceeds

def Act.Proceeds (backend : Backend σ) (disk : Call → Option Path)
    (files dirs : Set Path) (act : Act σ ε α) : Prop :=
  ∀ w : World σ, w.Proceeds backend disk files dirs (act.runIn w).2

namespace Act
variable {σ ε ε' α β : Type} {backend : Backend σ} {disk : Call → Option Path} {files dirs : Set Path}
  {p : Path}

theorem proceeds_look (f : FileSystem → Except ε α) :
    (ofFunction fun w => (f w.files, w) : Act σ ε α).Proceeds backend disk files dirs :=
  fun w => .refl backend disk files dirs w

theorem proceeds_pure (a : α) : (pure a : Act σ ε α).Proceeds backend disk files dirs :=
  fun w => .refl backend disk files dirs w

theorem Proceeds.mapError {f : ε → ε'} {act : Act σ ε α} (h : act.Proceeds backend disk files dirs) :
    (act.mapError f).Proceeds backend disk files dirs := h

theorem Proceeds.bind {act : Act σ ε β} {f : β → Act σ ε α} (h : act.Proceeds backend disk files dirs)
    (hf : ∀ b, (f b).Proceeds backend disk files dirs) :
    (act >>= f).Proceeds backend disk files dirs := by
  intro w
  have hw := h w
  rw [runIn_bind]
  rcases hrun : act.runIn w with ⟨res, w'⟩
  rw [hrun] at hw
  cases res with
  | error e => exact hw
  | ok b => exact hw.trans (hf b w')

theorem proceeds_throw_bind (e : ε) (f : β → Act σ ε α) :
    (throw e >>= f).Proceeds backend disk files dirs := by
  intro w
  rw [runIn_bind, runIn_throw]
  exact .refl backend disk files dirs w

theorem proceeds_inspect_bind {g : FileSystem → β} {f : β → Act σ ε α}
    (hf : ∀ b, (f b).Proceeds backend disk files dirs) :
    (inspect g >>= f).Proceeds backend disk files dirs :=
  (proceeds_look fun fs => .ok (g fs)).bind hf

theorem Proceeds.orElseUndo {act : Act σ ε α} {undo : Act σ ε' Unit}
    (h : act.Proceeds backend disk files dirs) (hundo : undo.Proceeds backend disk files dirs) :
    (orElseUndo act undo).Proceeds backend disk files dirs := by
  intro w
  have hw := h w
  rw [DiskLayers.orElseUndo, runIn_ofFunction]
  rcases hrun : act.runIn w with ⟨res, w'⟩
  rw [hrun] at hw
  cases res with
  | ok a => exact hw
  | error e => exact hw.trans (hundo w')

theorem proceeds_writeFile (text : String) (hp : p ∈ files) :
    (writeFile p text : Act σ SystemError Unit).Proceeds backend disk files dirs := by
  intro w
  rw [writeFile, change, runIn_ofFunction]
  cases hw : w.files.write p (.ofText text) with
  | error e => exact .refl backend disk files dirs w
  | ok fs => exact .of_note rfl rfl rfl (fun he => by cases he) (.write hp hw)

theorem proceeds_removeFile (hp : p ∈ files) :
    (removeFile p : Act σ SystemError Unit).Proceeds backend disk files dirs := by
  intro w
  rw [removeFile, runIn_ofFunction]
  cases hw : w.files.remove p with
  | error e => exact .refl backend disk files dirs w
  | ok fs => exact .of_note rfl rfl rfl (fun he => by cases he) (.remove hp hw)

theorem proceeds_call {c : Call} {target : Path} (hc : disk c = some target) (hp : target ∈ files) :
    (Act.call backend c).Proceeds backend disk files dirs := fun w =>
  .of_note (v := { w with tools := (backend c w.tools w.files).2.1 }) rfl rfl rfl
    (fun he => by cases he) (.call hc hp)

/-! ## locks -/

/-- Taking a lock is about its file and its directory. -/
theorem proceeds_acquire (who command : String) (wait : Duration) (ha : p.isAbsolute = true)
    (hp : p ∈ files) (hd : ∀ dir, p.parent? = some dir → dir ∈ dirs) :
    (Lock.acquire p who command wait : Act σ LockError Lock).Proceeds backend disk files dirs := by
  have htake : ∀ (ref : FileRef), ref.trail = p.trail →
      (Lock.take ref p who command : Act σ LockError Lock).Proceeds backend disk files dirs :=
    fun ref href w => .of_note (v := { w with locked := ref :: w.locked }) rfl rfl rfl
      (fun he => by cases he) (.take hp href)
  have hattempt : ∀ (ref : FileRef), ref.trail = p.trail →
      (Lock.attempt ref p who command wait : Act σ LockError Lock).Proceeds backend disk files dirs := by
    intro ref href w
    rw [Lock.attempt, runIn_ofFunction]
    split
    · exact htake ref href w
    split
    · exact .refl backend disk files dirs w
    split
    · exact (World.Proceeds.of_yield w).trans (htake ref href w.yield)
    · exact .of_yield w
  have hopen : (Lock.openFile p >>= fun ref => Lock.attempt ref p who command wait :
      Act σ LockError Lock).Proceeds backend disk files dirs := by
    intro w
    rw [runIn_bind]
    cases ho : w.files.open p with
    | error e =>
      rw [runIn_openFile_error ho]
      exact .refl backend disk files dirs w
    | ok opened =>
      obtain ⟨ref, fs⟩ := opened
      have ht := (FileSystem.within_of_open ho).1
      rw [runIn_openFile_ok ho]
      have hnoted : w.Proceeds backend disk files dirs (w.note (.opened p) fs) :=
        .of_note rfl rfl rfl (fun he => by cases he) (.open hp ho)
      exact hnoted.trans (hattempt ref (FileSystem.eq_trail_of_trail? ha ht) _)
  rw [Lock.acquire]
  cases hparent : p.parent? with
  | none => exact hopen
  | some dir =>
    refine Proceeds.bind (fun w => ?_) fun _ => hopen
    exact .of_note rfl rfl rfl (fun he => by cases he)
      (.make (parent?_eq_some ha hparent).1 (hd dir hparent))

/-- what is done under a lock, with taking it and giving it back -/
theorem Proceeds.during {acquire : Act σ ε Lock} {act : Act σ ε α}
    (hacq : acquire.Proceeds backend disk files dirs) (hact : act.Proceeds backend disk files dirs) :
    (Lock.during acquire act).Proceeds backend disk files dirs := by
  intro w
  have hw := hacq w
  rw [Lock.during, runIn_ofFunction]
  rcases hrun : acquire.runIn w with ⟨res, w'⟩
  rw [hrun] at hw
  cases res with
  | error e => exact hw
  | ok l => exact (hw.trans (hact w')).trans (.of_note rfl rfl rfl (fun he => by cases he) .release)

theorem proceeds_makeDirectories {dir : Path} (ha : dir.isAbsolute = true) (hd : dir ∈ dirs) :
    (Store.makeDirectories dir : Act σ StoreError Unit).Proceeds backend disk files dirs :=
  fun _ => .of_note rfl rfl rfl (fun he => by cases he) (.make ha hd)

end Act

/-! ## what becomes of the files -/

namespace FileSystem

/-- Nothing has changed but at some paths, and directories are new where they were made. -/
def Altered (files dirs : Set Path) (fs fs' : FileSystem) : Prop :=
  ∀ t, fs'.node? t = fs.node? t ∨ (∃ p ∈ files, t = p.trail) ∨
    fs.node? t = none ∧ fs'.node? t = some .dir ∧ ∃ p ∈ dirs, t = p.trail

namespace Altered
variable {files files' dirs dirs' : Set Path} {fs fs' fs'' : FileSystem} {p : Path}

theorem refl (files dirs : Set Path) (fs : FileSystem) : Altered files dirs fs fs :=
  fun _ => Or.inl rfl

theorem mono (h : Altered files dirs fs fs') (hf : files ⊆ files') (hd : dirs ⊆ dirs') :
    Altered files' dirs' fs fs' := by
  intro t
  rcases h t with h | ⟨p, hp, ht⟩ | ⟨hnone, hdir, p, hp, ht⟩
  · exact Or.inl h
  · exact Or.inr (Or.inl ⟨p, hf hp, ht⟩)
  · exact Or.inr (Or.inr ⟨hnone, hdir, p, hd hp, ht⟩)

theorem trans (h : Altered files dirs fs fs') (h' : Altered files dirs fs' fs'') :
    Altered files dirs fs fs'' := by
  intro t
  rcases h t with h | hfile | ⟨hnone, hdir, hp⟩
  · rw [← h]
    exact h' t
  · exact Or.inr (Or.inl hfile)
  · rcases h' t with h' | hfile | ⟨hnone', -, -⟩
    · exact Or.inr (Or.inr ⟨hnone, h'.trans hdir, hp⟩)
    · exact Or.inr (Or.inl hfile)
    · rw [hdir] at hnone'
      cases hnone'

theorem of_within {t : Trail} (ha : p.isAbsolute = true) (hp : p ∈ files)
    (ht : fs.trail? p = .ok t) (h : Within {t} fs fs') : Altered files dirs fs fs' := by
  intro u
  by_cases hu : u = t
  · rw [hu]
    exact Or.inr (Or.inl ⟨p, hp, eq_trail_of_trail? ha ht⟩)
  · exact Or.inl (h.same u hu)

theorem of_write {content : Content} (ha : p.isAbsolute = true) (hp : p ∈ files)
    (h : fs.write p content = .ok fs') : Altered files dirs fs fs' := by
  obtain ⟨t, -, ht, hw, -⟩ := within_of_write h
  exact of_within ha hp ht hw

theorem of_remove (ha : p.isAbsolute = true) (hp : p ∈ files) (h : fs.remove p = .ok fs') :
    Altered files dirs fs fs' := by
  rw [remove] at h
  cases hl : fs.lookup p with
  | error e =>
    rw [hl] at h
    cases h
  | ok found =>
    obtain ⟨t, n⟩ := found
    rw [hl] at h
    cases n with
    | dir => cases h
    | file b c =>
      cases h
      obtain ⟨ht, hnode, -⟩ := lookup_eq_ok.mp hl
      refine of_within ha hp ht (Within.of_update (by rw [hnode]; simp) (node?_unname_eq fs hnode) ?_)
      exact current_unname fs t

theorem of_ensureDirectory (fs : FileSystem) (ha : p.isAbsolute = true) (hp : p ∈ dirs) :
    Altered files dirs fs (fs.ensureDirectory p).2 := by
  rw [ensureDirectory]
  cases hm : fs.makeDirectory p with
  | error e => exact .refl _ _ fs
  | ok fs' =>
    obtain ⟨t, ht, hnone, rfl⟩ := makeDirectory_eq_ok hm
    have hne : t ≠ [] := by
      rintro rfl
      cases hnone
    intro u
    dsimp only
    rw [node?_set fs hne]
    by_cases hu : u = t
    · rw [if_pos hu, hu]
      exact Or.inr (Or.inr ⟨hnone, rfl, p, hp, eq_trail_of_trail? ha ht⟩)
    · rw [if_neg hu]
      exact Or.inl rfl

/-- By induction on the steps up, for every path and every file system. -/
theorem of_makeDirectories (fs : FileSystem) (ha : p.isAbsolute = true) (hp : {q | p.Above q} ⊆ dirs) :
    Altered files dirs fs (fs.makeDirectories p).2 := by
  rw [makeDirectories]
  generalize p.chars.length + 1 = steps
  induction steps generalizing p fs with
  | zero => exact .refl _ _ fs
  | succ steps ih =>
    rw [makeDirectoriesWithin]
    split
    · exact .refl _ _ fs
    split
    · cases hparent : p.parent? with
      | none => exact .refl _ _ fs
      | some above =>
        have habove := ih fs (parent?_eq_some ha hparent).1 fun q hq => hp (Above.of_parent hparent hq)
        rcases hmade : fs.makeDirectoriesWithin steps above with ⟨r, fs₁⟩
        rw [hmade] at habove
        dsimp only
        rw [hmade]
        cases r with
        | error e => exact habove
        | ok _ => exact habove.trans (of_ensureDirectory fs₁ ha (hp Above.self))
    · exact of_ensureDirectory fs ha (hp Above.self)

end Altered

end FileSystem

def Backend.KeepsTo (backend : Backend σ) (disk : Call → Option Path) : Prop :=
  ∀ c target, disk c = some target → ∀ tools fs t, FileSystem.trail? fs target ≠ .ok t →
    (backend c tools fs).2.2.node? t = fs.node? t

theorem Backend.Confined.keepsTo {backend : Backend σ} (h : backend.Confined) :
    backend.KeepsTo Call.target? := fun _ _ hc => h.same hc

/-- the disk that a call may write to: the one it is for, or that of the machine it is about -/
def Store.diskFor (s : Store) : Call → Path
  | .materialize _ _ target | .snapshot _ target | .execute target _ => target
  | .createMachine disk _ => disk
  | .attachMachine machine | .destroyMachine machine => s.instancePath machine

theorem Store.diskFor_eq (s : Store) {c : Call} {target : Path} (h : c.target? = some target) :
    s.diskFor c = target := by
  cases c <;> first | exact Option.some.inj h | cases h

/-- A backend that changes nothing but the disk that a call may write to, whatever it answers. -/
def Backend.WritesOnly (backend : Backend σ) (s : Store) : Prop :=
  ∀ c tools fs t, FileSystem.trail? fs (s.diskFor c) ≠ .ok t →
    (backend c tools fs).2.2.node? t = fs.node? t

namespace Backend.WritesOnly
variable {backend : Backend σ} {s : Store} (h : backend.WritesOnly s)
include h

theorem keepsTo : backend.KeepsTo fun c => some (s.diskFor c) := by
  intro c target hc
  have hdisk := h c
  rwa [Option.some.inj hc] at hdisk

theorem keepsTo_target : backend.KeepsTo Call.target? := by
  intro c target hc
  have hdisk := h c
  rwa [s.diskFor_eq hc] at hdisk

end Backend.WritesOnly

/-- the paths that lead to some directories, and those above them -/
def Path.above (dirs : Set Path) : Set Path := {p | ∃ dir ∈ dirs, dir.Above p}

section
variable {σ : Type} {backend : Backend σ} {disk : Call → Option Path} {files dirs : Set Path}
  {m : Moment}

/-- what happens at a moment alters the files that the moment is about -/
theorem Moment.Happens.altered (h : m.Happens backend disk files dirs) (hb : backend.KeepsTo disk)
    (ha : ∀ file ∈ files, file.isAbsolute = true) (he : m.event ≠ .waited) :
    FileSystem.Altered files (above dirs) m.before m.after := by
  cases h with
  | @call c target tools fs hc hp =>
    intro t
    by_cases ht : fs.trail? target = .ok t
    · exact Or.inr (Or.inl ⟨_, hp, FileSystem.eq_trail_of_trail? (ha _ hp) ht⟩)
    · exact Or.inl (hb c target hc tools fs t ht)
  | write hp hw => exact .of_write (ha _ hp) hp hw
  | remove hp hr => exact .of_remove (ha _ hp) hp hr
  | «open» hp ho =>
    obtain ⟨ht, hw, -⟩ := FileSystem.within_of_open ho
    exact .of_within (ha _ hp) hp ht hw
  | @take file ref text fs hp ht =>
    intro t
    by_cases hr : t = ref.trail
    · exact Or.inr (Or.inl ⟨file, hp, hr.trans ht⟩)
    · exact Or.inl ((FileSystem.within_setContent fs ref _).same t hr)
  | release => exact .refl _ _ _
  | make hd hdir => exact .of_makeDirectories _ hd fun _ hp => ⟨_, hdir, hp⟩
  | wait => exact absurd rfl he

end

/-- All that was done on the way from one world to another was done to some paths, but for what the
others did in their turn; if they leave the files alone, that is all that became of the files. -/
structure World.Alters (files dirs : Set Path) (w w' : World σ) : Prop where
  moments : ∃ ms, w'.journal = w.journal ++ ms ∧ Linked w.files ms w'.files ∧
    ∀ m ∈ ms, m.event = .waited ∨ FileSystem.Altered files dirs m.before m.after
  undisturbed : w.Undisturbed → FileSystem.Altered files dirs w.files w'.files

theorem FileSystem.Altered.of_linked {files dirs : Set Path} {fs fs' : FileSystem} {ms : List Moment}
    (hl : Linked fs ms fs') (h : ∀ m ∈ ms, Altered files dirs m.before m.after) :
    Altered files dirs fs fs' := by
  induction ms generalizing fs with
  | nil =>
    have e : fs' = fs := hl
    rw [e]
    exact .refl files dirs fs
  | cons m ms ih =>
    have hm := h m List.mem_cons_self
    rw [hl.1] at hm
    exact hm.trans (ih hl.2 fun m' hm' => h m' (List.mem_cons_of_mem m hm'))

theorem World.Proceeds.alters {backend : Backend σ} {disk : Call → Option Path} {files dirs : Set Path}
    {w w' : World σ} (h : w.Proceeds backend disk files dirs w') (hb : backend.KeepsTo disk)
    (ha : ∀ file ∈ files, file.isAbsolute = true) : w.Alters files (above dirs) w' := by
  obtain ⟨ms, hj, hl, hms, hwait⟩ := h.moments
  have hown : ∀ m ∈ ms, m.event = .waited ∨
      FileSystem.Altered files (above dirs) m.before m.after :=
    fun m hm => (em _).imp_right fun he => (hms m hm).altered hb ha he
  refine ⟨⟨ms, hj, hl, hown⟩, fun hu => .of_linked hl fun m hm => ?_⟩
  rcases hown m hm with he | halt
  · rw [hwait hu m hm he]
    exact .refl _ _ _
  · exact halt

end DiskLayers
