import DiskLayers.Proofs.Instances

/-!
# What an operation holds

* `Event.held`               the locks that an operation holds after an event
* `Event.file?`              the file that an event is about
* `FileSystem.KeepsLocks`    no lock file goes, and none becomes another file
* `Store.diskOf`, `Store.filesOf`
                             the disk of a key in its directory, with its marker
* `Store.Allows`             what an operation may do while it holds some locks
* `Store.Follows`            moments each of which is allowed, from held locks to held locks
* `Store.Disciplined`        the same from no lock to no lock, for every moment apart
* `World.Returns`            nobody holds a lock more or less, but for what the others did
* `Act.Works`                an operation that leaves locks alone, and what its moments are
* `Act.Handles`              an operation put together from looks at the files, and from calls, writing and
                             removing that are about certain files

`acquires_acquire` says what comes of taking a lock, and `ends_under` what comes of an operation
under it, if the lock belongs to all files that the operation is about.
-/

namespace DiskLayers
open DiskLayers.Path

/-! ## what an operation holds -/

/-- the locks that an operation holds after an event, from those it held before -/
def Event.held (held : List Path) : Event → List Path
  | .took lock => lock :: held
  | .released lock => held.erase lock
  | .called _ _ | .wrote _ | .removed _ | .opened _ | .made _ | .waited => held

/-- the locks that an operation holds after some moments, from those it held before -/
def heldAfter (held : List Path) (ms : List Moment) : List Path :=
  ms.foldl (fun held m => m.event.held held) held

/-- the disk that a call makes, changes or starts a machine on -/
def Call.disk? : Call → Option Path
  | .createMachine disk _ => some disk
  | c => c.target?

/-- the file that an event is about, if it is about one that is not a lock -/
def Event.file? : Event → Option Path
  | .called c _ => c.disk?
  | .wrote file | .removed file => some file
  | .took _ | .released _ | .opened _ | .made _ | .waited => none

/-- the own doing of an operation: neither a call nor what the other processes do -/
def Event.isOwn : Event → Bool
  | .called _ _ | .waited => false
  | .took _ | .released _ | .wrote _ | .removed _ | .opened _ | .made _ => true

/-- the file name of a lock -/
def lockName (name : String) : String := name ++ ".lock"

/-- No lock file goes, and none makes way for another file of its name. -/
def FileSystem.KeepsLocks (fs fs' : FileSystem) : Prop :=
  ∀ name d b c, fs.node? (lockName name :: d) = some (.file b c) →
    ∃ c', fs'.node? (lockName name :: d) = some (.file b c')

namespace Store

/-- the disk of a key, in the directory of its kind -/
def diskOf (s : Store) (kind : LayerKind) (key : Identity) : Path :=
  (s.root.join (lockDir kind)).join (diskName key.name)

/-- the disk of a key and its marker -/
def filesOf (s : Store) (kind : LayerKind) (key : Identity) : Set Path :=
  {file | file = s.diskOf kind key ∨ file = Layer.markerOf (s.diskOf kind key)}

/-- the files of a store that are not locks: disk and marker of a key, disk and record of a machine -/
def Has (s : Store) (file : Path) : Prop :=
  (∃ kind key, isValidName key.name = true ∧ file ∈ s.filesOf kind key) ∨
    ∃ machine, isValidName machine = true ∧
      (file = s.instancePath machine ∨ file = s.recordPath machine)

/-- What an operation may do while it holds some locks, if there are some that it may take: it
takes one only when it holds none, it waits only when it holds none, it makes calls only when it
holds one, and it changes no files but those of the store; whatever it does to the disk or the marker
of a key, it does holding just the lock of that key. -/
structure Allows (s : Store) (locks : Set Path) (held : List Path) (m : Moment) : Prop where
  took : ∀ lock, m.event = .took lock → held = [] ∧ lock ∈ locks
  waited : m.event = .waited → held = []
  called : m.call? ≠ none → ∃ lock ∈ locks, held = [lock]
  placed : ∀ file, m.event.file? = some file → s.Has file
  guarded : ∀ file, m.event.file? = some file → ∀ kind key, isValidName key.name = true →
    file ∈ s.filesOf kind key → held = [s.lockPath kind key]
  keeps : m.event.isOwn = true → FileSystem.KeepsLocks m.before m.after

def Follows (s : Store) (locks : Set Path) : List Path → List Moment → List Path → Prop
  | held, [], held' => held' = held
  | held, m :: ms, held' => s.Allows locks held m ∧ s.Follows locks (m.event.held held) ms held'

/-- Every moment is allowed by what is held when it comes, no two locks are ever held together,
and none is held at the end. -/
structure Disciplined (s : Store) (locks : Set Path) (ms : List Moment) : Prop where
  allowed : ∀ before m after, ms = before ++ m :: after → s.Allows locks (heldAfter [] before) m
  alone : ∀ before after, ms = before ++ after → (heldAfter [] before).length ≤ 1
  settled : heldAfter [] ms = []

end Store

/-- Locks and the turn of the others are what they were, or the others have had their turn and
locks are what they left. -/
def World.Returns (w w' : World σ) : Prop :=
  w.Kept w' ∨ ∃ turn files, w.meanwhile = some turn ∧ w'.meanwhile = none ∧
    w'.locked = (turn ⟨files, w.locked⟩).locked

/-- An operation that leaves locks and the turn of the others alone, from every world, and all of
whose moments are like that. -/
def Act.Works (P : Moment → Prop) (act : Act σ ε α) : Prop :=
  ∀ w, act.Ends w fun _ ms w' => w.Kept w' ∧ ∀ m ∈ ms, P m

/-- A moment that is about one of these files and harms no lock. -/
structure Moment.Handles (files : Set Path) (m : Moment) : Prop where
  file : ∃ file ∈ files, m.event.file? = some file
  keeps : m.event.isOwn = true → FileSystem.KeepsLocks m.before m.after

/-- An operation that is put together from looks at the files, and from calls, writing and removing
that are about these files. -/
inductive Act.Handles {σ : Type} (files : Set Path) : {ε α : Type} → Act σ ε α → Prop
  | look {ε α} (f : FileSystem → Except ε α) :
    Act.Handles files (.ofFunction fun w => (f w.files, w) : Act σ ε α)
  | call {backend : Backend σ} {c : Call} {file : Path} : c.disk? = some file → file ∈ files →
    Act.Handles files (Act.call backend c)
  | write {file : Path} (text : String) : file ∈ files → Act.Handles files (Act.writeFile file text)
  | remove {dir : Path} {name : String} : IsPlain name.toList → (∀ other, name ≠ lockName other) →
    dir.join name ∈ files → Act.Handles files (Act.removeFile (dir.join name))
  | mapError {ε ε' α} {f : ε → ε'} {act : Act σ ε α} : Act.Handles files act →
    Act.Handles files (act.mapError f)
  | bind {ε α β} {act : Act σ ε β} {f : β → Act σ ε α} : Act.Handles files act →
    (∀ b, Act.Handles files (f b)) → Act.Handles files (act >>= f)
  | orElseUndo {ε ε' α} {act : Act σ ε α} {undo : Act σ ε' Unit} : Act.Handles files act →
    Act.Handles files undo → Act.Handles files (orElseUndo act undo)

/-- A moment that makes the way for a lock: its directories, or its file. -/
structure Moment.Prepares (m : Moment) : Prop where
  event : (∃ dir, m.event = .made dir) ∨ ∃ file, m.event = .opened file
  keeps : FileSystem.KeepsLocks m.before m.after

/-! ## lock files stay -/

theorem ne_lockName {name stem ext : String} (h : name.toList = stem.toList ++ '.' :: ext.toList)
    (he : ('.' :: ext.toList).getLast? ≠ some 'k') (other : String) : name ≠ lockName other := by
  intro hname
  have hlast := congrArg List.getLast? (h.symm.trans (congrArg String.toList hname))
  have hlock : (lockName other).toList = other.toList ++ ".lock".toList := by
    rw [lockName, String.toList_append]
  have hext := List.getLast?_eq_some_getLast (List.cons_ne_nil '.' ext.toList)
  rw [hlock, List.getLast?_append, List.getLast?_append, hext, Option.some_or,
    show ".lock".toList.getLast? = some 'k' by decide, Option.some_or] at hlast
  exact he (hext.trans hlast)

namespace FileSystem
variable {fs fs' fs'' : FileSystem}

theorem KeepsLocks.refl (fs : FileSystem) : KeepsLocks fs fs := fun _ _ _ c h => ⟨c, h⟩

theorem KeepsLocks.trans (h : KeepsLocks fs fs') (h' : KeepsLocks fs' fs'') : KeepsLocks fs fs'' := by
  intro name d b c hn
  obtain ⟨c', hn'⟩ := h name d b c hn
  exact h' name d b c' hn'

/-- one trail that bears no lock gets another entry, or loses the one it has -/
theorem keepsLocks_of_update {t : Trail} {n : Option Node}
    (ht : ∀ name d b c, fs.node? t = some (.file b c) → t ≠ lockName name :: d)
    (hn : fs'.node? = Function.update fs.node? t n) : KeepsLocks fs fs' := by
  intro name d b c hf
  refine ⟨c, ?_⟩
  have hne : lockName name :: d ≠ t := fun e => ht name d b c (e ▸ hf) e.symm
  rw [hn, Function.update_of_ne hne, hf]

theorem keepsLocks_setContent (fs : FileSystem) (ref : FileRef) (content : Content) :
    KeepsLocks fs (fs.setContent ref content) := by
  intro name d b c hf
  by_cases ht : lockName name :: d = ref.trail
  · by_cases hb : b = ref.birth
    · have href : ref = ⟨lockName name :: d, b⟩ := by rw [ht, hb]
      exact ⟨content, by rw [href, node?_setContent_self fs hf, Function.update_self]⟩
    · refine ⟨c, ?_⟩
      rw [setContent, ← ht, hf]
      dsimp only
      rw [if_neg hb]
      exact hf
  · exact ⟨c, by rw [node?_setContent fs ref content ht, hf]⟩

theorem keepsLocks_open {p : Path} {ref : FileRef} (h : fs.open p = .ok (ref, fs')) :
    KeepsLocks fs fs' := by
  obtain ⟨-, ⟨rfl, -⟩ | ⟨hnone, -, rfl⟩⟩ := open_eq_ok h
  · exact .refl _
  · have ht : ref.trail ≠ [] := by
      intro e
      rw [e] at hnone
      cases hnone
    refine keepsLocks_of_update (fun name d b c hf => ?_) (node?_create_eq fs ht .empty)
    rw [hnone] at hf
    cases hf

theorem keepsLocks_write {p : Path} {content : Content} (h : fs.write p content = .ok fs') :
    KeepsLocks fs fs' := by
  rw [write] at h
  cases ho : fs.open p with
  | error e =>
    rw [ho] at h
    cases h
  | ok o =>
    obtain ⟨ref, fs₁⟩ := o
    rw [ho] at h
    cases h
    exact (keepsLocks_open ho).trans (keepsLocks_setContent fs₁ ref content)

theorem keepsLocks_ensureDirectory (fs : FileSystem) (p : Path) :
    KeepsLocks fs (fs.ensureDirectory p).2 := by
  rw [ensureDirectory]
  cases hm : fs.makeDirectory p with
  | error e => exact .refl fs
  | ok fs' =>
    obtain ⟨t, -, hnone, rfl⟩ := makeDirectory_eq_ok hm
    have ht : t ≠ [] := by
      rintro rfl
      cases hnone
    refine keepsLocks_of_update (fun name d b c hf => ?_) (node?_set_eq fs ht .dir)
    rw [hnone] at hf
    cases hf

theorem keepsLocks_makeDirectories (fs : FileSystem) (p : Path) :
    KeepsLocks fs (fs.makeDirectories p).2 := by
  rw [makeDirectories]
  -- by induction on the steps up, for every path and every file system
  generalize p.chars.length + 1 = steps
  induction steps generalizing p fs with
  | zero => exact .refl fs
  | succ steps ih =>
    rw [makeDirectoriesWithin]
    split
    · exact .refl fs
    split
    · cases p.parent? with
      | none => exact .refl fs
      | some above =>
        have habove := ih fs above
        rcases hmade : fs.makeDirectoriesWithin steps above with ⟨r, fs₁⟩
        rw [hmade] at habove
        dsimp only
        rw [hmade]
        cases r with
        | error e => exact habove
        | ok _ => exact habove.trans (keepsLocks_ensureDirectory fs₁ p)
    · exact keepsLocks_ensureDirectory fs p

/-- a file with another name than a lock may go -/
theorem keepsLocks_remove {dir : Path} {name : String} (hn : IsPlain name.toList)
    (hlock : ∀ other, name ≠ lockName other) (h : fs.remove (dir.join name) = .ok fs') :
    KeepsLocks fs fs' := by
  rw [remove] at h
  cases hl : fs.lookup (dir.join name) with
  | error e =>
    rw [hl] at h
    cases h
  | ok found =>
    obtain ⟨t, n⟩ := found
    rw [hl] at h
    cases n with
    | dir => cases h
    | file b c =>
      cases h
      obtain ⟨htrail, hnode, -⟩ := lookup_eq_ok.mp hl
      refine keepsLocks_of_update (fun other d b' c' _ he => ?_) (node?_unname_eq fs hnode)
      obtain ⟨-, here, -, hchild⟩ := trail?_eq_ok htrail
      rw [names_chars_join dir hn, List.getLast?_concat] at hchild
      dsimp only at hchild
      rw [child?, if_neg hn.ne_dots] at hchild
      split at hchild
      · cases hchild
      · cases hchild
        rw [String.ofList_toList] at he
        exact hlock other (List.cons.inj he).1

end FileSystem

/-! ## moments one after the other -/

namespace Store.Follows
variable {s : Store} {locks : Set Path} {held held' held'' : List Path} {ms ms' : List Moment}

theorem append (h : s.Follows locks held ms held') (h' : s.Follows locks held' ms' held'') :
    s.Follows locks held (ms ++ ms') held'' := by
  induction ms generalizing held with
  | nil =>
    have e : held' = held := h
    rw [List.nil_append, ← e]
    exact h'
  | cons m ms ih => exact ⟨h.1, ih h.2⟩

theorem singleton {m : Moment} (h : s.Allows locks held m) :
    s.Follows locks held [m] (m.event.held held) := ⟨h, rfl⟩

theorem of_forall (h : ∀ m ∈ ms, s.Allows locks held m ∧ m.event.held held = held) :
    s.Follows locks held ms held := by
  induction ms with
  | nil => rfl
  | cons m ms ih =>
    obtain ⟨hm, hheld⟩ := h m List.mem_cons_self
    refine ⟨hm, ?_⟩
    rw [hheld]
    exact ih fun m' hm' => h m' (List.mem_cons_of_mem m hm')

theorem heldAfter_eq (h : s.Follows locks held ms held') : heldAfter held ms = held' := by
  induction ms generalizing held with
  | nil => exact h.symm
  | cons m ms ih => exact ih h.2

theorem of_append (h : s.Follows locks held (ms ++ ms') held') :
    s.Follows locks held ms (heldAfter held ms) ∧
      s.Follows locks (heldAfter held ms) ms' held' := by
  induction ms generalizing held with
  | nil => exact ⟨rfl, h⟩
  | cons m ms ih =>
    obtain ⟨h₁, h₂⟩ := ih h.2
    exact ⟨⟨h.1, h₁⟩, h₂⟩

theorem length_le (h : s.Follows locks held ms held') (hl : held.length ≤ 1) :
    held'.length ≤ 1 := by
  induction ms generalizing held with
  | nil =>
    have e : held' = held := h
    rw [e]
    exact hl
  | cons m ms ih =>
    refine ih h.2 ?_
    obtain ⟨event, before, after⟩ := m
    cases event with
    | took lock =>
      rw [(h.1.took lock rfl).1]
      exact Nat.le_refl 1
    | released lock => exact (List.length_erase_le).trans hl
    | _ => exact hl

theorem disciplined (h : s.Follows locks [] ms []) : s.Disciplined locks ms := by
  refine ⟨fun before m after hms => ?_, fun before after hms => ?_, h.heldAfter_eq⟩
  · rw [hms] at h
    exact h.of_append.2.1
  · rw [hms] at h
    exact h.of_append.1.length_le (Nat.zero_le 1)

end Store.Follows

namespace Moment
variable {s : Store} {locks : Set Path} {held : List Path} {m : Moment}

theorem Prepares.allows (h : m.Prepares) : s.Allows locks held m ∧ m.event.held held = held := by
  obtain ⟨event, before, after⟩ := m
  obtain ⟨⟨dir, he⟩ | ⟨file, he⟩, hkeeps⟩ := h <;> cases he <;>
    exact ⟨⟨fun lock hl => (by cases hl), fun hw => (by cases hw), fun hc => absurd rfl hc,
      fun file hf => (by cases hf), fun file hf => (by cases hf), fun _ => hkeeps⟩, rfl⟩

/-- what is about certain files is allowed under a lock that belongs to all of them -/
theorem Handles.allows {files : Set Path} {lock : Path} (h : m.Handles files) (hlock : lock ∈ locks)
    (hplaced : ∀ file ∈ files, s.Has file)
    (hfiles : ∀ file ∈ files, ∀ kind key, isValidName key.name = true →
      file ∈ s.filesOf kind key → lock = s.lockPath kind key) :
    s.Allows locks [lock] m ∧ m.event.held [lock] = [lock] := by
  obtain ⟨event, before, after⟩ := m
  obtain ⟨⟨file, hmem, he⟩, hkeeps⟩ := h
  refine ⟨⟨fun l hl => ?_, fun hw => ?_, fun _ => ⟨lock, hlock, rfl⟩, fun f hf => ?_,
    fun f hf kind key hv hk => ?_, hkeeps⟩, ?_⟩
  · have hl' : event = .took l := hl
    rw [hl'] at he
    cases he
  · have hw' : event = .waited := hw
    rw [hw'] at he
    cases he
  · rw [he] at hf
    cases hf
    exact hplaced file hmem
  · rw [he] at hf
    cases hf
    rw [hfiles file hmem kind key hv hk]
  · cases event <;> first | rfl | cases he

end Moment

/-! ## whose lock is held by whom -/

namespace World.Returns
variable {w w' w'' : World σ}

theorem refl (w : World σ) : w.Returns w := Or.inl (.refl w)

theorem kept (h : w.Returns w') (hk : w'.Kept w'') : w.Returns w'' := by
  rcases h with h | ⟨turn, files, ht, hnone, hlocked⟩
  · exact Or.inl (h.trans hk)
  · exact Or.inr ⟨turn, files, ht, hk.meanwhile.trans hnone, hk.locked.trans hlocked⟩

theorem trans (h : w.Returns w') (h' : w'.Returns w'') : w.Returns w'' := by
  rcases h' with h' | ⟨turn, files, ht, hnone, hlocked⟩
  · exact h.kept h'
  · rcases h with h | ⟨turn', files', ht', hnone', hlocked'⟩
    · refine Or.inr ⟨turn, files, h.meanwhile ▸ ht, hnone, ?_⟩
      rw [← h.locked]
      exact hlocked
    · rw [hnone'] at ht
      cases ht

theorem of_yield (w : World σ) : w.Returns w.yield := by
  rw [World.yield]
  cases ht : w.meanwhile with
  | none => exact .refl w
  | some turn => exact Or.inr ⟨turn, w.files, ht, rfl, rfl⟩

end World.Returns

/-- What comes of an attempt to take a lock: it is held now, and nobody else holds it, or nothing
more is held than before. -/
def World.Acquires (s : Store) (locks : Set Path) (path : Path) (w : World σ) (res : Except ε Lock)
    (ms : List Moment) (w' : World σ) : Prop :=
  match res with
  | .ok l => s.Follows locks [] ms [l.path] ∧ l.path = path ∧ ∃ others,
      w'.locked = l.file :: others ∧ l.file ∉ others ∧ w.Returns { w' with locked := others }
  | .error _ => s.Follows locks [] ms [] ∧ w.Returns w'

/-- what had to do with no lock of the own before does not matter -/
theorem World.Acquires.after {s : Store} {locks : Set Path} {path : Path} {w v w' : World σ}
    {res : Except ε Lock} {ms ms' : List Moment} (h : v.Acquires s locks path res ms' w')
    (hms : s.Follows locks [] ms []) (hv : w.Returns v) : w.Acquires s locks path res (ms ++ ms') w' := by
  cases res with
  | error e => exact ⟨hms.append h.1, hv.trans h.2⟩
  | ok l =>
    obtain ⟨hms', hl, others, hlocked, hfree, hw⟩ := h
    exact ⟨hms.append hms', hl, others, hlocked, hfree, hv.trans hw⟩

theorem World.Acquires.mapError {s : Store} {locks : Set Path} {path : Path} {w w' : World σ}
    {res : Except ε Lock} {ms : List Moment} (h : w.Acquires s locks path res ms w') (f : ε → ε') :
    w.Acquires s locks path (res.mapError f) ms w' := by
  cases res <;> exact h

namespace Act
variable {σ ε ε' α β : Type} {P : Moment → Prop} {s : Store} {locks : Set Path}

/-! ## operations that leave locks alone -/

theorem works_look (f : FileSystem → Except ε α) :
    (ofFunction fun w => (f w.files, w) : Act σ ε α).Works P := fun w =>
  ends_of_runIn rfl ⟨.refl w, fun _ hm => absurd hm List.not_mem_nil⟩

theorem works_of_note {act : Act σ ε α}
    (h : ∀ w, (∃ r, act.runIn w = (r, w)) ∨ ∃ r e files, ∃ w₀ : World σ,
      act.runIn w = (r, w₀.note e files) ∧ w₀.journal = w.journal ∧ w₀.files = w.files ∧
        w.Kept w₀ ∧ P ⟨e, w.files, files⟩) : act.Works P := by
  intro w
  rcases h w with ⟨r, hrun⟩ | ⟨r, e, files, w₀, hrun, hj, hf, hk, hP⟩
  · exact ends_of_runIn hrun ⟨.refl w, fun _ hm => absurd hm List.not_mem_nil⟩
  · refine ends_of_note hrun hj hf ⟨⟨hk.locked, hk.meanwhile⟩, fun m hm => ?_⟩
    rw [List.mem_singleton.mp hm]
    exact hP

theorem Works.bind {act : Act σ ε β} {f : β → Act σ ε α} (h : act.Works P) (hf : ∀ b, (f b).Works P) :
    (act >>= f).Works P := by
  intro w
  refine (h w).bind ?_ fun e ms w' hw => hw
  rintro b ms w' ⟨hk, hms⟩
  refine (hf b w').mono ?_
  rintro _ ms' w'' ⟨hk', hms'⟩
  exact ⟨hk.trans hk', fun m hm => (List.mem_append.mp hm).elim (hms m) (hms' m)⟩

theorem handles_pure (files : Set Path) (a : α) : (pure a : Act σ ε α).Handles files :=
  .look fun _ => .ok a

theorem handles_inspect (files : Set Path) (f : FileSystem → α) :
    (inspect f : Act σ ε α).Handles files := .look fun fs => .ok (f fs)

theorem handles_throw_bind (files : Set Path) (e : ε) (f : β → Act σ ε α) :
    (throw e >>= f).Handles files := by
  have hthrow : (throw e >>= f) = (throw e : Act σ ε α) :=
    ext fun w => by rw [runIn_bind, runIn_throw, runIn_throw]
  rw [hthrow]
  exact .look fun _ => .error e

/-- by induction on how the operation is put together -/
theorem Handles.works {files : Set Path} {act : Act σ ε α} (h : act.Handles files) :
    act.Works (Moment.Handles files) := by
  induction h with
  | look f => exact works_look f
  | @call backend c file hc hfile =>
    exact works_of_note fun w => Or.inr ⟨_, _, _, _, rfl, rfl, rfl, ⟨rfl, rfl⟩, ⟨file, hfile, hc⟩,
      fun hown => by cases hown⟩
  | @write file text hfile =>
    refine works_of_note fun w => ?_
    cases hw : w.files.write file (.ofText text) with
    | error e => exact Or.inl ⟨.error e, by rw [writeFile, change, runIn_ofFunction, hw]⟩
    | ok fs =>
      exact Or.inr ⟨.ok (), .wrote file, fs, w, by rw [writeFile, change, runIn_ofFunction, hw], rfl,
        rfl, .refl w, ⟨file, hfile, rfl⟩, fun _ => FileSystem.keepsLocks_write hw⟩
  | @remove dir name hn hlock hfile =>
    refine works_of_note fun w => ?_
    cases hw : w.files.remove (dir.join name) with
    | error e => exact Or.inl ⟨_, by rw [removeFile, runIn_ofFunction, hw]⟩
    | ok fs =>
      exact Or.inr ⟨.ok (), .removed (dir.join name), fs, w, by rw [removeFile, runIn_ofFunction, hw],
        rfl, rfl, .refl w, ⟨_, hfile, rfl⟩, fun _ => FileSystem.keepsLocks_remove hn hlock hw⟩
  | mapError _ ih => exact fun w => Ends.mapError (ih w)
  | bind _ _ ih ihf => exact ih.bind ihf
  | orElseUndo _ _ ih ihundo =>
    intro w
    refine (ih w).orElseUndo (fun a ms w' hw => hw) ?_
    rintro e ms w' ⟨hk, hms⟩
    refine (ihundo w').mono ?_
    rintro _ ms' w'' ⟨hk', hms'⟩
    exact ⟨hk.trans hk', fun m hm => (List.mem_append.mp hm).elim (hms m) (hms' m)⟩

/-! ## taking a lock and giving it back -/

theorem works_makeDirectories (dir : Path) :
    (Lock.makeDirectories dir : Act σ LockError Unit).Works Moment.Prepares :=
  works_of_note fun w => Or.inr ⟨_, _, _, w, rfl, rfl, rfl, .refl w, Or.inl ⟨dir, rfl⟩,
    FileSystem.keepsLocks_makeDirectories w.files dir⟩

theorem works_openFile (path : Path) :
    (Lock.openFile path : Act σ LockError FileRef).Works Moment.Prepares := by
  refine works_of_note fun w => ?_
  cases ho : w.files.open path with
  | error e => exact Or.inl ⟨_, runIn_openFile_error ho⟩
  | ok o =>
    obtain ⟨ref, files⟩ := o
    exact Or.inr ⟨_, _, _, w, runIn_openFile_ok ho, rfl, rfl, .refl w, Or.inr ⟨path, rfl⟩,
      FileSystem.keepsLocks_open ho⟩

theorem acquires_take {path : Path} (hpath : path ∈ locks) (who command : String) {w : World σ}
    {ref : FileRef} (hfree : ref ∉ w.locked) :
    (Lock.take ref path who command : Act σ LockError Lock).Ends w fun res ms w' =>
      w.Acquires s locks path res ms w' := by
  refine ends_of_note rfl rfl rfl ⟨⟨?_, rfl⟩, rfl, w.locked, rfl, hfree, Or.inl ⟨rfl, rfl⟩⟩
  refine ⟨fun lock hl => ?_, fun hw => (by cases hw), fun hc => absurd rfl hc,
    fun file hf => (by cases hf), fun file hf => (by cases hf),
    fun _ => FileSystem.keepsLocks_setContent _ _ _⟩
  cases hl
  exact ⟨rfl, hpath⟩

/-- a lock is taken if nobody holds it, now or after the others had their turn -/
theorem acquires_attempt {path : Path} (hpath : path ∈ locks) (ref : FileRef) (who command : String)
    (wait : Duration) (w : World σ) :
    (Lock.attempt ref path who command wait : Act σ LockError Lock).Ends w fun res ms w' =>
      w.Acquires s locks path res ms w' := by
  -- the others come in between, when no lock is held
  have hwaited : ∀ files, s.Follows locks [] [⟨.waited, w.files, files⟩] [] := fun files =>
    .singleton ⟨fun lock hl => (by cases hl), fun _ => rfl, fun hc => absurd rfl hc,
      fun file hf => (by cases hf), fun file hf => (by cases hf), fun hown => (by cases hown)⟩
  have hyield := World.Returns.of_yield w
  refine ends_attempt (acquires_take hpath who command) (fun _ => ⟨rfl, .refl w⟩)
    (fun _ _ _ hfree => ?_) fun _ _ _ _ => ⟨hwaited _, hyield⟩
  exact (acquires_take hpath who command hfree).mono fun res ms w' hw => hw.after (hwaited _) hyield

/-- Taking a lock, wherever its path leads and whoever else comes in between. -/
theorem acquires_acquire {path : Path} (hpath : path ∈ locks) (who command : String)
    (wait : Duration) (w : World σ) :
    (Lock.acquire path who command wait : Act σ LockError Lock).Ends w fun res ms w' =>
      w.Acquires s locks path res ms w' := by
  have hways : ∀ {ms : List Moment}, (∀ m ∈ ms, m.Prepares) → s.Follows locks [] ms [] :=
    fun h => .of_forall fun m hm => (h m hm).allows
  rw [Lock.acquire]
  cases path.parent? with
  | none =>
    refine (works_openFile path w).bind ?_ fun e ms v hv => ⟨hways hv.2, Or.inl hv.1⟩
    rintro ref ms v ⟨hk, hms⟩
    exact (acquires_attempt hpath ref who command wait v).mono fun res ms' w' hw =>
      hw.after (hways hms) (Or.inl hk)
  | some dir =>
    refine (works_makeDirectories dir w).bind ?_ fun e ms v hv => ⟨hways hv.2, Or.inl hv.1⟩
    rintro _ ms v ⟨hk, hms⟩
    refine (works_openFile path v).bind ?_ fun e ms' v' hv => ?_
    · rintro ref ms' v' ⟨hk', hms'⟩
      refine (acquires_attempt (s := s) hpath ref who command wait v').mono fun res ms'' w' hw => ?_
      exact (hw.after (hways hms') (Or.inl hk')).after (hways hms) (Or.inl hk)
    · exact ⟨(hways hms).append (hways hv.2), Or.inl (hk.trans hv.1)⟩

/-- What is done under a lock, if the lock belongs to all files it is about. -/
theorem ends_under {acquire : Act σ ε Lock} {path : Path} {files : Set Path} {act : Act σ ε α}
    (hpath : path ∈ locks) {w : World σ}
    (hacq : acquire.Ends w fun res ms w' => w.Acquires s locks path res ms w')
    (hact : act.Handles files) (hplaced : ∀ file ∈ files, s.Has file)
    (hfiles : ∀ file ∈ files, ∀ kind key, isValidName key.name = true →
      file ∈ s.filesOf kind key → path = s.lockPath kind key) :
    (Lock.during acquire act).Ends w fun _ ms w' => s.Follows locks [] ms [] ∧ w.Returns w' := by
  refine hacq.during ?_ fun e ms w' hw => hw
  rintro l ms w₀ ⟨hms, hl, others, hlocked, -, hreturns⟩
  refine (hact.works w₀).mono ?_
  rintro _ ms' w' ⟨hk, hms'⟩
  have hallows : s.Allows locks [l.path] ⟨.released l.path, w'.files, w'.files⟩ :=
    ⟨fun lock hl => (by cases hl), fun hw => (by cases hw), fun hc => absurd rfl hc,
      fun file hf => (by cases hf), fun file hf => (by cases hf), fun _ => .refl _⟩
  have hback := Store.Follows.singleton hallows
  rw [show Event.held [l.path] (.released l.path) = [] from List.erase_cons_head _ _] at hback
  rw [← hl] at hpath
  refine ⟨hms.append (.append (.of_forall fun m hm => (hms' m hm).allows hpath hplaced ?_) hback), ?_⟩
  · rw [hl]
    exact hfiles
  · refine hreturns.kept ⟨?_, hk.meanwhile⟩
    show w'.locked.erase l.file = others
    rw [hk.locked, hlocked, List.erase_cons_head]

end Act

end DiskLayers
