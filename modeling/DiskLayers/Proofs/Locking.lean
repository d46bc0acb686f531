import DiskLayers.Proofs.Layout
import DiskLayers.Proofs.Runs

/-!
# What taking a lock changes

* `Store.lockTrails`   what lies in the directory of locks
* `Store.LocksTidy`    nothing there is in the way of taking a lock
* `World.Locks`        what an operation does that has to do with locks only
* `World.Clear`        nobody holds a lock, and nothing is in the way of taking one
* `World.Leaves`       nobody else can change more than before, and locks are as clear as before
* `Lock.attempt`       the last part of taking a lock, once its file is open

`ends_attempt` says how the last part can end, whatever the others do in between.  `ends_acquire` says
that taking a lock changes nothing outside the directory of locks, and that it succeeds where locks are
clear and its path is not too long.  `Ends.during` says how an operation under a lock ends.
-/

namespace DiskLayers
open DiskLayers.Path

def Store.lockTrails (r : Trail) : Set Trail := {t | Store.locksDir :: r <:+ t}

namespace Store

theorem not_mem_lockTrails {r : Trail} {dir : String} (hd : dir ≠ locksDir) (name : String) :
    name :: dir :: r ∉ lockTrails r := by
  intro h
  have he : locksDir :: r = dir :: r :=
    (List.suffix_of_suffix_length_le h ⟨[name], rfl⟩ (by simp)).eq_of_length (by simp)
  exact hd (List.cons.inj he).1.symm

/-- Where the locks of a store lie no file stands for a directory and no directory for a file. -/
structure LocksTidy (r : Trail) (fs : FileSystem) : Prop where
  dirs : ∀ kind b c, fs.node? (lockDir kind :: locksDir :: r) ≠ some (.file b c)
  files : ∀ kind name, fs.node? (name :: lockDir kind :: locksDir :: r) ≠ some .dir

namespace LocksTidy
variable {r : Trail} {fs fs' : FileSystem} {kind : LayerKind}

theorem of_same (h : LocksTidy r fs) (hs : ∀ t ∈ lockTrails r, fs'.node? t = fs.node? t) :
    LocksTidy r fs' := by
  refine ⟨fun kind b c => ?_, fun kind name => ?_⟩
  · rw [hs (lockDir kind :: locksDir :: r) ⟨[_], rfl⟩]
    exact h.dirs kind b c
  · rw [hs (name :: lockDir kind :: locksDir :: r) ⟨[_, _], rfl⟩]
    exact h.files kind name

theorem within {T : Set Trail} (h : LocksTidy r fs) (hw : FileSystem.Within T fs fs')
    (hT : ∀ t ∈ T, t ∉ lockTrails r) : LocksTidy r fs' :=
  h.of_same fun t ht => hw.same t fun hmem => hT t hmem ht

theorem of_dir (h : LocksTidy r fs)
    (hn : fs'.node? = Function.update fs.node? (lockDir kind :: locksDir :: r) (some .dir)) :
    LocksTidy r fs' := by
  refine ⟨fun kind' b c => ?_, fun kind' name => ?_⟩
  · rw [hn, Function.update_apply]
    split
    · simp
    · exact h.dirs kind' b c
  · rw [hn, Function.update_of_ne fun e => by simpa using congrArg List.length e]
    exact h.files kind' name

theorem of_file {name : String} {b : Nat} {c : Content} (h : LocksTidy r fs)
    (hn : fs'.node? = Function.update fs.node? (name :: lockDir kind :: locksDir :: r)
      (some (.file b c))) : LocksTidy r fs' := by
  refine ⟨fun kind' b' c' => ?_, fun kind' name' => ?_⟩
  · rw [hn, Function.update_of_ne fun e => by simpa using congrArg List.length e]
    exact h.dirs kind' b' c'
  · rw [hn, Function.update_apply]
    split
    · simp
    · exact h.files kind' name'

end LocksTidy

end Store

/-- No call is made, and nothing changes but what lies in the directory of locks, which stays tidy. -/
structure World.Locks (r : Trail) (w : World σ) (ms : List Moment) (w' : World σ) : Prop where
  reaches : w.Reaches (Store.lockTrails r) ms w'
  silent : answersOf ms = []
  tidy : Store.LocksTidy r w.files → Store.LocksTidy r w'.files

/-- the path of a lock is not too long -/
def Store.LockFits (s : Store) (kind : LayerKind) (identity : Identity) : Prop :=
  ((s.root.join locksDir).join (lockDir kind)).Fits (identity.name ++ ".lock")

/-- where a lock fits its directory does -/
theorem Store.fits_lockDir {s : Store} {kind : LayerKind} {identity : Identity}
    (hb : (s.root.join locksDir).chars ≠ []) (hd : IsPlain (lockDir kind).toList)
    (hn : IsPlain (identity.name ++ ".lock").toList) (h : s.LockFits kind identity) :
    (s.root.join locksDir).Fits (lockDir kind) := by
  obtain ⟨-, hpath⟩ := h
  have hdir := chars_join (s.root.join locksDir) (lockDir kind)
  refine ⟨by cases kind <;> decide, le_trans ?_ hpath⟩
  rw [chars_join _ (identity.name ++ ".lock"), joinChars_eq (hdir ▸ joinChars_ne_nil hd) hn, hdir,
    front_joinChars hb hd, byteCount_append]
  omega

structure World.Clear (r : Trail) (w : World σ) : Prop where
  free : ∀ ref ∈ w.locked, ref.trail ∉ Store.lockTrails r
  tidy : Store.LocksTidy r w.files

/-- Nobody else gets to change anything now who did not before, and the locks are clear if they were
before. -/
structure World.Leaves (r : Trail) (w w' : World σ) : Prop where
  undisturbed : w.Undisturbed → w'.Undisturbed
  clear : w.Clear r → w'.Clear r

namespace World.Leaves
variable {r : Trail} {w w' w'' : World σ}

theorem refl (r : Trail) (w : World σ) : w.Leaves r w := ⟨id, id⟩

theorem trans (h : w.Leaves r w') (h' : w'.Leaves r w'') : w.Leaves r w'' :=
  ⟨h'.undisturbed ∘ h.undisturbed, h'.clear ∘ h.clear⟩

theorem of_within {T : Set Trail} (hk : w.Kept w') (hw : FileSystem.Within T w.files w'.files)
    (hT : ∀ t ∈ T, t ∉ Store.lockTrails r) : w.Leaves r w' :=
  ⟨hk.undisturbed, fun h => ⟨by rw [hk.locked]; exact h.free, h.tidy.within hw hT⟩⟩

end World.Leaves

/-- The lock that an attempt to take one has led to is held, and no other one more or less than
before. -/
def World.Holds (w : World σ) (res : Except ε Lock) (w' : World σ) : Prop :=
  match res with
  | .ok l => w'.locked = l.file :: w.locked
  | .error _ => w'.locked = w.locked

namespace World.Locks
variable {r : Trail} {w w' w'' : World σ} {ms ms' : List Moment}

theorem refl (r : Trail) (w : World σ) : w.Locks r [] w := ⟨.refl _ w, rfl, id⟩

theorem trans (h : w.Locks r ms w') (h' : w'.Locks r ms' w'') : w.Locks r (ms ++ ms') w'' := by
  refine ⟨h.reaches.trans h'.reaches, ?_, h'.tidy ∘ h.tidy⟩
  rw [answersOf_append, h.silent, h'.silent]
  rfl

theorem of_note {w₀ : World σ} {e : Event} {files : FileSystem}
    (hu : w.Undisturbed → w₀.Undisturbed) (he : ∀ c r, e ≠ .called c r)
    (hw : FileSystem.Within (Store.lockTrails r) w.files files)
    (ht : Store.LocksTidy r w.files → Store.LocksTidy r files) :
    w.Locks r [⟨e, w.files, files⟩] (w₀.note e files) := by
  refine ⟨.of_note hu hw, ?_, ht⟩
  cases e with
  | called c r => exact absurd rfl (he c r)
  | _ => rfl

theorem of_yield (hu : w.Undisturbed) {turn : Shared → Shared} (ht : w.meanwhile = some turn) :
    w.Locks r [⟨.waited, w.files, w.yield.files⟩] w.yield := by
  have hy : w.yield = World.note
      { w with locked := (turn w.toShared).locked, meanwhile := none } .waited w.files := by
    rw [World.yield, ht]
    show World.note _ _ (turn w.toShared).files = _
    rw [hu turn ht w.toShared]
  rw [hy]
  exact .of_note (fun _ turn' ht' => by cases ht') (by simp) (.refl _ _) id

end World.Locks

namespace World.Leaves
variable {r : Trail} {w w₀ w' : World σ} {ms : List Moment}

theorem of_refused (hl : w.Locks r ms w') (hlocked : w.Clear r → w'.locked = w.locked) :
    w.Leaves r w' :=
  ⟨hl.reaches.undisturbed, fun h => ⟨by rw [hlocked h]; exact h.free, hl.tidy h.tidy⟩⟩

theorem of_during {l : Lock} {T : Set Trail} (hl : w.Locks r ms w₀)
    (hholds : w.Clear r → w.Holds (.ok l : Except ε Lock) w₀) (hk : w₀.Kept w')
    (hw : FileSystem.Within T w₀.files w'.files) (hT : ∀ t ∈ T, t ∉ Store.lockTrails r) :
    w.Leaves r (l.release w') := by
  refine ⟨fun hu => hk.undisturbed (hl.reaches.undisturbed hu), fun h => ⟨?_, ?_⟩⟩
  · show ∀ ref ∈ w'.locked.erase l.file, _
    rw [hk.locked, show w₀.locked = l.file :: w.locked from hholds h, List.erase_cons_head]
    exact h.free
  · exact (hl.tidy h.tidy).within hw hT

end World.Leaves

namespace World.Locks
variable {r : Trail} {w w₀ w' : World σ} {ms₀ ms : List Moment} {T : Set Trail} {P : Moment → Prop}

/-- What is done under a lock, with its taking before and its release behind.  What is true of each
call of it is true of all calls, since a lock makes none. -/
theorem released {lock : Lock} (hl : w.Locks r ms₀ w₀)
    (hholds : w.Clear r → w.Holds (.ok lock : Except ε Lock) w₀) (hk : w₀.Kept w')
    (hr : w₀.Reaches T ms w') (hT : ∀ t ∈ T, t ∉ Store.lockTrails r)
    (hP : ∀ m ∈ ms, m.call? ≠ none → P m) :
    let ms' := ms₀ ++ (ms ++ [⟨.released lock.path, w'.files, w'.files⟩])
    w.Reaches (T ∪ Store.lockTrails r) ms' (lock.release w') ∧ w.Leaves r (lock.release w') ∧
      ∀ m ∈ ms', m.call? ≠ none → P m := by
  have hback : w'.Reaches T [⟨.released lock.path, w'.files, w'.files⟩] (lock.release w') :=
    .of_note (fun hu => hu) (.refl _ _)
  refine ⟨(hl.reaches.mono fun t ht => Or.inr ht).trans ((hr.trans hback).mono fun t ht => Or.inl ht),
    .of_during hl hholds hk hr.within hT, fun m hm hcall => ?_⟩
  rcases List.mem_append.mp hm with hm | hm
  · exact absurd (call?_of_silent hl.silent hm) hcall
  rcases List.mem_append.mp hm with hm | hm
  · exact hP m hm hcall
  · rcases List.mem_singleton.mp hm with rfl
    exact absurd rfl hcall

/-- the same where the lock could not be taken -/
theorem refused {e : ε} (hl : w.Locks r ms w')
    (hholds : w.Clear r → w.Holds (.error e : Except ε Lock) w') :
    w.Reaches (T ∪ Store.lockTrails r) ms w' ∧ w.Leaves r w' ∧ ∀ m ∈ ms, m.call? ≠ none → P m :=
  ⟨hl.reaches.mono fun _ ht => Or.inr ht, .of_refused hl hholds,
    fun _ hm hcall => absurd (call?_of_silent hl.silent hm) hcall⟩

end World.Locks

/-- The last part of taking a lock, once its file is open: it is taken if nobody holds it, now or
after the others had their turn. -/
def Lock.attempt (ref : FileRef) (path : Path) (who command : String) (wait : Duration) :
    Act σ LockError Lock :=
  .ofFunction fun w =>
    if ref ∉ w.locked then (take ref path who command).runIn w
    else if wait = .zero then (.error (contentionError w.files path who), w)
    else if ref ∉ w.yield.locked then (take ref path who command).runIn w.yield
    else (.error (contentionError w.yield.files path who), w.yield)

namespace Act
variable {σ ε α : Type} {w : World σ} {s : Store} {r : Trail}

theorem runIn_makeDirectories (dir : Path) :
    (Lock.makeDirectories dir : Act σ LockError Unit).runIn w =
      ((w.files.makeDirectories dir).1.mapError .createDir,
        w.note (.made dir) (w.files.makeDirectories dir).2) := rfl

/-- the directory for locks of a kind is made if need be -/
theorem ends_makeLockDirectory {dir : Path} {kind : LayerKind}
    (h : w.files.lookup dir = .ok (Store.locksDir :: r, .dir))
    (hn : IsPlain (Store.lockDir kind).toList) :
    (Lock.makeDirectories (dir.join (Store.lockDir kind)) : Act σ LockError Unit).Ends w
      fun res ms w' => w.Locks r ms w' ∧ w'.locked = w.locked ∧
        (res = .ok () → w'.files.lookup (dir.join (Store.lockDir kind)) =
          .ok (Store.lockDir kind :: Store.locksDir :: r, .dir)) ∧
        (Store.LocksTidy r w.files → dir.Fits (Store.lockDir kind) → res = .ok ()) := by
  have hw := (FileSystem.within_makeDirectories h hn).of_singleton (T := Store.lockTrails r) ⟨[_], rfl⟩
  have hmade := FileSystem.makeDirectories_join h hn
  have htidy : Store.LocksTidy r w.files →
      Store.LocksTidy r (w.files.makeDirectories (dir.join (Store.lockDir kind))).2 := by
    intro ht
    rw [hmade]
    split
    · cases hnode : w.files.node? (Store.lockDir kind :: Store.locksDir :: r) with
      | none => exact ht.of_dir (FileSystem.node?_set_eq _ (List.cons_ne_nil _ _) _)
      | some n => cases n <;> exact ht
    · exact ht
  refine ends_of_note (runIn_makeDirectories _) rfl rfl
    ⟨.of_note (fun hu => hu) (by simp) hw htidy, rfl, fun hok => ?_, fun ht hf => ?_⟩
  · refine FileSystem.lookup_makeDirectories h hn ?_
    generalize (w.files.makeDirectories (dir.join (Store.lockDir kind))).1 = made at hok
    cases made with
    | ok _ => rfl
    | error e => cases hok
  · rw [hmade, if_pos hf]
    cases hnode : w.files.node? (Store.lockDir kind :: Store.locksDir :: r) with
    | none => rfl
    | some n =>
      cases n with
      | dir => rfl
      | file b c => exact absurd hnode (ht.dirs kind b c)

theorem runIn_openFile_error {p : Path} {e : SystemError} (h : w.files.open p = .error e) :
    (Lock.openFile p : Act σ LockError FileRef).runIn w = (.error (.openFile e), w) := by
  rw [Lock.openFile, runIn_ofFunction, h]

theorem runIn_openFile_ok {p : Path} {ref : FileRef} {files : FileSystem}
    (h : w.files.open p = .ok (ref, files)) :
    (Lock.openFile p : Act σ LockError FileRef).runIn w = (.ok ref, w.note (.opened p) files) := by
  rw [Lock.openFile, runIn_ofFunction, h]

/-- the file of a lock is made if need be -/
theorem ends_openFile {dir : Path} {kind : LayerKind} {name : String}
    (h : w.files.lookup dir = .ok (Store.lockDir kind :: Store.locksDir :: r, .dir))
    (hn : IsPlain name.toList) :
    (Lock.openFile (dir.join name) : Act σ LockError FileRef).Ends w fun res ms w' =>
      w.Locks r ms w' ∧ w'.locked = w.locked ∧
        (∀ ref, res = .ok ref → ref.trail = name :: Store.lockDir kind :: Store.locksDir :: r ∧
          ∃ c, w'.files.node? ref.trail = some (.file ref.birth c)) ∧
        (Store.LocksTidy r w.files → dir.Fits name → ∃ ref, res = .ok ref) := by
  rcases FileSystem.open_join_cases h hn with ⟨e, he⟩ | ⟨hf, hd, b, c, files, ho, hcur, hnode⟩
  · refine ends_of_runIn (runIn_openFile_error he) ⟨.refl r w, rfl, fun ref he => (by cases he), fun ht hf => ?_⟩
    rw [FileSystem.open_join h hn, if_pos hf] at he
    cases hnode : w.files.node? (name :: Store.lockDir kind :: Store.locksDir :: r) with
    | none =>
      rw [hnode] at he
      cases he
    | some n =>
      rw [hnode] at he
      cases n with
      | dir => exact absurd hnode (ht.files kind name)
      | file b c => cases he
  · have hw := (FileSystem.Within.of_update hd hnode hcur).of_singleton
      (T := Store.lockTrails r) ⟨[_, _], rfl⟩
    refine ends_of_note (runIn_openFile_ok ho) rfl rfl
      ⟨.of_note (fun hu => hu) (by simp) hw fun ht => ht.of_file hnode, rfl, fun ref he => ?_,
        fun _ _ => ⟨_, rfl⟩⟩
    cases he
    refine ⟨rfl, c, ?_⟩
    show files.node? _ = _
    rw [hnode, Function.update_self]

theorem ends_take {ref : FileRef} {kind : LayerKind} {name : String} (path : Path)
    (who command : String) (ht : ref.trail = name :: Store.lockDir kind :: Store.locksDir :: r)
    (hfile : ∃ c, w.files.node? ref.trail = some (.file ref.birth c)) :
    (Lock.take ref path who command : Act σ LockError Lock).Ends w fun res ms w' =>
      w.Locks r ms w' ∧ w.Holds res w' ∧ res = .ok ⟨ref, path⟩ := by
  obtain ⟨c, hc⟩ := hfile
  have hmem : ref.trail ∈ Store.lockTrails r := ht ▸ ⟨[_, _], rfl⟩
  refine ends_of_note rfl rfl rfl ⟨.of_note (fun hu => hu) (by simp)
    ((FileSystem.within_setContent _ _ _).of_singleton hmem) fun htidy => ?_, rfl, rfl⟩
  have hset := fun content => FileSystem.node?_setContent_self w.files hc content
  rw [ht] at hset
  exact htidy.of_file (by rw [← ht]; exact ht ▸ hset _)

/-- How an attempt to take a lock ends: it is taken or refused, at once or after the others had their
turn. -/
theorem ends_attempt {ref : FileRef} {path : Path} {who command : String} {wait : Duration}
    {w : World σ} {Q : Except LockError Lock → List Moment → World σ → Prop}
    (hnow : ref ∉ w.locked → (Lock.take ref path who command).Ends w Q)
    (hrefused : ref ∈ w.locked → Q (.error (Lock.contentionError w.files path who)) [] w)
    (hturn : ∀ turn, w.meanwhile = some turn → ref ∈ w.locked → ref ∉ w.yield.locked →
      (Lock.take ref path who command).Ends w.yield fun res ms w' =>
        Q res (⟨.waited, w.files, w.yield.files⟩ :: ms) w')
    (hheld : ∀ turn, w.meanwhile = some turn → ref ∈ w.locked → ref ∈ w.yield.locked →
      Q (.error (Lock.contentionError w.yield.files path who))
        [⟨.waited, w.files, w.yield.files⟩] w.yield) :
    (Lock.attempt ref path who command wait).Ends w Q := by
  rw [Lock.attempt]
  by_cases hfree : ref ∉ w.locked
  · refine (hnow hfree).of_runIn_eq ?_
    rw [runIn_ofFunction, if_pos hfree]
  have hmem := not_not.mp hfree
  by_cases hwait : wait = .zero
  · refine ends_of_runIn ?_ (hrefused hmem)
    rw [runIn_ofFunction, if_neg hfree, if_pos hwait]
  cases hturn' : w.meanwhile with
  | none =>
    refine ends_of_runIn ?_ (hrefused hmem)
    rw [runIn_ofFunction, if_neg hfree, if_neg hwait]
    rw [w.yield_of_none hturn', if_neg hfree]
  | some turn =>
    obtain ⟨w₀, hw₀⟩ : ∃ w₀ : World σ,
        w₀ = { w with locked := (turn w.toShared).locked, meanwhile := none } := ⟨_, rfl⟩
    have hy : w.yield = w₀.note .waited (turn w.toShared).files := by
      rw [World.yield, hturn', hw₀]
    have hj : w₀.journal = w.journal := by rw [hw₀]
    have hf : w₀.files = w.files := by rw [hw₀]
    have hturn := hturn turn hturn' hmem
    have hheld := hheld turn hturn' hmem
    rw [hy] at hturn hheld
    by_cases hfree' : ref ∉ w₀.locked
    · refine Ends.after_note (hturn hfree') ?_ hj hf
      rw [runIn_ofFunction, if_neg hfree, if_neg hwait]
      rw [hy]
      exact if_pos hfree'
    · refine ends_of_note ?_ hj hf (hheld (not_not.mp hfree'))
      rw [runIn_ofFunction, if_neg hfree, if_neg hwait]
      rw [hy]
      exact if_neg hfree'

/-- An attempt to take a lock has to do with locks only where the others leave the files alone, and
takes the lock if it is free. -/
theorem ends_attempt_locks {ref : FileRef} {kind : LayerKind} {name : String} (hu : w.Undisturbed)
    (ht : ref.trail = name :: Store.lockDir kind :: Store.locksDir :: r)
    (hfile : ∃ c, w.files.node? ref.trail = some (.file ref.birth c)) (path : Path)
    (who command : String) (wait : Duration) :
    (Lock.attempt ref path who command wait : Act σ LockError Lock).Ends w fun res ms w' =>
      w.Locks r ms w' ∧ (ref ∉ w.locked → w.Holds res w' ∧ ∃ l, res = .ok l) := by
  refine ends_attempt (fun _ => ?_) (fun hheld => ⟨.refl r w, fun hf => absurd hheld hf⟩)
    (fun turn hturn hheld _ => ?_) fun turn hturn hheld _ =>
      ⟨.of_yield hu hturn, fun hf => absurd hheld hf⟩
  · exact (ends_take path who command ht hfile).mono fun res ms w' hw =>
      ⟨hw.1, fun _ => ⟨hw.2.1, _, hw.2.2⟩⟩
  · have hfiles : w.yield.files = w.files :=
      (World.files_yield hturn).trans (hu turn hturn w.toShared)
    rw [← hfiles] at hfile
    exact (ends_take path who command ht hfile).mono fun res ms w' hw =>
      ⟨(World.Locks.of_yield hu hturn).trans hw.1, fun hf => absurd hheld hf⟩

/-- Taking a lock changes nothing outside the directory of locks.  Where locks are clear it succeeds,
if the path of the lock is not too long. -/
theorem ends_acquire (h : s.StandsAt r w.files) (hu : w.Undisturbed) (kind : LayerKind)
    {identity : Identity} (hv : isValidName identity.name = true) (who command : String)
    (wait : Duration) :
    (Lock.acquire (s.lockPath kind identity) who command wait : Act σ LockError Lock).Ends w
      fun res ms w' => w.Locks r ms w' ∧ (w.Clear r → w.Holds res w' ∧
        (s.LockFits kind identity → ∃ l, res = .ok l)) := by
  have hkind := Store.isPlain_lockDir kind
  have hname := isPlain_lockFile hv
  have hne := (FileSystem.lookup_eq_dir.mp h.locks).1.ne_nil
  rw [Lock.acquire, s.parent?_lockPath kind hv]
  refine (ends_makeLockDirectory h.locks hkind).bind ?_ fun e ms v hv => ⟨hv.1, fun hclear =>
    ⟨hv.2.1, fun hf => ?_⟩⟩
  · rintro ⟨⟩ ms v ⟨hl, hlocked, hdir, -⟩
    refine (ends_openFile (hdir rfl) hname).bind ?_ fun e ms' v' hv' => ⟨hl.trans hv'.1, fun hclear =>
      ⟨hv'.2.1.trans hlocked, fun hf => ?_⟩⟩
    · rintro ref ms' v' ⟨hl', hlocked', hmem, -⟩
      obtain ⟨ht, hfile⟩ := hmem ref rfl
      have hsofar := hl.trans hl'
      have hlocked₁ : v'.locked = w.locked := hlocked'.trans hlocked
      refine (ends_attempt_locks (hsofar.reaches.undisturbed hu) ht hfile (s.lockPath kind identity) who
        command wait).mono ?_
      rintro res ms'' w' ⟨hlocks, htaken⟩
      rw [← List.append_assoc]
      refine ⟨hsofar.trans hlocks, fun hclear => ?_⟩
      have hfree : ref ∉ v'.locked := by
        intro hmem
        rw [hlocked₁] at hmem
        exact hclear.free ref hmem (ht ▸ ⟨[_, _], rfl⟩)
      obtain ⟨hholds, l, rfl⟩ := htaken hfree
      refine ⟨?_, fun _ => ⟨l, rfl⟩⟩
      show _ = l.file :: w.locked
      rw [← hlocked₁]
      exact hholds
    · obtain ⟨ref, href⟩ := hv'.2.2.2 (hl.tidy hclear.tidy) hf
      cases href
  · cases hv.2.2.2 hclear.tidy (Store.fits_lockDir hne hkind hname hf)

theorem runIn_during_error {acquire : Act σ ε Lock} {w' : World σ} {e : ε}
    (h : acquire.runIn w = (.error e, w')) (act : Act σ ε α) :
    (Lock.during acquire act).runIn w = (.error e, w') := by
  rw [Lock.during, runIn_ofFunction, h]

theorem runIn_during_ok {acquire : Act σ ε Lock} {w' : World σ} {l : Lock}
    (h : acquire.runIn w = (.ok l, w')) (act : Act σ ε α) :
    (Lock.during acquire act).runIn w = ((act.runIn w').1, l.release (act.runIn w').2) := by
  rw [Lock.during, runIn_ofFunction, h]

/-- how an operation under a lock ends, from how taking the lock and the operation end -/
theorem Ends.during {acquire : Act σ ε Lock} {act : Act σ ε α}
    {P : Except ε Lock → List Moment → World σ → Prop}
    {Q : Except ε α → List Moment → World σ → Prop} (h : acquire.Ends w P)
    (hok : ∀ l ms w', P (.ok l) ms w' → act.Ends w' fun r ms' w'' =>
      Q r (ms ++ (ms' ++ [⟨.released l.path, w''.files, w''.files⟩])) (l.release w''))
    (herr : ∀ e ms w', P (.error e) ms w' → Q (.error e) ms w') :
    (Lock.during acquire act).Ends w Q := by
  obtain ⟨ms, hj, hl, hp⟩ := h
  rcases ha : acquire.runIn w with ⟨r', w'⟩
  rw [ha] at hj hl hp
  cases r' with
  | error e =>
    have hrun := runIn_during_error ha act
    exact ⟨ms, by rw [hrun]; exact hj, by rw [hrun]; exact hl, by rw [hrun]; exact herr e ms w' hp⟩
  | ok l =>
    have hrun := runIn_during_ok ha act
    obtain ⟨ms', hj', hl', hq⟩ := hok l ms w' hp
    refine ⟨ms ++ (ms' ++ [⟨.released l.path, (act.runIn w').2.files, (act.runIn w').2.files⟩]),
      ?_, ?_, ?_⟩
    · rw [hrun]
      show (act.runIn w').2.journal ++ [_] = _
      rw [hj', hj, List.append_assoc, List.append_assoc]
    · rw [hrun]
      exact hl.append (hl'.append ⟨rfl, rfl⟩)
    · rw [hrun]
      exact hq

end Act

end DiskLayers
