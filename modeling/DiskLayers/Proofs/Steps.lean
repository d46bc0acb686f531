import DiskLayers.Proofs.Locking
import DiskLayers.Proofs.Remake

/-!
# One step of a build

* `Operation.callsOn`   the calls that an operation makes a disk with
* `Realized`            what comes of finding the disk of a layer or making it

`ends_realize` says that nothing but `Realized` can come of it.
-/

namespace DiskLayers
open DiskLayers.Path

namespace Operation

/-- The calls that make a disk: the disk below, if there is one, is taken over, and then comes what
the operation says. -/
def callsOn (op : Operation) (below : Option Path) (disk : Path) : List Call :=
  (below.map (Call.snapshot · disk)).toList ++
    match op with
    | .base reference => [.materialize (Text.trim reference) diskFormat disk]
    | op => op.guestCommands.map (.execute disk)

theorem target?_of_mem_callsOn {op : Operation} {below : Option Path} {disk : Path} {c : Call}
    (h : c ∈ op.callsOn below disk) : c.target? = some disk := by
  rcases List.mem_append.mp h with h | h
  · cases below with
    | none => cases h
    | some p =>
      rcases List.mem_singleton.mp h with rfl
      rfl
  · cases op with
    | base reference =>
      rcases List.mem_singleton.mp h with rfl
      rfl
    | _ =>
      obtain ⟨g, -, rfl⟩ := List.mem_map.mp h
      rfl

theorem below_of_mem_callsOn {op : Operation} {below : Option Path} {p q disk : Path}
    (h : .snapshot p q ∈ op.callsOn below disk) : below = some p := by
  rcases List.mem_append.mp h with h | h
  · cases below with
    | none => cases h
    | some k =>
      cases List.mem_singleton.mp h
      rfl
  · cases op with
    | base reference => cases List.mem_singleton.mp h
    | _ =>
      obtain ⟨g, -, hg⟩ := List.mem_map.mp h
      cases hg

theorem callsOn_ne_nil {op : Operation} {below : Option Path} (disk : Path)
    (h : below = none → op.isBase = true) : op.callsOn below disk ≠ [] := by
  cases below with
  | some p => exact List.cons_ne_nil _ _
  | none =>
    cases op with
    | base reference => exact List.cons_ne_nil _ _
    | _ => cases h rfl

end Operation

theorem Layer.trails_not_mem_lockTrails (l : Layer) {dir : String} (hd : dir ≠ Store.locksDir)
    (r : Trail) : ∀ t ∈ l.trails (dir :: r), t ∉ Store.lockTrails r := by
  rintro t (rfl | rfl)
  · exact Store.not_mem_lockTrails hd _
  · exact Store.not_mem_lockTrails hd _

/-! ## making a disk -/

section
variable {σ : Type} (backend : Backend σ) (l : Layer)

theorem perform_append (fail : Call → ToolError → ε) (cs cs' : List Call) :
    perform backend fail (cs ++ cs')
      = perform backend fail cs >>= fun _ => perform backend fail cs' := by
  induction cs with
  | nil => rfl
  | cons c cs ih =>
    show ((Act.call backend c).mapError (fail c) >>= fun _ => perform backend fail (cs ++ cs')) = _
    rw [ih, ← bind_assoc]
    rfl

theorem perform_singleton (fail : Call → ToolError → ε) (c : Call) :
    perform backend fail [c] = (Act.call backend c).mapError (fail c) := by
  apply Act.ext
  intro w
  show ((Act.call backend c).mapError (fail c) >>= fun _ => pure ()).runIn w = _
  rw [Act.runIn_bind]
  rcases ((Act.call backend c).mapError (fail c)).runIn w with ⟨r, w'⟩
  cases r <;> rfl

theorem execute_eq (cs : List GuestCommand) :
    (l.execute backend cs).mapError (.ofApply l)
      = perform backend l.callError (cs.map (.execute l.location)) := by
  induction cs with
  | nil => rfl
  | cons c cs ih =>
    rw [Layer.execute, Act.mapError_bind, Act.mapError_mapError, ih]
    rfl

theorem apply_eq (op : Operation) :
    (l.apply backend op).mapError (.ofApply l)
      = perform backend l.callError (op.callsOn none l.location) := by
  cases op with
  | base reference =>
    rw [Layer.apply, Act.mapError_mapError]
    exact (perform_singleton backend l.callError _).symm
  | _ => exact execute_eq backend l _

theorem snapshotOf_runIn {parent : Layer} {v : World σ} {e : SystemError}
    (hp : v.files.isFile parent.location = true) (hl : v.files.lookup l.location = .error e) :
    ((l.snapshotOf backend parent).mapError (.ofStore l)).runIn v
      = (perform backend l.callError [.snapshot parent.location l.location]).runIn v := by
  have hpresent : v.files.isPresent l.location = false := by rw [FileSystem.isPresent, hl]
  have hsize : v.files.size? l.location = none := by rw [FileSystem.size?, hl]
  have hs : (l.snapshotOf backend parent).runIn v
      = ((Act.call backend (.snapshot parent.location l.location)).mapError .backend).runIn v := by
    rw [Layer.snapshotOf]
    simp only [Act.runIn_bind, Act.runIn_inspect, hp, hpresent, hsize, Bool.not_true,
      Bool.false_eq_true, ↓reduceIte, Option.any_none]
  rw [perform_singleton, Act.runIn_mapError, hs, ← Act.runIn_mapError, Act.mapError_mapError]
  rfl

theorem snapshotOf_runIn_of_absent {parent : Layer} {v : World σ}
    (hp : v.files.isFile parent.location = false) :
    ((l.snapshotOf backend parent).mapError (BuildError.ofStore l)).runIn v
      = (.error (.ofStore l (.missingParent parent.location)), v) := by
  have hs : (l.snapshotOf backend parent).runIn v = (.error (.missingParent parent.location), v) := by
    rw [Layer.snapshotOf]
    simp only [Act.runIn_bind, Act.runIn_inspect, hp, Bool.not_false, ↓reduceIte]
    rfl
  rw [Act.runIn_mapError, hs]
  rfl

theorem makeDisk_eq (parent : Option Layer) (op : Operation) :
    makeDisk backend l parent op = l.remake (do
      if let some parent := parent then (l.snapshotOf backend parent).mapError (.ofStore l)
      (l.apply backend op).mapError (.ofApply l)) := by
  rw [makeDisk, Layer.remake]
  cases parent with
  | none => rfl
  | some p =>
    simp only [bind_assoc]

end

/-- What comes of finding the disk of a layer or making it: the result, the moments, the files. -/
inductive Realized (backend : Backend σ) (r : Trail) (force : Bool) (l : Layer) (dir : Path) (d : Trail)
    (calls : List Call) (fs : FileSystem) :
    Except BuildError StepStatus → List Moment → FileSystem → Prop
  /-- the disk is there -/
  | found : isReusable force l fs = true → Realized backend r force l dir d calls fs (.ok .cached) [] fs
  /-- somebody else holds the lock, or it cannot be taken -/
  | locked {e ms fs'} : isReusable force l fs = false → answersOf ms = [] →
    FileSystem.Within (Store.lockTrails r) fs fs' →
    (∀ m ∈ ms, FileSystem.Within (Store.lockTrails r) fs m.after) →
    Realized backend r force l dir d calls fs (.error (.ofStore l (.lock e))) ms fs'
  /-- the disk is made anew under the lock -/
  | remade {fs₀ fs' res ms₀ ms m} : isReusable force l fs = false → answersOf ms₀ = [] →
    FileSystem.Within (Store.lockTrails r) fs fs₀ →
    (∀ m ∈ ms₀, FileSystem.Within (Store.lockTrails r) fs m.after) →
    Remade backend l dir d calls fs₀ res ms fs' → m.answered? = none → m.after = fs' →
    Realized backend r force l dir d calls fs (res.map fun _ => .built) (ms₀ ++ (ms ++ [m])) fs'

namespace Act
variable {σ : Type} {backend : Backend σ} {w : World σ} {s : Store} {r : Trail} {l : Layer}
  {dir : Path} {d : Trail}

/-- how making a disk ends, if the disk below is this one, or is there whatever becomes of it -/
theorem ends_makeDisk (op : Operation) (h : l.LiesIn dir d w.files) (hb : backend.Confined) (hl : backend.LeavesFiles)
    {parent : Option Layer} (hbase : parent = none → op.isBase = true)
    (hp : ∀ p, parent = some p → p.location = l.location ∨
      ∀ fs, FileSystem.Within (l.trails d) w.files fs → fs.isFile p.location = true) :
    (makeDisk backend l parent op).Ends w fun res ms w' =>
      w.Kept w' ∧ w.Reaches (l.trails d) ms w' ∧
        (∀ m ∈ ms, m.call? ≠ none → m.before.isPresent l.marker = true) ∧
        Remade backend l dir d (op.callsOn (parent.map Layer.location) l.location) w.files res ms
          w'.files := by
  rw [makeDisk_eq]
  refine ends_remake _ _ h hb hl (Operation.callsOn_ne_nil _ fun hnone => hbase ?_)
    (fun c hc => Operation.target?_of_mem_callsOn hc) fun v hw hnone => ?_
  · exact Option.map_eq_none_iff.mp hnone
  · obtain ⟨e, he⟩ := (h.within hw).lookup_eq_error hnone
    rw [apply_eq]
    cases parent with
    | none => exact Or.inl rfl
    | some p =>
      dsimp only
      have hcalls : op.callsOn ((some p).map Layer.location) l.location
          = [.snapshot p.location l.location] ++ op.callsOn none l.location := rfl
      rcases hp p rfl with hself | hp
      · have hgone : v.files.isFile p.location = false := by rw [hself, FileSystem.isFile, he]
        refine Or.inr ⟨?_, ?_⟩
        · rw [hcalls, hself]
          exact List.mem_append_left _ (List.mem_singleton_self _)
        · rw [Act.runIn_bind, snapshotOf_runIn_of_absent backend l hgone, hself]
      · left
        rw [hcalls, perform_append, Act.runIn_bind, Act.runIn_bind,
          snapshotOf_runIn backend l (hp v.files hw) he]

/-- how taking the lock of a layer ends -/
theorem ends_acquireOf (config : BuildConfig) (hs : s.StandsAt r w.files) (hu : w.Undisturbed)
    (hv : isValidName l.identity.name = true) :
    ((s.acquire l config.command config.lockWait).mapError (.ofStore l) :
      Act σ BuildError Lock).Ends w fun res ms w' =>
      w.Locks r ms w' ∧ (w.Clear r → w.Holds res w' ∧
        (s.LockFits l.kind l.identity → ∃ lock, res = .ok lock)) ∧
        ∀ e, res = .error e → ∃ e', e = .ofStore l (.lock e') := by
  refine Ends.mapError (Ends.mapError ((ends_acquire hs hu l.kind hv _ _ _).mono ?_))
  rintro res ms w' ⟨hlocks, hclear⟩
  cases res with
  | ok lock => exact ⟨hlocks, fun hc => ⟨(hclear hc).1, fun _ => ⟨lock, rfl⟩⟩, fun e he => (by cases he)⟩
  | error e' =>
    refine ⟨hlocks, fun hc => ⟨(hclear hc).1, fun hf => ?_⟩, fun e he => ?_⟩
    · obtain ⟨lock, hlock⟩ := (hclear hc).2 hf
      cases hlock
    · cases he
      exact ⟨e', rfl⟩

/-- how finding the disk of a layer or making it ends -/
theorem ends_realize (config : BuildConfig) {op : Operation} (hs : s.StandsAt r w.files) (hu : w.Undisturbed)
    (h : l.LiesIn dir d w.files) (hb : backend.Confined) (hl : backend.LeavesFiles)
    (hdisk : l.diskTrail d ∉ Store.lockTrails r) (hmark : l.markerTrail d ∉ Store.lockTrails r)
    {parent : Option Layer} (hbase : parent = none → op.isBase = true)
    (hp : ∀ p, parent = some p → p.location = l.location ∨ ∀ fs,
      FileSystem.Within (l.trails d ∪ Store.lockTrails r) w.files fs → fs.isFile p.location = true) :
    (realize backend s config l parent op).Ends w fun res ms w' =>
      w.Reaches (l.trails d ∪ Store.lockTrails r) ms w' ∧ w.Leaves r w' ∧
        (∀ m ∈ ms, m.call? ≠ none → m.before.isPresent l.marker = true) ∧
        Realized backend r config.force l dir d
          (op.callsOn (parent.map Layer.location) l.location) w.files res ms w'.files := by
  rw [realize]
  refine ends_inspect_bind ?_
  by_cases hr : isReusable config.force l w.files = true
  · rw [if_pos hr]
    exact ends_pure ⟨.refl _ w, .refl r w, fun m hm => absurd hm List.not_mem_nil, .found hr⟩
  · rw [if_neg hr]
    have hr' : isReusable config.force l w.files = false := Bool.not_eq_true _ ▸ hr
    have hacq := ends_acquireOf config hs hu h.valid
    have hsub : l.trails d ⊆ l.trails d ∪ Store.lockTrails r := fun t ht => Or.inl ht
    have hsub' : Store.lockTrails r ⊆ l.trails d ∪ Store.lockTrails r := fun t ht => Or.inr ht
    have hT : ∀ t ∈ l.trails d, t ∉ Store.lockTrails r := by
      rintro t (rfl | rfl)
      · exact hdisk
      · exact hmark
    refine Ends.during hacq ?_ ?_
    · rintro lock ms₀ w₀ ⟨hlocks, hclear, -⟩
      have hw₀ := hlocks.reaches.within
      have h₀ := h.within hw₀
      -- nothing has happened to the disk while the lock was taken
      have hr₀ : isReusable config.force l w₀.files = false := by
        rw [← hr', isReusable, isReusable, FileSystem.isComplete_eq_isWhole,
          FileSystem.isComplete_eq_isWhole,
          h.isWhole_within hw₀ hdisk hmark]
      refine ends_inspect_bind ?_
      rw [if_neg (by rw [hr₀]; simp)]
      have hmake := ends_makeDisk op h₀ hb hl hbase fun p hpp =>
        (hp p hpp).imp_right fun hp fs hw => hp fs ((hw₀.mono hsub').trans (hw.mono hsub))
      refine hmake.bind ?_ ?_
      · rintro ⟨⟩ ms w' ⟨hk, hreach, hshown, hres⟩
        refine ends_pure ?_
        rw [List.append_nil]
        obtain ⟨hreach', hleaves, hshown'⟩ :=
          hlocks.released (fun hc => (hclear hc).1) hk hreach hT hshown
        exact ⟨hreach', hleaves, hshown',
          .remade hr' hlocks.silent hw₀ hlocks.reaches.after hres rfl rfl⟩
      · rintro e ms w' ⟨hk, hreach, hshown, hres⟩
        obtain ⟨hreach', hleaves, hshown'⟩ :=
          hlocks.released (fun hc => (hclear hc).1) hk hreach hT hshown
        exact ⟨hreach', hleaves, hshown',
          .remade hr' hlocks.silent hw₀ hlocks.reaches.after hres rfl rfl⟩
    · rintro e ms w' ⟨hlocks, hclear, he⟩
      obtain ⟨e', rfl⟩ := he e rfl
      obtain ⟨hreach, hleaves, hshown⟩ := hlocks.refused fun hc => (hclear hc).1
      exact ⟨hreach, hleaves, hshown,
        .locked hr' hlocks.silent hlocks.reaches.within hlocks.reaches.after⟩

end Act

/-! ## making a tag -/

/-- An error for which no call is to blame: it comes from the files, from a lock, or from a machine
that uses a tag. -/
def StoreError.isOutside : StoreError → Bool
  | .createDir _ _ | .lock _ | .io _ _ _ | .tagInUse _ _ => true
  | .missingParent _ | .alreadyPresent _ | .backend _ | .invalidName _ | .tagNotFound _ => false

theorem mapM_eq_error {f : α → Except ε β} {as : List α} {e : ε} (h : as.mapM f = .error e) :
    ∃ a ∈ as, f a = .error e := by
  induction as with
  | nil => cases h
  | cons a as ih =>
    rw [List.mapM_cons] at h
    cases ha : f a with
    | error e' =>
      rw [ha] at h
      cases h
      exact ⟨a, List.mem_cons_self, ha⟩
    | ok b =>
      rw [ha] at h
      cases hr : as.mapM f with
      | ok bs => rw [hr] at h; cases h
      | error e' =>
        rw [hr] at h
        cases h
        obtain ⟨a', ha', hf⟩ := ih hr
        exact ⟨a', List.mem_cons_of_mem _ ha', hf⟩

namespace Store

theorem machineOf?_eq_error {s : Store} {fs : FileSystem} {tag file : String} {e : StoreError}
    (h : s.machineOf? fs tag file = .error e) : ∃ p cause, e = .io "read" p cause := by
  rw [machineOf?] at h
  split at h
  · cases h
  · split at h
    · dsimp only at h
      split at h
      · cases h
        exact ⟨_, _, rfl⟩
      · cases h
    · cases h

/-- a tag is in use, or what machines run could not be read -/
theorem ensureUnused_eq_error {s : Store} {fs : FileSystem} {tag : String} {e : StoreError}
    (h : s.ensureUnused fs tag = .error e) :
    (∃ machines, e = .tagInUse tag machines) ∨ ∃ p cause, e = .io "read" p cause := by
  unfold ensureUnused at h
  cases hi : s.instancesOf fs tag with
  | ok machines =>
    rw [hi] at h
    cases machines with
    | nil => cases h
    | cons m ms =>
      cases h
      exact Or.inl ⟨_, rfl⟩
  | error e' =>
    rw [hi] at h
    cases h
    unfold instancesOf at hi
    dsimp only at hi
    split at hi
    · split at hi
      · cases hi
      · cases hi
        exact Or.inr ⟨_, _, rfl⟩
    · next files _ =>
      cases hm : files.mapM (s.machineOf? fs tag) with
      | ok ms => rw [hm] at hi; cases hi
      | error e'' =>
        rw [hm] at hi
        cases hi
        obtain ⟨file, -, hf⟩ := mapM_eq_error hm
        exact Or.inr (machineOf?_eq_error hf)

theorem isOutside_of_ensureUnused {s : Store} {fs : FileSystem} {tag : String} {e : StoreError}
    (h : s.ensureUnused fs tag = .error e) : e.isOutside = true := by
  rcases ensureUnused_eq_error h with ⟨machines, rfl⟩ | ⟨p, cause, rfl⟩ <;> rfl

end Store

/-- What comes of making the disk of a tag: the result, the moments, the files. -/
inductive Tagged (backend : Backend σ) (s : Store) (r : Trail) (l : Layer) (dir : Path) (d : Trail)
    (calls : List Call) (fs : FileSystem) : Except BuildError Unit → List Moment → FileSystem → Prop
  /-- the lock cannot be taken, or a machine runs on the old disk -/
  | refused {e ms fs'} : e.isOutside = true → answersOf ms = [] →
    FileSystem.Within (Store.lockTrails r) fs fs' →
    Tagged backend s r l dir d calls fs (.error (.ofStore l e)) ms fs'
  /-- no machine runs on the old disk, and it is made anew under the lock -/
  | remade {fs₀ fs' res ms₀ ms m} : answersOf ms₀ = [] →
    FileSystem.Within (Store.lockTrails r) fs fs₀ → s.ensureUnused fs₀ l.identity.name = .ok () →
    Remade backend l dir d calls fs₀ res ms fs' → m.answered? = none →
    Tagged backend s r l dir d calls fs res (ms₀ ++ (ms ++ [m])) fs'

/-- making a tag is making its disk anew, as a difference from that of another layer, unless a
machine runs on it -/
theorem makeTag_eq (backend : Backend σ) (s : Store) (config : BuildConfig) (l terminal : Layer) :
    makeTag backend s config l terminal =
      Lock.during ((s.acquire l config.command config.lockWait).mapError (.ofStore l))
        ((s.refuseIfUsed l.identity.name).mapError (.ofStore l) >>= fun _ =>
          l.remake ((l.snapshotOf backend terminal).mapError (.ofStore l))) := by
  rw [makeTag, Layer.remake]
  simp only [Act.mapError_bind]

namespace Act
variable {σ : Type} {backend : Backend σ} {w : World σ} {s : Store} {r : Trail} {l terminal : Layer}
  {dir : Path} {d : Trail}

theorem ends_refuseIfUsed (s : Store) (tag : String) (w : World σ) :
    (s.refuseIfUsed tag : Act σ StoreError Unit).Ends w fun res ms w' =>
      ms = [] ∧ w' = w ∧ res = s.ensureUnused w.files tag :=
  ends_of_runIn rfl ⟨rfl, rfl, rfl⟩

/-- how making the disk of a tag anew ends, if the disk that it is to name is there whatever becomes of
the tag -/
theorem ends_remakeTag (h : l.LiesIn dir d w.files) (hb : backend.Confined) (hl : backend.LeavesFiles)
    (hp : ∀ fs, FileSystem.Within (l.trails d) w.files fs → fs.isFile terminal.location = true) :
    (l.remake ((l.snapshotOf backend terminal).mapError (.ofStore l))).Ends w fun res ms w' =>
      w.Kept w' ∧ w.Reaches (l.trails d) ms w' ∧
        (∀ m ∈ ms, m.call? ≠ none → m.before.isPresent l.marker = true) ∧
        Remade backend l dir d [.snapshot terminal.location l.location] w.files res ms w'.files :=
  ends_remake _ _ h hb hl (List.cons_ne_nil _ _)
    (fun c hc => by rw [List.mem_singleton.mp hc]; rfl) fun v hw hnone => by
      obtain ⟨e, he⟩ := (h.within hw).lookup_eq_error hnone
      exact Or.inl (snapshotOf_runIn backend l (hp _ hw) he)

/-- how making a tag ends, if the disk that it is to name is there whatever becomes of the tag -/
theorem ends_makeTag (config : BuildConfig) (hs : s.StandsAt r w.files) (hu : w.Undisturbed)
    (h : l.LiesIn dir d w.files) (hb : backend.Confined) (hl : backend.LeavesFiles)
    (hT : ∀ t ∈ l.trails d, t ∉ Store.lockTrails r)
    (hp : ∀ fs, FileSystem.Within (l.trails d ∪ Store.lockTrails r) w.files fs →
      fs.isFile terminal.location = true) :
    (makeTag backend s config l terminal).Ends w fun res ms w' =>
      w.Reaches (l.trails d ∪ Store.lockTrails r) ms w' ∧ w.Leaves r w' ∧
        (∀ m ∈ ms, m.call? ≠ none → m.before.isPresent l.marker = true) ∧
        Tagged backend s r l dir d [.snapshot terminal.location l.location] w.files res ms
          w'.files := by
  rw [makeTag_eq]
  have hsub : l.trails d ⊆ l.trails d ∪ Store.lockTrails r := fun t ht => Or.inl ht
  have hsub' : Store.lockTrails r ⊆ l.trails d ∪ Store.lockTrails r := fun t ht => Or.inr ht
  have hacq := ends_acquireOf config hs hu h.valid
  refine Ends.during hacq ?_ ?_
  · rintro lock ms₀ w₀ ⟨hlocks, hclear, -⟩
    have hw₀ := hlocks.reaches.within
    have hholds : w.Clear r → w.Holds (.ok lock : Except BuildError Lock) w₀ := fun hc => (hclear hc).1
    refine (ends_refuseIfUsed s l.identity.name w₀).bind_mapError ?_ ?_
    · rintro ⟨⟩ ms v ⟨rfl, rfl, hunused⟩
      have hmake := ends_remakeTag (h.within hw₀) hb hl fun fs hw =>
        hp fs ((hw₀.mono hsub').trans (hw.mono hsub))
      refine hmake.mono ?_
      rintro res ms w' ⟨hk, hreach, hshown, hres⟩
      rw [List.nil_append]
      obtain ⟨hreach', hleaves, hshown'⟩ := hlocks.released hholds hk hreach hT hshown
      exact ⟨hreach', hleaves, hshown', .remade hlocks.silent hw₀ hunused.symm hres rfl⟩
    · rintro e ms v ⟨rfl, rfl, he⟩
      obtain ⟨hreach, hleaves, hshown⟩ := hlocks.released hholds (.refl v) (.refl (l.trails d) v) hT
        fun m hm => absurd hm List.not_mem_nil
      refine ⟨hreach, hleaves, hshown, .refused (Store.isOutside_of_ensureUnused he.symm) ?_ hw₀⟩
      rw [answersOf_append, hlocks.silent]
      rfl
  · rintro e ms w' ⟨hlocks, hclear, he⟩
    obtain ⟨e', rfl⟩ := he e rfl
    obtain ⟨hreach, hleaves, hshown⟩ := hlocks.refused fun hc => (hclear hc).1
    exact ⟨hreach, hleaves, hshown, .refused rfl hlocks.silent hlocks.reaches.within⟩

end Act

end DiskLayers
