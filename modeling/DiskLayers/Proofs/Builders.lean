import DiskLayers.Proofs.Waiting

/-!
# Builders of the same layer

* `World.Coincides`     two runs with the same result, calls, tools, and files outside the locks
* `Act.Waits`           an operation that does after waiting what it would have done without
* `StartsOver`          calls for a disk that begin where neither it nor a part of it is there
* `Folding.Waits`       the same of a step of a build

A step that has to wait for its lock does what it would have done without waiting on the files that
the others left, so whoever builds a layer first builds it for all (`first_builder_wins`).
-/

namespace DiskLayers
open DiskLayers.Path

/-! ## files with other bytes -/

namespace FileSystem.Rewritten
variable {t : Trail} {fs fs' : FileSystem}

theorem symm (h : Rewritten t fs fs') : Rewritten t fs' fs := by
  refine ⟨⟨fun u hu => (h.within.same u hu).symm, fun u hu => ?_, h.within.current.symm⟩, ?_⟩
  · by_contra hne
    exact h.ne_dir hne hu
  · rcases h.entry with he | ⟨hf, hf'⟩
    · exact Or.inl he.symm
    · exact Or.inr ⟨hf', hf⟩

theorem isFile_node? (h : Rewritten t fs fs') (u : Trail) :
    (fs'.node? u).map Node.isFile = (fs.node? u).map Node.isFile := by
  by_cases hu : u = t
  · rw [hu]
    rcases h.entry with he | ⟨⟨b, c, hf⟩, b', c', hf'⟩
    · rw [he]
    · rw [hf, hf']
      rfl
  · rw [h.within.same u hu]

/-- a path leads where it led, to an entry of the same kind -/
theorem lookup (h : Rewritten t fs fs') {p : Path} {u : Trail} {n : Node}
    (hl : fs.lookup p = .ok (u, n)) : ∃ n', fs'.lookup p = .ok (u, n') ∧ n'.isFile = n.isFile := by
  obtain ⟨htrail, hn, hslash⟩ := lookup_eq_ok.mp hl
  have hkind := h.isFile_node? u
  rw [hn] at hkind
  obtain ⟨n', hn', hsame⟩ := Option.map_eq_some_iff.mp hkind
  refine ⟨n', lookup_eq_ok.mpr ⟨trail?_within h.within htrail, hn', fun hne => hslash ?_⟩, hsame⟩
  rintro rfl
  cases n' with
  | dir => exact hne rfl
  | file b c => cases hsame

theorem found?_kind (h : Rewritten t fs fs') (p : Path) :
    (fs'.found? p).map (fun e => e.2.isFile) = (fs.found? p).map (fun e => e.2.isFile) := by
  have hone : ∀ {fs fs' : FileSystem}, Rewritten t fs fs' → ∀ kind,
      (fs.found? p).map (fun e => e.2.isFile) = some kind →
        (fs'.found? p).map (fun e => e.2.isFile) = some kind := by
    intro fs fs' h kind hk
    rw [found?] at hk
    cases hl : fs.lookup p with
    | error e =>
      rw [hl] at hk
      cases hk
    | ok e =>
      obtain ⟨n', hl', hkind⟩ := h.lookup hl
      rw [hl] at hk
      rw [found?, hl']
      exact (congrArg some hkind).trans hk
  exact Option.ext fun kind => ⟨hone h.symm kind, hone h kind⟩

theorem isPresent_eq (h : Rewritten t fs fs') (p : Path) : fs'.isPresent p = fs.isPresent p := by
  have hkind : ∀ fs : FileSystem,
      fs.isPresent p = ((fs.found? p).map fun e => e.2.isFile).isSome := by
    intro fs
    rw [isPresent, found?]
    cases fs.lookup p <;> rfl
  rw [hkind, hkind, h.found?_kind]

theorem isFile_eq (h : Rewritten t fs fs') (p : Path) : fs'.isFile p = fs.isFile p := by
  have hkind : ∀ fs : FileSystem,
      fs.isFile p = ((fs.found? p).map fun e => e.2.isFile).getD false := by
    intro fs
    rw [isFile, found?]
    cases fs.lookup p <;> rfl
  rw [hkind, hkind, h.found?_kind]

theorem isReusable_eq (h : Rewritten t fs fs') (force : Bool) (l : Layer) :
    isReusable force l fs' = isReusable force l fs := by
  rw [isReusable, isReusable, Layer.isComplete, Layer.isComplete, Layer.isMarked, Layer.isMarked,
    h.isFile_eq, h.isPresent_eq]

end FileSystem.Rewritten

/-! ## the same with and without waiting -/

/-- Two runs with the same result, the same calls and answers, the same tools, and the same files but
for locks. -/
structure World.Coincides (r : Trail) (res : α) (ms : List Moment) (w : World σ) (res' : α)
    (ms' : List Moment) (w' : World σ) : Prop where
  result : res' = res
  answers : answersOf ms' = answersOf ms
  tools : w'.tools = w.tools
  files : ∀ t ∉ Store.lockTrails r, w'.files.node? t = w.files.node? t

/-- what comes of the same operation in the same world -/
theorem World.ComesTo.coincides {act : Act σ ε α} {u w w' : World σ} {res res' : Except ε α}
    {ms ms' : List Moment} (h : u.ComesTo act res ms w) (h' : u.ComesTo act res' ms' w') (r : Trail) :
    World.Coincides r res ms w res' ms' w' :=
  ⟨h'.result.trans h.result.symm, h'.answers.trans h.answers.symm, h'.tools.trans h.tools.symm,
    fun t _ => by rw [h'.files, h.files]⟩

/-- What comes of an operation that has to wait for the lock of a layer while the others change disks:
it is refused if they still hold the lock, and else it does what it does without waiting in the world
they left. -/
def Act.Waits (act : Act σ BuildError α) (s : Store) (l : Layer) (w : World σ) : Prop :=
  act.Ends w fun res ms w' => ∀ m ∈ ms, m.event = .waited → ∀ r, m.Interferes s r l.kind →
    (w.after m.before).files = m.after ∧
    (¬ (w.after m.before).IsFree (s.lockPath l.kind l.identity) →
      (∃ e, res = .error (.ofStore l (.lock e))) ∧ answersOf ms = [] ∧ w'.files = m.after) ∧
    ((w.after m.before).IsFree (s.lockPath l.kind l.identity) →
      act.Ends (w.after m.before) fun res' ms' v => World.Coincides r res ms w' res' ms' v)

namespace Act
variable {σ : Type} {s : Store} {l : Layer} (backend : Backend σ) (config : BuildConfig)
  (ha : s.root.isAbsolute = true) (h : l.BelongsTo s)
include ha h

/-- a disk that is looked for before the lock is taken and under it -/
theorem waits_realize (parent : Option Layer) (op : Operation) (w : World σ) :
    (realize backend s config l parent op).Waits s l w := by
  rw [Waits, realize]
  refine ends_inspect_bind ?_
  split
  · exact ends_pure fun m hm => absurd hm List.not_mem_nil
  refine (ends_layer_waited ha h.valid config.command config.lockWait (BuildError.ofStore l)
    (h.handles_realize backend config parent op) w).mono ?_
  intro res ms w' hwaited m hm hw r hothers
  obtain ⟨hleft, hheld, hfree⟩ := hwaited m hm hw r hothers
  refine ⟨hleft, hheld, fun hopen => ?_⟩
  obtain ⟨u, henters, hcome, hfresh⟩ := hfree hopen
  refine ends_inspect_bind ?_
  split
  · -- without waiting the lock is not even taken
    next hreuse =>
    obtain ⟨t, ht, hrw⟩ := henters.lock
    rw [← hrw.isReusable_eq] at hreuse
    have hrun : (do
        if ← Act.inspect (isReusable config.force l) then return .cached
        makeDisk backend l parent op
        return .built : Act σ BuildError StepStatus).runIn u = (.ok .cached, u) := by
      rw [runIn_bind, runIn_inspect]
      dsimp only
      rw [hreuse]
      rfl
    have hnone : answersOf ms = [] := by
      rw [hcome.answers, momentsIn, hrun, List.drop_length]
      rfl
    refine ends_pure ⟨?_, hnone.symm, ?_, fun v hv => ?_⟩
    · rw [hcome.result, hrun]
    · rw [hcome.tools, hrun]
      exact henters.tools.symm
    · rw [hcome.files, hrun]
      exact (hrw.within.same v fun e => hv (e ▸ ht)).symm
  · exact hfresh.mono fun res' ms' v hcome' => hcome.coincides hcome' r

theorem waits_makeTag (terminal : Layer) (w : World σ) :
    (makeTag backend s config l terminal).Waits s l w := by
  rw [Waits, makeTag]
  refine (ends_layer_waited ha h.valid config.command config.lockWait (BuildError.ofStore l)
    (.mapError (h.handles_tag backend terminal)) w).mono ?_
  intro res ms w' hwaited m hm hw r hothers
  obtain ⟨hleft, hheld, hfree⟩ := hwaited m hm hw r hothers
  refine ⟨hleft, hheld, fun hopen => ?_⟩
  obtain ⟨u, -, hcome, hfresh⟩ := hfree hopen
  exact hfresh.mono fun res' ms' v hcome' => hcome.coincides hcome' r

end Act

/-! ## what is left over is made from scratch -/

/-- The first call, if there is one, is made on files like that. -/
def FirstCall (P : FileSystem → Prop) (ms : List Moment) : Prop :=
  ∀ before m after, ms = before ++ m :: after → answersOf before = [] → m.call? ≠ none → P m.before

namespace FirstCall
variable {P Q : FileSystem → Prop} {ms ms' : List Moment}

theorem of_silent (h : answersOf ms = []) : FirstCall P ms := by
  rintro before m after rfl - hcall
  exact absurd (call?_of_silent h (by simp)) hcall

theorem mono (h : FirstCall P ms) (hPQ : ∀ fs, P fs → Q fs) : FirstCall Q ms :=
  fun before m after hms hbefore hcall => hPQ _ (h before m after hms hbefore hcall)

theorem append (h : FirstCall P ms) (h' : answersOf ms = [] → FirstCall P ms') :
    FirstCall P (ms ++ ms') := by
  intro before m after hms hbefore hcall
  rcases List.append_eq_append_iff.mp hms with ⟨mid, rfl, hrest⟩ | ⟨mid, rfl, hrest⟩
  · rw [answersOf_append] at hbefore
    obtain ⟨hsilent, hmid⟩ := List.append_eq_nil_iff.mp hbefore
    exact h' hsilent mid m after hrest hmid hcall
  · cases mid with
    | nil =>
      rw [List.append_nil] at h'
      exact h' hbefore [] m after hrest.symm rfl hcall
    | cons m' mid =>
      obtain ⟨rfl, -⟩ := List.cons.inj hrest
      exact h before m mid rfl hbefore hcall

end FirstCall

namespace Act
variable {σ ε α : Type} {w : World σ} {l : Layer} (backend : Backend σ)

theorem firstCall_call {c : Call} (f : ToolError → ε) :
    ((Act.call backend c).mapError f : Act σ ε Unit).Ends w fun _ ms _ =>
      FirstCall (· = w.files) ms ∧ answersOf ms ≠ [] := by
  refine Ends.mapError (ends_of_note rfl rfl rfl ⟨fun before m after hms _ _ => ?_, List.cons_ne_nil _ _⟩)
  have hm : m ∈ [(⟨.called c (backend c w.tools w.files).1, w.files,
      (backend c w.tools w.files).2.2⟩ : Moment)] := by
    rw [hms]
    simp
  rw [List.mem_singleton.mp hm]

theorem silent_removePath (p : Path) (w : World σ) :
    (removePath p : Act σ StoreError Unit).Ends w fun _ ms _ => answersOf ms = [] := by
  refine Ends.mapError ?_
  cases hr : w.files.remove p with
  | error e =>
    exact ends_of_runIn (r := if e = .notFound then .ok () else .error e)
      (by rw [removeFile, runIn_ofFunction, hr]) rfl
  | ok fs =>
    have hremoved : (removeFile p : Act σ SystemError Unit).runIn w = (.ok (), w.note (.removed p) fs) := by
      rw [removeFile, runIn_ofFunction, hr]
    exact ends_of_note hremoved rfl rfl rfl

theorem firstCall_execute (commands : List GuestCommand) :
    (l.execute backend commands).Ends w fun _ ms _ => FirstCall (· = w.files) ms := by
  induction commands generalizing w with
  | nil => exact ends_pure (.of_silent rfl)
  | cons c cs ih =>
    refine (firstCall_call backend ApplyError.executor).bind ?_ fun e ms v hms => hms.1
    rintro ⟨⟩ ms v ⟨hfirst, hms⟩
    exact ih.mono fun _ ms' _ _ => hfirst.append fun hnone => absurd hnone hms

theorem firstCall_apply (op : Operation) :
    (l.apply backend op).Ends w fun _ ms _ => FirstCall (· = w.files) ms := by
  cases op with
  | base reference => exact Ends.mapError ((firstCall_call backend id).mono fun _ _ _ h => h.1)
  | _ => exact firstCall_execute backend _

/-- a difference is made where there is no disk yet, or not at all -/
theorem firstCall_snapshotOf (parent : Layer) (habsent : w.files.isPresent l.location = false) :
    (l.snapshotOf backend parent).Ends w fun res ms _ =>
      FirstCall (· = w.files) ms ∧ (res = .ok () → answersOf ms ≠ []) := by
  have hrefused : ∀ (e : StoreError) (f : PUnit → Act σ StoreError Unit),
      (throw e >>= f).Ends w fun res ms _ =>
        FirstCall (· = w.files) ms ∧ (res = .ok () → answersOf ms ≠ []) := fun e f =>
    ends_of_runIn (r := .error e) (by rw [runIn_bind, runIn_throw])
      ⟨.of_silent rfl, fun hres => by cases hres⟩
  rw [Layer.snapshotOf]
  refine ends_inspect_bind ?_
  dsimp only
  split
  · exact hrefused _ _
  refine ends_inspect_bind ?_
  split
  · exact hrefused _ _
  refine ends_inspect_bind ?_
  rw [habsent]
  exact (firstCall_call backend StoreError.backend).mono fun _ _ _ h => ⟨h.1, fun _ => h.2⟩

/-- A disk is made where neither an old one nor a part of one is left, and the marker is there. -/
theorem firstCall_makeDisk {dir : Path} {d : Trail} (h : l.LiesIn dir d w.files)
    (parent : Option Layer) (op : Operation) :
    (makeDisk backend l parent op).Ends w fun _ ms _ =>
      FirstCall (fun fs => fs.isPresent l.location = false ∧ fs.isPresent l.marker = true) ms := by
  have hend : ∀ v : World σ, ((l.apply backend op).mapError (BuildError.ofApply l) >>= fun _ =>
      l.unmark.mapError (.ofStore l)).Ends v fun _ ms _ => FirstCall (· = v.files) ms := by
    intro v
    refine (firstCall_apply backend op).bind_mapError ?_ fun e ms v' hms => hms
    rintro ⟨⟩ ms v' hfirst
    exact Ends.mapError ((silent_removePath l.marker v').mono fun _ ms' _ hsilent =>
      hfirst.append fun _ => .of_silent hsilent)
  rw [makeDisk]
  refine (ends_discard h).bind_mapError ?_ fun e ms v hv => .of_silent hv.2.2.1
  rintro ⟨⟩ ms v ⟨-, hreach, hsilent, hgone⟩
  cases hgone with
  | gone hf hdisk hunmarked _ =>
    have hv := h.within hreach.within
    refine (ends_mark hv hf hunmarked).bind_mapError ?_ fun _ _ _ hm => by cases hm.1
    rintro ⟨⟩ ms' v' ⟨-, ht, hmark⟩
    have hsofar : answersOf (ms ++ ms') = [] := by
      rw [answersOf_append, hsilent, ht.silent]
      rfl
    have hv' := hv.within ht.reaches.within
    have hnone : v'.files.node? (l.diskTrail d) = none := ht.node?_diskTrail.trans hdisk
    have habsent : v'.files.isPresent l.location = false := by
      obtain ⟨e, he⟩ := hv'.lookup_eq_error hnone
      rw [FileSystem.isPresent, he]
    have hfirst : ∀ {ms''}, FirstCall (· = v'.files) ms'' → FirstCall (fun fs =>
        fs.isPresent l.location = false ∧ fs.isPresent l.marker = true) (ms ++ (ms' ++ ms'')) := by
      intro ms'' hms''
      rw [← List.append_assoc]
      refine (FirstCall.of_silent hsofar).append fun _ => hms''.mono ?_
      rintro fs rfl
      exact ⟨habsent, hmark.isPresent hv'⟩
    cases parent with
    | none => exact (hend v').mono fun _ ms'' _ hms'' => hfirst hms''
    | some p =>
      refine (firstCall_snapshotOf backend p habsent).bind_mapError ?_ fun e ms'' _ hms'' =>
        hfirst hms''.1
      rintro ⟨⟩ ms'' v'' ⟨hms'', hcalled⟩
      refine (hend v'').mono fun _ ms''' _ _ => hfirst (hms''.append fun hnone =>
        absurd hnone (hcalled rfl))

end Act

/-- Nothing is found cached, and calls begin where neither the old disk nor a part of it is left. -/
def Layer.StartsOver (l : Layer) (res : Except BuildError StepStatus) (ms : List Moment) : Prop :=
  res ≠ .ok .cached ∧
    FirstCall (fun fs => fs.isPresent l.location = false ∧ fs.isPresent l.marker = true) ms

namespace Act
variable {σ : Type} {s : Store} {l : Layer} (backend : Backend σ) (config : BuildConfig)

theorem realize_of_reusable {parent : Option Layer} {op : Operation} {w : World σ}
    (h : isReusable config.force l w.files = true) :
    (realize backend s config l parent op).runIn w = (.ok .cached, w) := by
  rw [realize, runIn_bind, runIn_inspect]
  dsimp only
  rw [if_pos h]
  rfl

variable (ha : s.root.isAbsolute = true) (h : l.BelongsTo s)
include ha h

theorem realize_finds (parent : Option Layer) (op : Operation) (w : World σ) :
    (realize backend s config l parent op).Ends w fun res ms w' => ∀ m ∈ ms, m.event = .waited →
      ∀ r, m.Interferes s r l.kind → (w.after m.before).IsFree (s.lockPath l.kind l.identity) →
        isReusable config.force l m.after = true → res = .ok .cached ∧ answersOf ms = [] ∧
          ∀ t ∉ Store.lockTrails r, w'.files.node? t = m.after.node? t := by
  refine (waits_realize backend config ha h parent op w).mono ?_
  intro res ms w' hwaited m hm hw r hothers hopen hreuse
  obtain ⟨hleft, -, hfree⟩ := hwaited m hm hw r hothers
  rw [← hleft] at hreuse
  have hsame := (hfree hopen).momentsIn
  rw [realize_of_reusable backend config hreuse, momentsIn,
    realize_of_reusable backend config hreuse, List.drop_length] at hsame
  refine ⟨hsame.result.symm, hsame.answers.symm, fun t ht => ?_⟩
  rw [← hleft]
  exact (hsame.files t ht).symm

/-- a disk that was left over in the meantime is made from scratch -/
theorem realize_startsOver (parent : Option Layer) (op : Operation) (w : World σ) :
    (realize backend s config l parent op).Ends w fun res ms _ => ∀ m ∈ ms, m.event = .waited →
      ∀ r, m.Interferes s r l.kind → (w.after m.before).IsFree (s.lockPath l.kind l.identity) →
        l.isMarked m.after = true → l.StartsOver res ms := by
  rw [realize]
  refine ends_inspect_bind ?_
  split
  · exact ends_pure fun m hm => absurd hm List.not_mem_nil
  refine (ends_layer_waited ha h.valid config.command config.lockWait (BuildError.ofStore l)
    (h.handles_realize backend config parent op) w).mono ?_
  intro res ms w' hwaited m hm hw r hothers hopen hmarked
  obtain ⟨hleft, -, hfree⟩ := hwaited m hm hw r hothers
  obtain ⟨u, henters, hcome, -⟩ := hfree hopen
  obtain ⟨t, -, hrw⟩ := henters.lock
  rw [hleft] at hrw
  have hkind := Store.isPlain_lockDir l.kind
  have hlies : ∃ d, l.LiesIn (s.root.join (Store.lockDir l.kind)) d u.files := by
    rw [Layer.isMarked, Layer.marker, h.location, s.markerOf_diskOf l.kind h.valid,
      FileSystem.isPresent] at hmarked
    cases hl : m.after.lookup ((s.root.join (Store.lockDir l.kind)).join (markerName l.identity.name)) with
    | error e =>
      rw [hl] at hmarked
      cases hmarked
    | ok e =>
      obtain ⟨d, hd, -⟩ := FileSystem.lookup_of_lookup_join (isAbsolute_join ha hkind)
        (isPlain_markerName h.valid) hl
      exact ⟨d, h.valid, h.location, hrw.within.lookup_dir hd⟩
  obtain ⟨d, hlies⟩ := hlies
  have hnot : isReusable config.force l u.files = false := by
    rw [hrw.isReusable_eq, isReusable, Layer.isComplete, hmarked, Bool.not_true, Bool.and_false,
      Bool.and_false]
  have hbody : (do
      if ← Act.inspect (isReusable config.force l) then return .cached
      makeDisk backend l parent op
      return .built : Act σ BuildError StepStatus).Ends u fun res ms _ => l.StartsOver res ms := by
    refine ends_inspect_bind ?_
    rw [hnot]
    refine (firstCall_makeDisk backend hlies parent op).bind ?_ fun e ms v hms => ⟨by simp, hms⟩
    rintro ⟨⟩ ms v hms
    refine ends_pure ⟨by simp, ?_⟩
    rw [List.append_nil]
    exact hms
  obtain ⟨hres, hfirst⟩ := hbody.momentsIn
  obtain ⟨before, after, rfl, hbefore, hafter⟩ := hcome.moments
  refine ⟨hcome.result ▸ hres, (FirstCall.of_silent hbefore).append fun _ => ?_⟩
  exact hfirst.append fun _ => .of_silent hafter

end Act

/-! ## machines that were started in the meantime -/

/-- A machine whose disk is there and whose record names a tag. -/
structure Store.RunsOn (s : Store) (fs : FileSystem) (machine tag : String) : Prop where
  valid : isValidName machine = true
  disk : fs.isFile (s.instancePath machine) = true
  record : ∃ text, fs.readText (s.recordPath machine) = .ok text ∧ Text.trim text = tag

/-- the error of a tag that a machine runs on, if all records can be read -/
def StoreError.IsUse (machine tag : String) (e : StoreError) : Prop :=
  (∃ machines, machine ∈ machines ∧ e = .tagInUse tag machines) ∨ ∃ p cause, e = .io "read" p cause

namespace Store.RunsOn
variable {s : Store} {fs fs' : FileSystem} {machine tag : String}

/-- the record is in the directory of instances -/
theorem recorded (h : s.RunsOn fs machine tag) (ha : s.root.isAbsolute = true) {r : Trail}
    (hroot : fs.lookup s.root = .ok (r, .dir)) : ∃ b c, c.text?.map Text.trim = some tag ∧
      fs.lookup (s.root.join instancesDir) = .ok (instancesDir :: r, .dir) ∧
        fs.lookup (s.recordPath machine) = .ok (recordName machine :: instancesDir :: r, .file b c) := by
  have hinstances : IsPlain instancesDir.toList := isPlain_of_mem_directories (by simp [directories])
  obtain ⟨text, hread, htrim⟩ := h.record
  rw [FileSystem.readText, FileSystem.readContent] at hread
  cases hl : fs.lookup (s.recordPath machine) with
  | error e =>
    rw [hl] at hread
    cases hread
  | ok e =>
    obtain ⟨t, n⟩ := e
    rw [hl] at hread
    cases n with
    | dir => cases hread
    | file b c =>
      obtain ⟨d, hd, rfl⟩ := FileSystem.lookup_of_lookup_join (isAbsolute_join ha hinstances)
        (isPlain_recordName h.valid) hl
      obtain ⟨d', hd', rfl⟩ := FileSystem.lookup_of_lookup_join ha hinstances hd
      rw [hroot] at hd'
      cases hd'
      refine ⟨b, c, ?_, hd, rfl⟩
      rw [ok_bind, ok_bind] at hread
      cases ht : c.text? with
      | none =>
        rw [ht] at hread
        cases hread
      | some text' =>
        rw [ht] at hread
        cases hread
        rw [Option.map_some, htrim]

theorem of_rewritten (h : s.RunsOn fs machine tag) (ha : s.root.isAbsolute = true) {r t : Trail}
    (hroot : fs.lookup s.root = .ok (r, .dir)) (ht : t ∈ lockTrails r) (hrw : fs.Rewritten t fs') :
    s.RunsOn fs' machine tag := by
  obtain ⟨b, c, htext, -, hrecord⟩ := h.recorded ha hroot
  obtain ⟨htrail, hnode, hslash⟩ := FileSystem.lookup_eq_ok.mp hrecord
  have hne : recordName machine :: instancesDir :: r ≠ t := fun e =>
    not_mem_lockTrails (show instancesDir ≠ locksDir by decide) _ (e ▸ ht)
  have hrecord' : fs'.lookup (s.recordPath machine) =
      .ok (recordName machine :: instancesDir :: r, .file b c) :=
    FileSystem.lookup_eq_ok.mpr ⟨FileSystem.trail?_within hrw.within htrail,
      (hrw.within.same _ hne).trans hnode, hslash⟩
  refine ⟨h.valid, (hrw.isFile_eq _).trans h.disk, ?_⟩
  obtain ⟨text, htext, htrim⟩ := Option.map_eq_some_iff.mp htext
  refine ⟨text, ?_, htrim⟩
  rw [FileSystem.readText, FileSystem.readContent, hrecord', ok_bind, ok_bind, htext]

/-- the tag may not be changed -/
theorem ensureUnused (h : s.RunsOn fs machine tag) (ha : s.root.isAbsolute = true) {r : Trail}
    (hroot : fs.lookup s.root = .ok (r, .dir)) :
    ∃ e, s.ensureUnused fs tag = .error e ∧ e.IsUse machine tag := by
  obtain ⟨b, c, -, hdir, hrecord⟩ := h.recorded ha hroot
  have hmem : recordName machine ∈ fs.children (instancesDir :: r) := by
    rw [FileSystem.mem_children, (FileSystem.lookup_eq_ok.mp hrecord).2.1]
    simp
  obtain ⟨text, htext, htrim⟩ := h.record
  have hmachine : s.machineOf? fs tag (recordName machine) = .ok (some machine) := by
    rw [machineOf?, recordedMachine?_recordName h.valid]
    dsimp only
    rw [if_pos h.disk, show (s.root.join instancesDir).join (recordName machine) = s.recordPath machine
      from rfl, htext]
    dsimp only
    rw [if_pos htrim]
  rw [Store.ensureUnused, instancesOf_eq_bind tag hdir]
  cases hm : (fs.children (instancesDir :: r)).mapM (s.machineOf? fs tag) with
  | error e =>
    obtain ⟨file, -, hfile⟩ := mapM_eq_error hm
    refine ⟨e, rfl, Or.inr ?_⟩
    rw [machineOf?] at hfile
    split at hfile
    · cases hfile
    · split at hfile
      · dsimp only at hfile
        split at hfile
        · cases hfile
          exact ⟨_, _, rfl⟩
        · cases hfile
      · cases hfile
  | ok machines =>
    obtain ⟨found, hfound, hf⟩ := (mem_of_mapM_eq_ok hm).1 _ hmem
    rw [hmachine] at hf
    cases hf
    have hin : machine ∈ (machines.filterMap id).mergeSort FileSystem.nameLE :=
      List.mem_mergeSort.mpr (List.mem_filterMap.mpr ⟨_, hfound, rfl⟩)
    rw [ok_bind]
    cases hl : (machines.filterMap id).mergeSort FileSystem.nameLE with
    | nil =>
      rw [hl] at hin
      cases hin
    | cons a as =>
      rw [hl] at hin
      exact ⟨_, rfl, Or.inl ⟨_, hin, rfl⟩⟩

end Store.RunsOn

namespace Act
variable {σ : Type} {s : Store} {l : Layer} (backend : Backend σ) (config : BuildConfig)
  (ha : s.root.isAbsolute = true) (h : l.BelongsTo s)
include ha h

/-- a tag that a machine was started on in the meantime stays -/
theorem makeTag_refused (terminal : Layer) (w : World σ) :
    (makeTag backend s config l terminal).Ends w fun res ms w' => ∀ m ∈ ms, m.event = .waited →
      ∀ r, m.Interferes s r l.kind → (w.after m.before).IsFree (s.lockPath l.kind l.identity) →
        ∀ machine, s.RunsOn m.after machine l.identity.name →
          (∃ e, res = .error (.ofStore l e) ∧ e.IsUse machine l.identity.name) ∧ answersOf ms = [] ∧
            ∀ t ∉ Store.lockTrails r, w'.files.node? t = m.after.node? t := by
  rw [makeTag]
  refine (ends_layer_waited ha h.valid config.command config.lockWait (BuildError.ofStore l)
    (.mapError (h.handles_tag backend terminal)) w).mono ?_
  intro res ms w' hwaited m hm hw r hothers hopen machine hruns
  obtain ⟨hleft, -, hfree⟩ := hwaited m hm hw r hothers
  obtain ⟨u, henters, hcome, -⟩ := hfree hopen
  obtain ⟨t, ht, hrw⟩ := henters.lock
  have hroot := henters.root
  rw [← hleft] at hruns ⊢
  obtain ⟨e, he, huse⟩ := (hruns.of_rewritten ha hroot ht hrw).ensureUnused ha
    (hrw.within.lookup_dir hroot)
  have hrun : (Act.mapError (BuildError.ofStore l) do
      s.refuseIfUsed l.identity.name
      l.discard
      l.mark
      l.snapshotOf backend terminal
      l.unmark).runIn u = (.error (.ofStore l e), u) := by
    rw [runIn_mapError, runIn_bind, Store.refuseIfUsed, runIn_ofFunction, he]
    rfl
  refine ⟨⟨e, ?_, huse⟩, ?_, fun v hv => ?_⟩
  · rw [hcome.result, hrun]
  · rw [hcome.answers, momentsIn, hrun, List.drop_length]
    rfl
  · rw [hcome.files, hrun]
    exact hrw.within.same v fun e => hv (e ▸ ht)

end Act

/-! ## steps of a build -/

/-- How a step of a build ends: the result and the context, the moments, the world. -/
def Folding.Ends (step : Folding σ α) (c : Context) (w : World σ)
    (Q : Except BuildError α × Context → List Moment → World σ → Prop) : Prop :=
  ∃ ms, (step.runIn c w).2.journal = w.journal ++ ms ∧ Q (step.runIn c w).1 ms (step.runIn c w).2

/-- What comes of a step that has to wait for the lock of a layer while the others change disks: it is
refused if they still hold the lock, and else it does what it does without waiting in the world they
left. -/
def Folding.Waits (step : Folding σ α) (s : Store) (l : Layer) (c : Context) (w : World σ) : Prop :=
  step.Ends c w fun out ms w' => ∀ m ∈ ms, m.event = .waited → ∀ r, m.Interferes s r l.kind →
    (w.after m.before).files = m.after ∧
    (¬ (w.after m.before).IsFree (s.lockPath l.kind l.identity) →
      (∃ e, out.1 = .error (.ofStore l (.lock e))) ∧ answersOf ms = [] ∧ w'.files = m.after) ∧
    ((w.after m.before).IsFree (s.lockPath l.kind l.identity) →
      step.Ends c (w.after m.before) fun out' ms' v => World.Coincides r out ms w' out' ms' v)

namespace Folding
variable {σ α β : Type} {step : Folding σ α} {act : Act σ BuildError β} {c : Context} {s : Store}
  {l : Layer} {w : World σ} {out : Except BuildError β → Except BuildError α × Context}
  (hrun : ∀ w, step.runIn c w = (out (act.runIn w).1, (act.runIn w).2))
include hrun

theorem ends_of_act {Q : Except BuildError β → List Moment → World σ → Prop}
    {R : Except BuildError α × Context → List Moment → World σ → Prop} (h : act.Ends w Q)
    (hQR : ∀ res ms w', Q res ms w' → R (out res) ms w') : step.Ends c w R := by
  obtain ⟨ms, hj, -, hq⟩ := h
  refine ⟨ms, ?_, ?_⟩
  · rw [hrun]
    exact hj
  · rw [hrun]
    exact hQR _ _ _ hq

theorem waits_of_act (herr : ∀ e, (out (.error e)).1 = .error e) (h : act.Waits s l w) :
    step.Waits s l c w := by
  refine ends_of_act hrun h ?_
  intro res ms w' hwaited m hm hw r hothers
  obtain ⟨hleft, hheld, hfree⟩ := hwaited m hm hw r hothers
  refine ⟨hleft, fun hlocked => ?_, fun hopen => ends_of_act hrun (hfree hopen) ?_⟩
  · obtain ⟨⟨e, rfl⟩, hrest⟩ := hheld hlocked
    exact ⟨⟨e, herr _⟩, hrest⟩
  · rintro res' ms' v ⟨rfl, hans, htools, hfiles⟩
    exact ⟨rfl, hans, htools, hfiles⟩

end Folding

namespace Context

/-- what a step comes to whose layer was made real, or not, in the context with its layer -/
def stepped (c : Context) (goal : Goal) :
    Except BuildError StepStatus → Except BuildError LayerId × Context
  | .ok status => (.ok goal.id, c.record goal.id goal.layer status)
  | .error e => (.error e, c)

end Context

section
variable {σ : Type} (backend : Backend σ) {s : Store} (config : BuildConfig) {c : Context}

/-- a step for an operation does what realizing its layer does -/
theorem applyOne_runIn_of_extend {op : Operation} {goal : Context.Goal} {c' : Context}
    (h : c.extend s op = .ok (goal, c')) (w : World σ) :
    (applyOne backend s config op).runIn c w =
      (c'.stepped goal ((realize backend s config goal.layer goal.parent op).runIn w).1,
        ((realize backend s config goal.layer goal.parent op).runIn w).2) := by
  rw [applyOne_runIn, h]
  dsimp only
  rcases (realize backend s config goal.layer goal.parent op).runIn w with ⟨res, w'⟩
  cases res <;> rfl

/-- The first builder wins, and the others reuse what it made.  A step that has to wait for the lock
of its layer while the others change disks, with whatever result, does what it would have done without
waiting in the world that the others left, or is refused if they still hold the lock: a disk that was
finished in the meantime is used as it is, one that was left over is made from scratch, and a tag that
a machine was started on stays. -/
theorem first_builder_wins (ha : s.root.isAbsolute = true) (c : Context) (w : World σ) :
    (∀ op goal c', c.extend s op = .ok (goal, c') →
      (applyOne backend s config op).Waits s goal.layer c w ∧
      (applyOne backend s config op).Ends c w fun out ms w' => ∀ m ∈ ms, m.event = .waited →
        ∀ r, m.Interferes s r goal.layer.kind →
          (w.after m.before).IsFree (s.lockPath goal.layer.kind goal.layer.identity) →
            (isReusable config.force goal.layer m.after = true →
              out = (.ok goal.id, c'.record goal.id goal.layer .cached) ∧ answersOf ms = [] ∧
                ∀ t ∉ Store.lockTrails r, w'.files.node? t = m.after.node? t) ∧
            (goal.layer.isMarked m.after = true →
              (∀ id, out.1 = .ok id → out.2 = c'.record goal.id goal.layer .built) ∧
                FirstCall (fun fs => fs.isPresent goal.layer.location = false ∧
                  fs.isPresent goal.layer.marker = true) ms)) ∧
    ∀ name,
      (tagAs backend s config name).Waits s (s.tagNamed name) c w ∧
      (tagAs backend s config name).Ends c w fun out ms w' => ∀ m ∈ ms, m.event = .waited →
        ∀ r, m.Interferes s r .tag → (w.after m.before).IsFree (s.lockPath .tag ⟨name⟩) →
          ∀ machine, s.RunsOn m.after machine name →
            (∃ e, out.1 = .error (.ofStore (s.tagNamed name) e) ∧ e.IsUse machine name) ∧
              answersOf ms = [] ∧ ∀ t ∉ Store.lockTrails r, w'.files.node? t = m.after.node? t := by
  refine ⟨fun op goal c' hext => ?_, fun name => ?_⟩
  · have hlayer := Context.extend_belongsTo hext
    have hrun := applyOne_runIn_of_extend backend config hext
    refine ⟨Folding.waits_of_act hrun (fun e => rfl)
      (Act.waits_realize backend config ha hlayer goal.parent op w), ?_⟩
    refine Folding.ends_of_act hrun ((Act.realize_finds backend config ha hlayer goal.parent op w).and
      (Act.realize_startsOver backend config ha hlayer goal.parent op w)) ?_
    rintro res ms w' ⟨hfinds, hover⟩ m hm hw r hothers hopen
    refine ⟨fun hreuse => ?_, fun hmarked => ?_⟩
    · obtain ⟨rfl, hrest⟩ := hfinds m hm hw r hothers hopen hreuse
      exact ⟨rfl, hrest⟩
    · obtain ⟨hnot, hfirst⟩ := hover m hm hw r hothers hopen hmarked
      refine ⟨fun id hid => ?_, hfirst⟩
      cases res with
      | error e => cases hid
      | ok status =>
        cases status with
        | cached => exact absurd rfl hnot
        | built => rfl
  · rcases tagAs_runIn_cases backend config name with ⟨cause, hstill⟩ | ⟨hv, id, terminal, -, hrun⟩
    · have hnone : (tagAs backend s config name).Ends c w fun _ ms _ => ms = [] :=
        ⟨[], by rw [hstill, List.append_nil], rfl⟩
      obtain ⟨_, hj, rfl⟩ := hnone
      exact ⟨⟨[], hj, fun m hm => absurd hm List.not_mem_nil⟩,
        ⟨[], hj, fun m hm => absurd hm List.not_mem_nil⟩⟩
    · have hlayer : Layer.BelongsTo { s.tagNamed name with parent := some id } s := ⟨hv, rfl⟩
      have hwaits := Act.waits_makeTag backend config ha hlayer terminal w
      refine ⟨Folding.waits_of_act hrun (fun e => rfl) hwaits, ?_⟩
      refine Folding.ends_of_act hrun (Act.makeTag_refused backend config ha hlayer terminal w) ?_
      intro res ms w' hrefused m hm hw r hothers hopen machine hruns
      obtain ⟨⟨e, rfl, huse⟩, hrest⟩ := hrefused m hm hw r hothers hopen machine hruns
      exact ⟨⟨e, rfl, huse⟩, hrest⟩

end

/-! ## a layer that two build at once -/

deriving instance DecidableEq for FileSystem

/-- A world with a store at its root, and something in the directory of its layers.  Somebody else
holds the lock of `b`, and when waited for changes files like that and gives the lock back. -/
def World.contested (turn : FileSystem → FileSystem) : World Unit where
  files :=
    { nodes := (Store.directories.map fun dir => ([dir], .dir)) ++ [(["layers", "locks"], .dir),
        (["b.lock", "layers", "locks"], .file 0 .empty), (["d", "layers"], .dir)]
      births := 1 }
  locked := [⟨["b.lock", "layers", "locks"], 0⟩]
  meanwhile := some fun sh => ⟨turn sh.files, []⟩
  tools := ()
  pid := 1
  now := 0

theorem World.isFree_contested (turn : FileSystem → FileSystem) (files : FileSystem) (path : Path) :
    ((World.contested turn).after files).IsFree path := fun _ _ _ => List.not_mem_nil

/-- a base image that is finished while it is waited for is found, and stays as it is -/
theorem first_builder_wins_base :
    let s : Store := ⟨⟨"/"⟩⟩
    let w := World.contested fun fs => fs.set ["b.qcow2", "layers"] (.file 7 .empty)
    let out := (applyOne (.touching fun _ => false) s { storeRoot := s.root } (.base "b")).runIn {} w
    s.root.isAbsolute = true ∧ out.1.1 = .ok ⟨0⟩ ∧ out.1.2.stats = { cached := 1 } ∧
      answersOf out.2.journal = [] ∧
        out.2.files.node? ["b.qcow2", "layers"] = some (.file 7 .empty) := by
  intro s w
  obtain ⟨⟨goal, c'⟩, hext, m, hm, hid, hkind, hstats, hturn, hroot, hafter, hreuse⟩ :
      ∃ g ∈ (Context.extend s {} (.base "b")).toOption, ∃ m ∈
        ((applyOne (.touching fun _ => false) s { storeRoot := s.root } (.base "b")).runIn {} w).2.journal,
        g.1.id = ⟨0⟩ ∧ g.1.layer.kind = .base ∧ g.2.stats = {} ∧ m.isTurn = true ∧
          m.before.lookup s.root = .ok ([], .dir) ∧
            m.after = m.before.set ["b.qcow2", "layers"] (.file 7 .empty) ∧
              isReusable false g.1.layer m.after = true := by
    decide +kernel
  have hgoal : Context.extend s {} (.base "b") = .ok (goal, c') := by
    cases hc : Context.extend s {} (.base "b") with
    | error e =>
      rw [hc] at hext
      cases hext
    | ok g =>
      rw [hc] at hext
      rw [Option.some.inj hext]
  have hset := m.before.node?_set (t := ["b.qcow2", "layers"]) (by simp) (.file 7 .empty)
  rw [← hafter] at hset
  have hothers : m.Interferes s [] goal.layer.kind := by
    refine ⟨hroot, fun t ht => ?_, Or.inl (by decide)⟩
    rw [hset, if_neg]
    rintro rfl
    exact ht ⟨Store.layersDir, by simp, ⟨["b.qcow2"], rfl⟩⟩
  have ha : s.root.isAbsolute = true := by decide
  obtain ⟨-, ms, hj, hall⟩ := (first_builder_wins (.touching fun _ => false) { storeRoot := s.root } ha {} w).1
    (.base "b") goal c' hgoal
  dsimp only
  generalize (applyOne _ s _ _).runIn {} w = out at hm hj hall ⊢
  have hms : out.2.journal = ms := hj
  rw [hms] at hm ⊢
  obtain ⟨hout, hsilent, hfiles⟩ := (hall m hm (Moment.isTurn_iff.mp hturn) [] hothers
    (World.isFree_contested _ _ _)).1 hreuse
  refine ⟨ha, ?_, ?_, hsilent, ?_⟩
  · rw [hout, hid]
  · rw [hout, Context.record, hstats]
    rfl
  · refine (hfiles _ (Store.not_mem_lockTrails (by decide) _)).trans ?_
    rw [hset, if_pos rfl]

/-- The same store by a path that leads through a directory among the layers. -/
def Store.byway : Store := ⟨⟨"/layers/d/../.."⟩⟩

/-- A step does not do what it would have done without waiting if the others take a directory away that
the path of the store leads through: where nobody waited the directory is made again. -/
theorem first_builder_loses_way :
    let s := Store.byway
    let w := World.contested fun fs => fs.erase ["d", "layers"]
    let step := applyOne (.touching fun _ => false) s { storeRoot := s.root } (.base "b")
    ∃ m ∈ (step.runIn {} w).2.journal, m.event = .waited ∧
      (∀ t ∉ Store.diskTrails [], m.after.node? t = m.before.node? t) ∧
        (w.after m.before).files = m.after ∧ (w.after m.before).IsFree (s.lockPath .base ⟨"b"⟩) ∧
          (step.runIn {} w).1.1.isOk = false ∧ (step.runIn {} (w.after m.before)).1.1.isOk = true := by
  intro s w step
  obtain ⟨m, hm, hturn, hafter, hleft, hfails, hworks⟩ : ∃ m ∈ (step.runIn {} w).2.journal,
      m.isTurn = true ∧ m.after = m.before.erase ["d", "layers"] ∧
        (w.after m.before).files = m.after ∧ (step.runIn {} w).1.1.isOk = false ∧
          (step.runIn {} (w.after m.before)).1.1.isOk = true := by
    decide +kernel
  refine ⟨m, hm, Moment.isTurn_iff.mp hturn, fun t ht => ?_, hleft, World.isFree_contested _ _ _,
    hfails, hworks⟩
  rw [hafter, FileSystem.node?_erase _ (by simp), if_neg]
  rintro rfl
  exact ht ⟨Store.layersDir, by simp, ⟨["d"], rfl⟩⟩

end DiskLayers
