import DiskLayers.Proofs.Values
import DiskLayers.Proofs.Waiting

/-!
# What lock files tell

* `LockRecord.Told`       the values that tell who holds a lock
* `Content.Tells`         the bytes that tell it
* `FileSystem.Shows`      a path leads to a file with these bytes
* `World.IsHeld`          somebody holds the lock at a path
* `World.atLimit`         the world once a wait is over

A record is read back from what is written for it (`LockRecord.read?_text`), and whatever the bytes of a
held lock are, whoever has waited in vain is told what they tell (`runIn_acquire_held`).
-/

namespace DiskLayers
open DiskLayers.Path DiskLayers.Text

/-! ## records -/

namespace LockRecord

/-- the fields of a record -/
def fields (r : LockRecord) : List (String × Json) :=
  [("version", .ofNat r.version), ("pid", .ofNat r.pid), ("started_at_unix", .ofNat r.started),
   ("command", .ofString r.command), ("identity", .ofString r.identity)]

/-- numbers that a record can hold -/
structure InRange (r : LockRecord) : Prop where
  version : r.version ≤ maxNumber
  pid : r.pid ≤ maxNumber
  started : r.started ≤ maxTime

inductive Told (r : LockRecord) : Json → Prop where
  /-- the fields once each, in any order, among fields of other names -/
  | record {fields extra : List (Option String × Json)}
      (hperm : fields.Perm (r.fields.map (fun f => (some f.1, f.2)) ++ extra))
      (hextra : ∀ e ∈ extra, e.1.isSome = true ∧ ∀ f ∈ r.fields, e.1 ≠ some f.1) :
    Told r (.record fields)
  /-- the values of the fields, in order -/
  | list : Told r (.list (r.fields.map Prod.snd))

theorem toJson_eq (r : LockRecord) : r.toJson = .ofFields r.fields := rfl

theorem nodup_fields (r : LockRecord) : (r.fields.map Prod.fst).Nodup := by
  simp [fields]

theorem ofValues?_eq_some_iff {version pid started command identity : Json} {r : LockRecord}
    (hversion : ∃ cs, Json.Spelt version cs) (hpid : ∃ cs, Json.Spelt pid cs)
    (hstarted : ∃ cs, Json.Spelt started cs) :
    ofValues? version pid started command identity = some r ↔
      r.InRange ∧ [version, pid, started, command, identity] = r.fields.map Prod.snd := by
  obtain ⟨_, hversion⟩ := hversion
  obtain ⟨_, hpid⟩ := hpid
  obtain ⟨_, hstarted⟩ := hstarted
  simp only [ofValues?, Option.bind_eq_bind, Option.bind_eq_some_iff, Json.toNat?_eq_some_iff hversion,
    Json.toNat?_eq_some_iff hpid, Json.toNat?_eq_some_iff hstarted, Json.toString?_eq_some_iff]
  constructor
  · rintro ⟨_, ⟨rfl, h₁⟩, _, ⟨rfl, h₂⟩, _, ⟨rfl, h₃⟩, _, rfl, _, rfl, h⟩
    cases h
    exact ⟨⟨h₁, h₂, h₃⟩, rfl⟩
  · rintro ⟨⟨h₁, h₂, h₃⟩, h⟩
    cases h
    exact ⟨_, ⟨rfl, h₁⟩, _, ⟨rfl, h₂⟩, _, ⟨rfl, h₃⟩, _, rfl, _, rfl, rfl⟩

/-- A value that is spelt is read as a record if and only if it tells it. -/
theorem ofJson?_eq_some_iff {v : Json} {cs : List Char} (hv : Json.Spelt v cs) {r : LockRecord} :
    ofJson? v = some r ↔ r.InRange ∧ Told r v := by
  constructor
  · intro h
    unfold ofJson? at h
    split at h
    · next fields =>
      split at h
      · next hnames =>
        simp only [Option.bind_eq_bind, Option.bind_eq_some_iff] at h
        obtain ⟨v₁, h₁, v₂, h₂, v₃, h₃, v₄, h₄, v₅, h₅, h⟩ := h
        have hspelt : ∀ {name v}, Json.field? name fields = some v → ∃ cs, Json.Spelt v cs :=
          fun hf => hv.value (Json.mem_of_field? hf)
        obtain ⟨hrange, hvalues⟩ :=
          (ofValues?_eq_some_iff (hspelt h₁) (hspelt h₂) (hspelt h₃)).mp h
        have hall : ∀ f ∈ r.fields, Json.field? f.1 fields = some f.2 := by
          cases hvalues
          simp [LockRecord.fields, h₁, h₂, h₃, h₄, h₅]
        obtain ⟨extra, hperm, hextra⟩ := (Json.field?_eq_iff_perm r.nodup_fields).mp hall
        refine ⟨hrange, .record hperm fun e he => ⟨?_, hextra e he⟩⟩
        exact List.all_eq_true.mp hnames e (hperm.symm.subset (List.mem_append_right _ he))
      · cases h
    · next v₁ v₂ v₃ v₄ v₅ =>
      have hspelt : ∀ {v}, v ∈ [v₁, v₂, v₃, v₄, v₅] → ∃ cs, Json.Spelt v cs := hv.item
      obtain ⟨hrange, hvalues⟩ :=
        (ofValues?_eq_some_iff (hspelt (by simp)) (hspelt (by simp)) (hspelt (by simp))).mp h
      rw [hvalues]
      exact ⟨hrange, .list⟩
    · cases h
  · rintro ⟨hrange, h⟩
    have hnumber : ∀ n, ∃ cs, Json.Spelt (.ofNat n) cs := fun n => ⟨_, .number (Json.isNumeral_digits n)⟩
    have hread : ofValues? (.ofNat r.version) (.ofNat r.pid) (.ofNat r.started)
        (.ofString r.command) (.ofString r.identity) = some r :=
      (ofValues?_eq_some_iff (hnumber _) (hnumber _) (hnumber _)).mpr ⟨hrange, rfl⟩
    cases h with
    | @record fields extra hperm hextra =>
      have hall := (Json.field?_eq_iff_perm r.nodup_fields).mpr
        ⟨extra, hperm, fun e he => (hextra e he).2⟩
      have hnames : fields.all (·.1.isSome) = true := by
        rw [List.all_eq_true]
        intro f hf
        rcases List.mem_append.mp (hperm.subset hf) with hf | hf
        · obtain ⟨g, -, rfl⟩ := List.mem_map.mp hf
          rfl
        · exact (hextra f hf).1
      simp only [LockRecord.fields, List.forall_mem_cons] at hall
      obtain ⟨h₁, h₂, h₃, h₄, h₅, -⟩ := hall
      simp [ofJson?, hnames, h₁, h₂, h₃, h₄, h₅, hread]
    | list => exact hread

theorem read?_eq_some_iff {text : String} {r : LockRecord} :
    read? text = some r ↔ ∃ v, Json.SpeltBy text v ∧ r.InRange ∧ Told r v := by
  rw [read?, Option.bind_eq_some_iff]
  constructor
  · rintro ⟨v, hv, h⟩
    have hspelt := Json.parse?_eq_some_iff.mp hv
    obtain ⟨b, body, b', -, -, hbody, -⟩ := id hspelt
    exact ⟨v, hspelt, (ofJson?_eq_some_iff hbody).mp h⟩
  · rintro ⟨v, hv, h⟩
    obtain ⟨b, body, b', -, -, hbody, -⟩ := id hv
    exact ⟨v, Json.parse?_eq_some_iff.mpr hv, (ofJson?_eq_some_iff hbody).mpr h⟩

theorem printable_toJson (r : LockRecord) : Json.Printable r.toJson := by
  rw [toJson_eq]
  apply Json.printable_ofFields
  simp only [fields, List.forall_mem_cons]
  exact ⟨Json.printable_ofNat _, Json.printable_ofNat _, Json.printable_ofNat _, .text _, .text _,
    fun _ h => absurd h List.not_mem_nil⟩

theorem told_toJson (r : LockRecord) : Told r r.toJson := by
  rw [toJson_eq]
  have hperm := List.Perm.of_eq (List.append_nil (r.fields.map fun f => (some f.1, f.2))).symm
  exact .record hperm fun e he => absurd he List.not_mem_nil

/-- A record is read back from what is written for it. -/
theorem read?_text {r : LockRecord} (h : r.InRange) : read? r.text = some r := by
  apply read?_eq_some_iff.mpr
  exact ⟨r.toJson, Json.parse?_eq_some_iff.mp (Json.parse?_pretty (printable_toJson r)), h, told_toJson r⟩

end LockRecord

/-! ## the file of a lock -/

namespace FileSystem
variable {fs : FileSystem} {path : Path} {ref : FileRef} {c : Content}

/-- A path leads to a file with these bytes, and the directory that the file stands in is there. -/
structure Shows (fs : FileSystem) (path : Path) (ref : FileRef) (c : Content) : Prop where
  opened : fs.open path = .ok (ref, fs)
  home : fs.node? ref.trail.tail = some .dir
  content : fs.content? ref = some c

theorem ends_of_open {fs' : FileSystem} (h : fs.open path = .ok (ref, fs')) :
    endsInDots path.chars = false ∧ endsInSlash path.chars = false := by
  rw [FileSystem.open] at h
  split at h
  · cases hl : fs.lookup path with
    | error e => rw [hl] at h; cases h
    | ok x => rw [hl] at h; cases h
  · next hdots =>
    split at h
    · cases ha : fs.above? path with
      | error e => rw [ha] at h; cases h
      | ok x => rw [ha] at h; cases h
    · next hslash => exact ⟨by simpa using hdots, by simpa using hslash⟩

theorem open_of_file (hdots : endsInDots path.chars = false) (hslash : endsInSlash path.chars = false)
    (htrail : fs.trail? path = .ok ref.trail) (hfile : fs.node? ref.trail = some (.file ref.birth c)) :
    fs.open path = .ok (ref, fs) := by
  rw [FileSystem.open, hdots, if_neg Bool.false_ne_true, hslash, if_neg Bool.false_ne_true, htrail,
    ok_bind, hfile]

/-- the file that a path leads to -/
theorem Shows.file (h : fs.Shows path ref c) :
    fs.trail? path = .ok ref.trail ∧ fs.node? ref.trail = some (.file ref.birth c) := by
  obtain ⟨htrail, ⟨-, c', hfile⟩ | ⟨-, -, hcreated⟩⟩ := open_eq_ok h.opened
  · have hcontent := h.content
    rw [content?, hfile] at hcontent
    simp only [if_true] at hcontent
    rw [Option.some.inj hcontent] at hfile
    exact ⟨htrail, hfile⟩
  · -- a file that is created makes one more of them
    have hbirths := congrArg FileSystem.births hcreated
    exact absurd hbirths (Nat.succ_ne_self _).symm

theorem walk_of_trail? {t : Trail} {name : List Char} (hname : IsPlain name)
    (hchars : path.chars = name ∨ ∃ front, path.chars = front ++ '/' :: name)
    (h : fs.trail? path = .ok t) :
    fs.walk (fs.start path) (names path.chars).dropLast = .ok t.tail := by
  obtain ⟨-, here, hwalk, hlast⟩ := trail?_eq_ok h
  have hlastName : (names path.chars).getLast? = some name := by
    rcases hchars with he | ⟨front, he⟩
    · rw [he, names_plain hname]
      rfl
    · rw [he, names_append, names_plain hname, List.getLast?_concat]
  rw [hlastName] at hlast
  simp only [child?, if_neg hname.ne_dots] at hlast
  split at hlast
  · cases hlast
  · rw [hwalk, ← Except.ok.inj hlast]
    rfl

/-- the directory above a file that can be opened is there -/
theorem Shows.makeDirectories (h : fs.Shows path ref c) {q : Path} (hq : path.parent? = some q) :
    fs.makeDirectories q = (.ok (), fs) := by
  obtain ⟨hdots, hslash⟩ := ends_of_open h.opened
  obtain ⟨hu, -⟩ := trail?_eq_ok h.file.1
  obtain ⟨name, hname, hchars⟩ := exists_name hu hslash hdots
  obtain ⟨⟨rest, hrest⟩, hnames⟩ := parent?_of_name hname hchars hq
  have hwalk := walk_of_trail? hname hchars h.file.1
  by_cases hempty : q.chars = []
  · have htext : q.text = "" := String.toList_eq_nil_iff.mp hempty
    rw [FileSystem.makeDirectories, makeDirectoriesWithin, if_pos htext]
  have husable : q.IsUsable := by
    refine ⟨hempty, fun hz => hu.no_nul (hrest ▸ List.mem_append_left _ hz), ?_⟩
    have hshort := hu.short
    rw [← hrest, byteCount_append] at hshort
    omega
  have hstart : fs.start q = fs.start path := by
    obtain ⟨c, cs, hc⟩ := List.exists_cons_of_ne_nil hempty
    rw [start, start, isAbsolute, isAbsolute, ← hrest, hc]
    rfl
  apply makeDirectories_of_isDir
  apply lookup_eq_dir.mpr
  exact ⟨husable, by rw [hstart, hnames, hwalk], h.home⟩

theorem Shows.lookup (h : fs.Shows path ref c) :
    fs.lookup path = .ok (ref.trail, .file ref.birth c) := by
  obtain ⟨hdots, hslash⟩ := ends_of_open h.opened
  obtain ⟨htrail, hfile⟩ := h.file
  obtain ⟨hu, -⟩ := trail?_eq_ok htrail
  obtain ⟨name, hname, hchars⟩ := exists_name hu hslash hdots
  refine lookup_eq_ok.mpr ⟨htrail, hfile, fun _ => ?_⟩
  rcases hchars with he | ⟨front, he⟩
  · rw [he, wantsDirectory, splitAll_of_not_mem hname.no_slash]
    simp [hname.isVoid]
  · rw [he, wantsDirectory_append_name front hname]

theorem Shows.readText_eq_ok_iff (h : fs.Shows path ref c) {text : String} :
    fs.readText path = .ok text ↔ c.text? = some text := by
  have hcontent : fs.readContent path = .ok c := by
    rw [readContent, h.lookup]
    rfl
  rw [FileSystem.readText, hcontent, ok_bind]
  cases c.text? <;> simp

end FileSystem

/-! ## taking a lock -/

/-- The bytes tell who holds a lock. -/
def Content.Tells (c : Content) (r : LockRecord) : Prop :=
  ∃ text v, c.text? = some text ∧ Json.SpeltBy text v ∧ r.InRange ∧ r.Told v

namespace Lock

theorem contentionError_of_tells {fs : FileSystem} {path : Path} {ref : FileRef} {c : Content}
    {r : LockRecord} (h : fs.Shows path ref c) (hr : c.Tells r) (identity : String) :
    contentionError fs path identity =
      .contention identity r.command r.pid (startedText r.started) path := by
  obtain ⟨text, v, htext, hv, hrange, htold⟩ := hr
  rw [contentionError, h.readText_eq_ok_iff.mpr htext]
  dsimp only
  rw [LockRecord.read?_eq_some_iff.mpr ⟨v, hv, hrange, htold⟩]

theorem contentionError_of_silent {fs : FileSystem} {path : Path} {ref : FileRef} {c : Content}
    (h : fs.Shows path ref c) (hr : ¬ ∃ r, c.Tells r) (identity : String) :
    contentionError fs path identity = .contentionUnknown identity path := by
  rw [contentionError]
  cases hread : fs.readText path with
  | error e => rfl
  | ok text =>
    dsimp only
    cases hrecord : LockRecord.read? text with
    | none => rfl
    | some r =>
      obtain ⟨v, hv, hrange, htold⟩ := LockRecord.read?_eq_some_iff.mp hrecord
      exact absurd ⟨r, text, v, h.readText_eq_ok_iff.mp hread, hv, hrange, htold⟩ hr

/-- the file of a lock, with the directory above it, before it is tried -/
def prepare (path : Path) : Act σ LockError FileRef := do
  if let some dir := path.parent? then makeDirectories dir
  openFile path

theorem runIn_acquire (path : Path) (identity command : String) (wait : Duration) (w : World σ) :
    (acquire path identity command wait).runIn w =
      match (prepare path).runIn w with
      | (.ok ref, v) => (attempt ref path identity command wait).runIn v
      | (.error e, v) => (.error e, v) := by
  have hopen : ∀ u : World σ, (openFile path >>= fun ref =>
      attempt ref path identity command wait).runIn u =
        match (openFile path : Act σ LockError FileRef).runIn u with
        | (.ok ref, v) => (attempt ref path identity command wait).runIn v
        | (.error e, v) => (.error e, v) := by
    intro u
    rw [Act.runIn_bind]
    rcases (openFile path : Act σ LockError FileRef).runIn u with ⟨e | ref, v⟩ <;> rfl
  rw [acquire, prepare]
  cases path.parent? with
  | none => exact hopen w
  | some dir =>
    dsimp only
    rw [Act.runIn_bind, Act.runIn_bind]
    rcases (makeDirectories dir : Act σ LockError Unit).runIn w with ⟨e | ⟨⟩, v⟩
    · rfl
    · exact hopen v

theorem prepare_eq_ok {path : Path} {w v : World σ} {ref : FileRef}
    (h : (prepare path).runIn w = (.ok ref, v)) :
    w.Kept v ∧ v.pid = w.pid ∧ v.now = w.now ∧
      ∃ fs : FileSystem, fs.open path = .ok (ref, v.files) := by
  have hopen : ∀ u : World σ, (openFile path : Act σ LockError FileRef).runIn u = (.ok ref, v) →
      u.Kept v ∧ v.pid = u.pid ∧ v.now = u.now ∧
        ∃ fs : FileSystem, fs.open path = .ok (ref, v.files) := by
    intro u hu
    cases ho : u.files.open path with
    | error e =>
      rw [Act.runIn_openFile_error ho] at hu
      cases hu
    | ok x =>
      obtain ⟨ref', files⟩ := x
      rw [Act.runIn_openFile_ok ho] at hu
      cases hu
      exact ⟨⟨rfl, rfl⟩, rfl, rfl, u.files, ho⟩
  rw [prepare] at h
  cases hp : path.parent? with
  | none =>
    rw [hp] at h
    exact hopen w h
  | some dir =>
    rw [hp] at h
    dsimp only at h
    rw [Act.runIn_bind, Act.runIn_makeDirectories] at h
    cases hm : (w.files.makeDirectories dir).1 with
    | error e =>
      rw [hm] at h
      cases h
    | ok _ =>
      rw [hm] at h
      obtain ⟨⟨hlocked, hmeanwhile⟩, hrest⟩ :=
        hopen (w.note (.made dir) (w.files.makeDirectories dir).2) h
      exact ⟨⟨hlocked, hmeanwhile⟩, hrest⟩

theorem prepare_of_shows {path : Path} {w : World σ} {ref : FileRef} {c : Content}
    (h : w.files.Shows path ref c) : ∃ journal, (prepare path).runIn w = (.ok ref, w.telling journal) := by
  rw [prepare]
  cases hp : path.parent? with
  | none => exact ⟨_, Act.runIn_openFile_ok h.opened⟩
  | some dir =>
    dsimp only
    rw [Act.runIn_bind, Act.runIn_makeDirectories, h.makeDirectories hp]
    exact ⟨_, Act.runIn_openFile_ok (w := w.note (.made dir) w.files) h.opened⟩

end Lock

def World.atLimit (w : World σ) (wait : Duration) : World σ := if wait = .zero then w else w.yield

/-- Somebody holds the lock at a path, and its file holds these bytes. -/
structure World.IsHeld (w : World σ) (path : Path) (ref : FileRef) (c : Content) : Prop where
  held : ref ∈ w.locked
  shown : w.files.Shows path ref c

namespace Lock

/-- a lock that is taken is taken at once, or when the wait is over -/
theorem attempt_eq_ok {ref : FileRef} {path : Path} {identity command : String} {wait : Duration}
    {w w' : World σ} {l : Lock} (h : (attempt ref path identity command wait).runIn w = (.ok l, w')) :
    ∃ u, (u = w ∨ u = w.yield) ∧ (take ref path identity command).runIn u = (.ok l, w') := by
  rw [attempt, Act.runIn_ofFunction] at h
  split at h
  · exact ⟨w, .inl rfl, h⟩
  · split at h
    · cases h
    · split at h
      · exact ⟨w.yield, .inr rfl, h⟩
      · cases h

/-- whoever waits for a lock in vain changes nothing -/
theorem runIn_acquire_held {path : Path} {w : World σ} {ref : FileRef} {c c' : Content}
    {wait : Duration} (h : w.IsHeld path ref c) (h' : (w.atLimit wait).IsHeld path ref c')
    (identity command : String) :
    ∃ journal, (acquire path identity command wait).runIn w =
      (.error (contentionError (w.atLimit wait).files path identity),
        (w.atLimit wait).telling journal) := by
  obtain ⟨journal, hprepare⟩ := prepare_of_shows h.shown
  obtain ⟨journal', hyield⟩ := w.yield_telling journal
  rw [runIn_acquire, hprepare]
  dsimp only
  have hheld : ref ∈ (w.telling journal).locked := h.held
  rw [attempt, Act.runIn_ofFunction, if_neg (not_not.mpr hheld)]
  by_cases hwait : wait = .zero
  · rw [if_pos hwait, World.atLimit, if_pos hwait]
    exact ⟨journal, rfl⟩
  · have hstill : ref ∈ w.yield.locked := by
      have := h'.held
      rwa [World.atLimit, if_neg hwait] at this
    rw [if_neg hwait, hyield, World.atLimit, if_neg hwait]
    exact ⟨journal', if_neg (not_not.mpr hstill)⟩

end Lock

/-- the bytes that are put into a file are in it, also if its name is gone -/
theorem FileSystem.content?_setContent (fs : FileSystem) (ref : FileRef) (c : Content) :
    (fs.setContent ref c).content? ref = some c := by
  by_cases hfile : ∃ c', fs.node? ref.trail = some (.file ref.birth c')
  · obtain ⟨c', hfile⟩ := hfile
    have hset := congrFun (node?_setContent_self fs hfile c) ref.trail
    rw [Function.update_self] at hset
    rw [content?, hset]
    exact if_pos rfl
  · -- its name is gone or that of another file, and the bytes are kept apart
    have hother : ∀ birth content,
        fs.node? ref.trail = some (.file birth content) → birth ≠ ref.birth := by
      rintro birth content hnode rfl
      exact hfile ⟨content, hnode⟩
    let gone : FileSystem := { fs with nameless := (ref, c) :: fs.nameless.filter (·.1 ≠ ref) }
    have hset : fs.setContent ref c = gone := by
      rw [setContent]
      split
      · next birth content hnode => exact if_neg (hother birth content hnode)
      · rfl
    have hfound : gone.nameless.lookup ref = some c := by simp [gone]
    rw [hset, content?]
    split
    · next birth content hnode => rw [if_neg (hother birth content hnode), hfound]
    · exact hfound

/-! ## who holds a lock -/

namespace Lock

/-- the record of an operation that holds a lock -/
def holder (w : World σ) (identity command : String) : LockRecord :=
  ⟨LockRecord.currentVersion, w.pid, w.now, command, identity⟩

theorem holder_yield (w : World σ) (identity command : String) :
    holder w.yield identity command = holder w identity command := by
  unfold World.yield
  split <;> rfl

/-- what a lock that was taken leaves -/
theorem acquire_eq_ok {path : Path} {identity command : String} {wait : Duration} {w w' : World σ}
    {l : Lock} (h : (acquire path identity command wait).runIn w = (.ok l, w')) :
    l.path = path ∧ l.file ∈ w'.locked ∧
      w'.files.content? l.file = some (.ofText (holder w identity command).text) ∧
      (w.meanwhile = none → w'.meanwhile = none ∧ ∃ fs fs' : FileSystem,
        fs.open path = .ok (l.file, fs') ∧
          w'.files = fs'.setContent l.file (.ofText (holder w identity command).text)) := by
  rw [runIn_acquire] at h
  rcases hprepare : (prepare path : Act σ LockError FileRef).runIn w with ⟨e | ref, v⟩
  · rw [hprepare] at h
    cases h
  · rw [hprepare] at h
    obtain ⟨⟨-, hmeanwhile⟩, hpid, hnow, fs, hopen⟩ := prepare_eq_ok hprepare
    obtain ⟨u, hu, htake⟩ := attempt_eq_ok h
    have hholder : holder u identity command = holder w identity command := by
      have hv : holder v identity command = holder w identity command := by
        rw [holder, hpid, hnow]
        rfl
      rcases hu with rfl | rfl
      · exact hv
      · rw [holder_yield, hv]
    rw [← hholder]
    cases htake
    refine ⟨rfl, List.mem_cons_self, FileSystem.content?_setContent .., fun hnone => ?_⟩
    -- nobody comes in between, so the file is as it was opened
    have hv : v.meanwhile = none := hmeanwhile.trans hnone
    have he : u = v := by
      rcases hu with rfl | rfl
      · rfl
      · exact v.yield_of_none hv
    subst he
    exact ⟨hv, fs, u.files, hopen, rfl⟩

end Lock

/-- a file that was opened is still there once it is written -/
theorem FileSystem.shows_setContent {fs fs' : FileSystem} {path : Path} {ref : FileRef}
    (h : fs.open path = .ok (ref, fs')) (c : Content)
    (hcurrent : (fs'.setContent ref c).node? (fs'.setContent ref c).current = some .dir) :
    (fs'.setContent ref c).Shows path ref c := by
  obtain ⟨hdots, hslash⟩ := ends_of_open h
  obtain ⟨htrail, hopened⟩ := open_eq_ok h
  have hmade : Within {ref.trail} fs fs' ∧ ∃ c₀, fs'.node? ref.trail = some (.file ref.birth c₀) := by
    rcases hopened with ⟨rfl, c₀, hfile⟩ | ⟨hnone, hbirth, rfl⟩
    · exact ⟨.refl _ _, c₀, hfile⟩
    · have hne : ref.trail ≠ [] := fun e => by
        rw [e] at hnone
        cases hnone
      have hnode := node?_create_eq fs hne .empty
      refine ⟨.of_update (by simp [hnone]) hnode rfl, .empty, ?_⟩
      rw [hnode, Function.update_self, hbirth]
  obtain ⟨hwithin, c₀, hfile⟩ := hmade
  have hset := within_setContent fs' ref c
  have hnode : (fs'.setContent ref c).node? ref.trail = some (.file ref.birth c) := by
    rw [node?_setContent_self fs' hfile c, Function.update_self]
  have htrail' := trail?_within hset (trail?_within hwithin htrail)
  obtain ⟨hu, -⟩ := trail?_eq_ok htrail
  obtain ⟨name, hname, hchars⟩ := exists_name hu hslash hdots
  refine ⟨open_of_file hdots hslash htrail' hnode, ?_, content?_setContent fs' ref c⟩
  refine node?_of_walk ?_ (walk_of_trail? hname hchars htrail')
  rw [start]
  split
  · rfl
  · exact hcurrent

/-- Lock files tell the truth.  Whatever was in the file of a lock, once the lock is taken the record of
its holder is in it and nothing else, and is read back; unless somebody came in between, it is to be read
at the path of the lock.  As long as the lock is held and its file stays as it is, whoever waits for it in
vain is told of that holder, and changes nothing.  Whoever waits in vain for any lock is told what its file
tells, and otherwise that it tells nothing. -/
theorem lock_files_tell_holder {σ : Type} {path : Path} {identity command : String} {wait : Duration}
    {w w' : World σ} {l : Lock} (hpid : w.pid ≤ LockRecord.maxNumber)
    (hnow : w.now ≤ LockRecord.maxTime)
    (h : (Lock.acquire path identity command wait).runIn w = (.ok l, w')) :
    let r : LockRecord := ⟨LockRecord.currentVersion, w.pid, w.now, command, identity⟩
    let text : Content := .ofText r.toJson.pretty
    (l.path = path ∧ l.file ∈ w'.locked ∧ w'.files.content? l.file = some text ∧
      l.record? w'.files = some r ∧
      (w.meanwhile = none → w'.files.node? w'.files.current = some .dir →
        w'.meanwhile = none ∧ w'.IsHeld path l.file text)) ∧
    ∀ (v : World σ) (identity' command' : String) (wait' : Duration),
      (v.IsHeld path l.file text → (v.atLimit wait').IsHeld path l.file text →
        ∃ v', (Lock.acquire path identity' command' wait').runIn v =
            (.error (.contention identity' command w.pid (Lock.startedText w.now) path), v') ∧
          v'.files = (v.atLimit wait').files ∧ v'.files.content? l.file = some text) ∧
      ∀ (ref : FileRef) (c c' : Content), v.IsHeld path ref c → (v.atLimit wait').IsHeld path ref c' →
        ∃ e v', (Lock.acquire path identity' command' wait').runIn v = (.error e, v') ∧
          v'.files = (v.atLimit wait').files ∧
          ((∃ r', c'.Tells r' ∧
              e = .contention identity' r'.command r'.pid (Lock.startedText r'.started) path) ∨
            (¬ ∃ r', c'.Tells r') ∧ e = .contentionUnknown identity' path) := by
  intro r text
  obtain ⟨hpath, hlocked, hcontent, hopened⟩ := Lock.acquire_eq_ok h
  have hrange : r.InRange := ⟨show LockRecord.currentVersion ≤ _ by decide, hpid, hnow⟩
  have hread : LockRecord.read? r.toJson.pretty = some r := LockRecord.read?_text hrange
  refine ⟨⟨hpath, hlocked, hcontent, ?_, fun hnone hcurrent => ?_⟩,
    fun v identity' command' wait' => ⟨?_, ?_⟩⟩
  · rw [Lock.record?, hcontent]
    show (Content.text? _ >>= LockRecord.read?) = _
    rw [Content.text?_ofText]
    exact hread
  · obtain ⟨hnone', fs, fs', hopen, hfiles⟩ := hopened hnone
    rw [hfiles] at hcurrent
    have hshows := FileSystem.shows_setContent hopen _ hcurrent
    rw [← hfiles] at hshows
    exact ⟨hnone', hlocked, hshows⟩
  · intro hheld hlimit
    obtain ⟨journal, hrun⟩ := Lock.runIn_acquire_held hheld hlimit identity' command'
    obtain ⟨u, hu, htold⟩ := LockRecord.read?_eq_some_iff.mp hread
    have htells : text.Tells r := ⟨_, u, Content.text?_ofText _, hu, htold⟩
    rw [Lock.contentionError_of_tells hlimit.shown htells] at hrun
    exact ⟨_, hrun, rfl, hlimit.shown.content⟩
  · intro ref c c' hheld hlimit
    obtain ⟨journal, hrun⟩ := Lock.runIn_acquire_held hheld hlimit identity' command'
    refine ⟨_, _, hrun, rfl, ?_⟩
    by_cases hr : ∃ r', c'.Tells r'
    · obtain ⟨r', hr'⟩ := hr
      exact .inl ⟨r', hr', Lock.contentionError_of_tells hlimit.shown hr' identity'⟩
    · exact .inr ⟨hr, Lock.contentionError_of_silent hlimit.shown hr identity'⟩

/-- a directory with the file of a lock that somebody else held, and wrote more into -/
def World.relocked : World Unit where
  files :=
    { nodes := [(["s"], .dir),
        (["a.lock", "s"], .file 0 (.ofText "a longer text from somebody else, and more of it"))],
      births := 1 }
  tools := ()
  pid := 7
  now := 3

/-- a lock is taken over, and refused to the next one -/
theorem lock_files_tell_holder_relocked :
    let path : Path := ⟨"/s/a.lock"⟩
    ∃ l w', (Lock.acquire path "a" "say \"hi\"" .zero).runIn World.relocked = (.ok l, w') ∧
      l.record? w'.files = some ⟨1, 7, 3, "say \"hi\"", "a"⟩ ∧
      ∃ v', (Lock.acquire path "a" "wait" .zero).runIn w' =
        (.error (.contention "a" "say \"hi\"" 7 (Lock.startedText 3) path), v') ∧
          v'.files = w'.files := by
  intro path
  obtain ⟨l, hl⟩ : ∃ l, ((Lock.acquire path "a" "say \"hi\"" .zero).runIn World.relocked).1 = .ok l :=
    ⟨⟨⟨["a.lock", "s"], 0⟩, path⟩, by decide +kernel⟩
  have hrun := Prod.ext (y := (Except.ok l, _)) hl rfl
  obtain ⟨⟨-, -, -, hrecord, hheld⟩, hothers⟩ :=
    lock_files_tell_holder (by decide) (by decide) hrun
  obtain ⟨-, hheld⟩ := hheld rfl (by decide +kernel)
  obtain ⟨v', hrun', hfiles, -⟩ := (hothers _ "a" "wait" .zero).1 hheld hheld
  exact ⟨l, _, hrun, hrecord, v', hrun', hfiles⟩

end DiskLayers
