import DiskLayers.Proofs.Builds

/-!
# Stores that are there already

* `Store.opening`   the moments of opening a store whose directories are there
* `World.reopened`  the world after that; only the journal is longer
* `resume`          the rest of a build, after what a context tells
* `Store.IsEmpty`   the four directories are there and hold nothing

`open_runIn` says that a store that is there is opened without any change, and `build_runIn_reopened`
that a build then begins with its first operation.
-/

namespace DiskLayers
open DiskLayers.Path

/-! ## opening once more -/

def Store.opening (s : Store) (fs : FileSystem) : List Moment :=
  Store.directories.map fun dir => ⟨.made (s.root.join dir), fs, fs⟩

/-- the world after a store that is there was opened -/
def World.reopened (w : World σ) (s : Store) : World σ :=
  { w with journal := w.journal ++ s.opening w.files }

theorem Store.after_of_mem_opening {s : Store} {fs : FileSystem} {m : Moment}
    (h : m ∈ s.opening fs) : m.after = fs := by
  obtain ⟨dir, -, rfl⟩ := List.mem_map.mp h
  rfl

theorem Store.answersOf_opening (s : Store) (fs : FileSystem) : answersOf (s.opening fs) = [] := rfl

theorem World.calls_reopened (w : World σ) (s : Store) : (w.reopened s).calls = w.calls := by
  rw [World.calls, World.calls, callsOf_eq, callsOf_eq, World.reopened]
  dsimp only
  rw [answersOf_append, Store.answersOf_opening, List.append_nil]

section
variable {s : Store} {r : Trail} {fs : FileSystem}

/-- a directory that is there is not made again -/
theorem FileSystem.makeDirectories_of_lookup {p : Path} {d t : Trail} {name : String}
    (h : fs.lookup p = .ok (d, .dir)) (hn : IsPlain name.toList)
    (hl : fs.lookup (p.join name) = .ok (t, .dir)) :
    fs.makeDirectories (p.join name) = (.ok (), fs) := by
  rw [lookup_join h hn] at hl
  rw [makeDirectories_join h hn]
  by_cases hf : p.Fits name
  · rw [if_pos hf] at hl ⊢
    cases hnode : fs.node? (name :: d) with
    | none =>
      rw [hnode] at hl
      cases hl
    | some n =>
      rw [hnode] at hl
      cases n with
      | dir => rfl
      | file b c => cases hl
  · rw [if_neg hf] at hl
    cases hl

/-- a store that is there is opened without any change -/
theorem open_runIn {w : World σ} {root : Path} (hs : s.StandsAt r w.files)
    (ha : s.root.isAbsolute = true) (h : root.absolute? w.files.currentPath = some s.root) :
    (Store.open root : Act σ StoreError Store).runIn w = (.ok s, w.reopened s) := by
  have hroot := hs.root ha
  have hmake : ∀ (journal : List Moment) {dir : String}, dir ∈ Store.directories →
      (Store.makeDirectories (s.root.join dir) : Act σ StoreError Unit).runIn
          { w with journal := journal } =
        (.ok (), { w with journal := journal ++ [⟨.made (s.root.join dir), w.files, w.files⟩] }) := by
    intro journal dir hd
    have hdir := FileSystem.makeDirectories_of_lookup hroot
      (Store.isPlain_of_mem_directories hd) (hs dir hd)
    rw [Store.makeDirectories, Act.runIn_ofFunction]
    dsimp only
    rw [hdir]
    rfl
  have hall : (Store.open root : Act σ StoreError Store).runIn w =
      (.ok s, { w with journal := (((w.journal ++ [⟨.made (s.root.join Store.layersDir), w.files, w.files⟩])
        ++ [⟨.made (s.root.join Store.tagsDir), w.files, w.files⟩])
        ++ [⟨.made (s.root.join Store.instancesDir), w.files, w.files⟩])
        ++ [⟨.made (s.root.join Store.locksDir), w.files, w.files⟩] }) := by
    rw [Store.open, Act.runIn_bind, Act.runIn_inspect]
    dsimp only
    rw [h]
    dsimp only
    rw [Act.runIn_bind, hmake w.journal (by simp [Store.directories])]
    dsimp only
    rw [Act.runIn_bind, hmake _ (by simp [Store.directories])]
    dsimp only
    rw [Act.runIn_bind, hmake _ (by simp [Store.directories])]
    dsimp only
    rw [Act.runIn_bind, hmake _ (by simp [Store.directories])]
    rfl
  rw [hall, World.reopened]
  simp only [List.append_assoc]
  rfl

/-- a build in a store that is there goes through the operations, and sets the tag -/
theorem build_runIn_reopened {backend : Backend σ} {config : BuildConfig} {ops : List Operation}
    {tag : Option String} {w : World σ} (hs : s.StandsAt r w.files)
    (ha : s.root.isAbsolute = true)
    (h : config.storeRoot.absolute? w.files.currentPath = some s.root) (hne : ops ≠ [])
    (htag : ∀ name, tag = some name → isValidName name = true) :
    (build backend config ops tag).runIn w =
      (resume backend s config {} ops tag).runIn (w.reopened s) := by
  rw [build_runIn backend config ops tag w hne htag, open_runIn hs ha h]
  rfl

theorem completed_reopened {backend : Backend σ} {config : BuildConfig} {ops : List Operation}
    {tag : Option String} {w : World σ} (hs : s.StandsAt r w.files)
    (ha : s.root.isAbsolute = true)
    (h : config.storeRoot.absolute? w.files.currentPath = some s.root) :
    completed backend config ops tag w =
      ((buildIn backend s config ops tag).runIn {} (w.reopened s)).1.2.steps := by
  rw [completed, open_runIn hs ha h]

/-- how a build ends in a store that is there: it is refused at once, or it is raised -/
theorem ends_build_standing {backend : Backend σ} {config : BuildConfig} {ops : List Operation}
    {tag : Option String} {w : World σ} (hb : backend.Confined) (hl : backend.LeavesFiles)
    (hu : w.Undisturbed) (hs : s.StandsAt r w.files) (ha : s.root.isAbsolute = true)
    (h : config.storeRoot.absolute? w.files.currentPath = some s.root) :
    (build backend config ops tag).Ends w fun res ms w' => w.Leaves r w' ∧
      ((ms = [] ∧ w' = w ∧ (∃ e, res = .error (.script e)) ∧
          (ops = [] ∨ ∃ name, tag = some name ∧ isValidName name = false)) ∨
        ∃ ms', ms = s.opening w.files ++ ms' ∧ Raised backend s r config.force ops tag w.files res
          (completed backend config ops tag w) ms' w'.files) := by
  by_cases hne : ops = []
  · rw [hne]
    exact Act.ends_of_runIn (build_of_nil backend config tag w)
      ⟨.refl r w, Or.inl ⟨rfl, rfl, ⟨_, rfl⟩, Or.inl rfl⟩⟩
  by_cases htag : ∀ name, tag = some name → isValidName name = true
  · have hlink : Linked w.files (s.opening w.files) w.files := by
      have hall : ∀ dirs : List String, Linked w.files (dirs.map fun dir =>
          (⟨.made (s.root.join dir), w.files, w.files⟩ : Moment)) w.files := by
        intro dirs
        induction dirs with
        | nil => rfl
        | cons dir dirs ih => exact ⟨rfl, ih⟩
      exact hall Store.directories
    obtain ⟨ms, hj, hlink', hleaves, hraised⟩ :=
      ends_resume (w := w.reopened s) config ops tag hb hl hs hu hne htag
    rw [Act.Ends, build_runIn_reopened hs ha h hne htag]
    have hleft : w.Leaves r ((resume backend s config {} ops tag).runIn (w.reopened s)).2 :=
      ⟨hleaves.undisturbed, fun hc => hleaves.clear ⟨hc.free, hc.tidy⟩⟩
    rw [← completed_reopened hs ha h] at hraised
    refine ⟨s.opening w.files ++ ms, ?_, hlink.append hlink', hleft, Or.inr ⟨ms, rfl, hraised⟩⟩
    rw [← List.append_assoc]
    exact hj
  · obtain ⟨name, hname⟩ := not_forall.mp htag
    obtain ⟨rfl, hv⟩ := Classical.not_imp.mp hname
    have hv := Bool.eq_false_iff.mpr hv
    exact Act.ends_of_runIn (build_of_invalidTag backend config ops w hne hv)
      ⟨.refl r w, Or.inl ⟨rfl, rfl, ⟨_, rfl⟩, Or.inr ⟨name, rfl, hv⟩⟩⟩

/-! ## empty stores -/

def Store.IsEmpty (s : Store) (fs : FileSystem) : Prop :=
  ∀ dir ∈ directories, fs.readDirectory (s.root.join dir) = .ok []

instance (s : Store) (fs : FileSystem) : Decidable (s.IsEmpty fs) :=
  inferInstanceAs (Decidable (∀ dir ∈ Store.directories, _))

/-- a name is in a directory if there is an entry of that name -/
theorem FileSystem.mem_children {t : Trail} {name : String} :
    name ∈ fs.children t ↔ fs.node? (name :: t) ≠ none := by
  have hmem : fs.node? (name :: t) ≠ none ↔ ∃ e ∈ fs.nodes, e.1 = name :: t := by
    rw [node?, if_neg (List.cons_ne_nil _ _)]
    generalize fs.nodes = nodes
    induction nodes with
    | nil => simp
    | cons e nodes ih =>
      by_cases he : name :: t = e.1
      · simp [he]
      · rw [List.lookup_cons, beq_eq_false_iff_ne.mpr he]
        simp only [ih, List.mem_cons, exists_eq_or_imp, eq_comm (a := e.1), he, false_or]
  rw [hmem, children, List.mem_mergeSort, List.mem_eraseDups, List.mem_filterMap]
  constructor
  · rintro ⟨⟨u, n⟩, he, hu⟩
    cases u with
    | nil => cases hu
    | cons k above =>
      dsimp only at hu
      split at hu
      · next habove =>
        cases hu
        exact ⟨_, he, by rw [habove]⟩
      · cases hu
  · rintro ⟨⟨u, n⟩, he, rfl⟩
    exact ⟨_, he, if_pos rfl⟩

/-- an empty store is there -/
theorem Store.IsEmpty.standsAt (h : s.IsEmpty fs) (ha : s.root.isAbsolute = true) :
    ∃ r, s.StandsAt r fs := by
  refine standsAt_of_isDir ha fun dir hd => ?_
  have hread := h dir hd
  rw [FileSystem.readDirectory] at hread
  rw [FileSystem.isDir]
  cases hl : fs.lookup (s.root.join dir) with
  | error e =>
    rw [hl] at hread
    cases hread
  | ok e =>
    obtain ⟨t, n⟩ := e
    rw [hl] at hread
    cases n with
    | dir => rfl
    | file b c => cases hread

/-- in a directory of an empty store there is nothing -/
theorem Store.IsEmpty.node? (h : s.IsEmpty fs) (hs : s.StandsAt r fs) {dir : String}
    (hd : dir ∈ directories) (name : String) : fs.node? (name :: dir :: r) = none := by
  have hread := h dir hd
  rw [FileSystem.readDirectory, hs dir hd] at hread
  have hnone : fs.children (dir :: r) = [] := Except.ok.inj hread
  by_contra hne
  have hmem := FileSystem.mem_children.mpr hne
  rw [hnone] at hmem
  cases hmem

end

end DiskLayers
