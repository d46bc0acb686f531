import DiskLayers.Proofs.Entries

/-!
# Changes that stay within some trails

`Within T fs fs'`: the second file system comes from the first by changes at trails of `T` that
take no directory away.  Paths of directories then lead where they led (`Within.lookup_dir`), and
so do paths that end in a name whose trail is not in `T` (`Within.found?_join`).
-/

namespace DiskLayers.FileSystem
open DiskLayers.Path

/-- The second file system comes from the first by changes at some trails that take no directory
away. -/
structure Within (T : Set Trail) (fs fs' : FileSystem) : Prop where
  same : ∀ t ∉ T, fs'.node? t = fs.node? t
  dirs : ∀ t, fs.node? t = some .dir → fs'.node? t = some .dir
  current : fs'.current = fs.current

namespace Within
variable {T U : Set Trail} {fs fs' fs'' : FileSystem}

theorem refl (T : Set Trail) (fs : FileSystem) : Within T fs fs :=
  ⟨fun _ _ => rfl, fun _ h => h, rfl⟩

theorem trans (h : Within T fs fs') (h' : Within T fs' fs'') : Within T fs fs'' :=
  ⟨fun t ht => (h'.same t ht).trans (h.same t ht), fun t ht => h'.dirs t (h.dirs t ht),
   h'.current.trans h.current⟩

theorem mono (h : Within T fs fs') (hTU : T ⊆ U) : Within U fs fs' :=
  ⟨fun t ht => h.same t (fun h' => ht (hTU h')), h.dirs, h.current⟩

theorem of_singleton {t : Trail} (h : Within {t} fs fs') (ht : t ∈ T) : Within T fs fs' := by
  refine h.mono fun u hu => ?_
  have e : u = t := hu
  rw [e]
  exact ht

/-- one trail that bears no directory gets another entry, or loses the one it has -/
theorem of_update {t : Trail} {n : Option Node} (hd : fs.node? t ≠ some .dir)
    (hn : fs'.node? = Function.update fs.node? t n) (hc : fs'.current = fs.current) :
    Within {t} fs fs' := by
  refine ⟨fun u hu => ?_, fun u hu => ?_, hc⟩
  · rw [hn, Function.update_of_ne hu]
  · have : u ≠ t := fun e => hd (e ▸ hu)
    rw [hn, Function.update_of_ne this]
    exact hu

theorem of_set_dir {t : Trail} (ht : t ≠ []) (hn : fs.node? t = none) :
    Within {t} fs (fs.set t .dir) :=
  of_update (by rw [hn]; simp) (node?_set_eq fs ht _) rfl

theorem start (h : Within T fs fs') (p : Path) : fs'.start p = fs.start p := by
  rw [FileSystem.start, FileSystem.start, h.current]

theorem walk (h : Within T fs fs') {here d : Trail} {ns : List (List Char)}
    (hw : fs.walk here ns = .ok d) : fs'.walk here ns = .ok d := by
  induction ns generalizing here with
  | nil => exact hw
  | cons n ns ih =>
    have hw' : (fs.descend? here n).bind (fs.walk · ns) = .ok d := hw
    cases hd : fs.descend? here n with
    | error e => rw [hd] at hw'; cases hw'
    | ok t =>
      rw [hd] at hw'
      obtain ⟨hc, hn⟩ := descend?_eq_ok.mp hd
      show (fs'.descend? here n).bind (fs'.walk · ns) = .ok d
      rw [descend?_eq_ok.mpr ⟨hc, h.dirs t hn⟩]
      exact ih hw'

/-- a path that leads to a directory still leads there -/
theorem lookup_dir (h : Within T fs fs') {p : Path} {d : Trail}
    (hp : fs.lookup p = .ok (d, .dir)) : fs'.lookup p = .ok (d, .dir) := by
  obtain ⟨hu, hw, hd⟩ := lookup_eq_dir.mp hp
  refine lookup_eq_dir.mpr ⟨hu, ?_, h.dirs d hd⟩
  rw [h.start]
  exact h.walk hw

/-- the entry behind a name that nothing was changed at -/
theorem found?_join (h : Within T fs fs') {p : Path} {d : Trail} {name : String}
    (hp : fs.lookup p = .ok (d, .dir)) (hn : IsPlain name.toList) (ht : name :: d ∉ T) :
    fs'.found? (p.join name) = fs.found? (p.join name) := by
  rw [FileSystem.found?_join (h.lookup_dir hp) hn, FileSystem.found?_join hp hn, h.same _ ht]

end Within

/-! ## what the operations on files change -/

section
variable {fs fs' : FileSystem} {p : Path} {d : Trail} {name : String}
  (h : fs.lookup p = .ok (d, .dir)) (hn : IsPlain name.toList)
include h hn

theorem within_write {c : Content} (hw : fs.write (p.join name) c = .ok fs') :
    Within {name :: d} fs fs' := by
  rcases write_join_cases h hn c with ⟨e, he⟩ | ⟨-, hd, b, fs₁, he, hcur, hnode⟩
  · rw [he] at hw; cases hw
  · rw [he] at hw
    cases hw
    exact Within.of_update hd hnode hcur

theorem remove_join_eq_ok (hr : fs.remove (p.join name) = .ok fs') :
    p.Fits name ∧ (∃ b c, fs.node? (name :: d) = some (.file b c)) ∧
      fs'.node? = Function.update fs.node? (name :: d) none ∧ fs'.current = fs.current := by
  rw [remove_join h hn] at hr
  split at hr
  · next hf =>
    split at hr
    · cases hr
    · cases hr
    · next b c hb =>
      cases hr
      exact ⟨hf, ⟨b, c, hb⟩, node?_unname_eq fs hb, current_unname fs _⟩
  · cases hr

theorem within_remove (hr : fs.remove (p.join name) = .ok fs') : Within {name :: d} fs fs' := by
  obtain ⟨-, ⟨b, c, hb⟩, hnode, hcur⟩ := remove_join_eq_ok h hn hr
  exact Within.of_update (by rw [hb]; simp) hnode hcur

/-- a directory in a directory that is there takes no step up -/
theorem makeDirectoriesWithin_join (steps : Nat) :
    fs.makeDirectoriesWithin (steps + 1) (p.join name) = fs.ensureDirectory (p.join name) := by
  have ht : (p.join name).text ≠ "" := by
    intro e
    have hc : (p.join name).chars = [] := by rw [chars, e]; rfl
    rw [chars_join] at hc
    exact joinChars_ne_nil hn hc
  have hr : refusal? (fs.makeDirectory (p.join name)) ≠ some .notFound := by
    rw [makeDirectory_join h hn]
    by_cases hf : p.Fits name
    · rw [if_pos hf]
      split
      · simp [refusal?]
      · exact fun e => absurd (Option.some.inj e) (by decide)
    · rw [if_neg hf]
      exact fun e => absurd (Option.some.inj e) (by decide)
  rw [makeDirectoriesWithin, if_neg ht, if_neg hr]

/-- a directory in a directory that is there -/
theorem makeDirectories_join :
    fs.makeDirectories (p.join name) =
      if p.Fits name then
        match fs.node? (name :: d) with
        | none => (.ok (), fs.set (name :: d) .dir)
        | some .dir => (.ok (), fs)
        | some (.file _ _) => (.error .alreadyExists, fs)
      else (.error .nameTooLong, fs) := by
  rw [makeDirectories, makeDirectoriesWithin_join h hn, ensureDirectory, makeDirectory_join h hn]
  by_cases hf : p.Fits name
  · rw [if_pos hf, if_pos hf]
    cases hnode : fs.node? (name :: d) with
    | none => rfl
    | some n =>
      have hdir : fs.isDir (p.join name) = !n.isFile := by
        rw [isDir, lookup_join h hn, if_pos hf, hnode]
      rw [if_neg (by simp)]
      show (if fs.isDir (p.join name) = true then Except.ok () else .error SystemError.alreadyExists, fs) = _
      rw [hdir]
      cases n <;> rfl
  · rw [if_neg hf, if_neg hf]
    have hdir : fs.isDir (p.join name) = false := by
      rw [isDir, lookup_join h hn, if_neg hf]
    show (if fs.isDir (p.join name) = true then Except.ok () else .error SystemError.nameTooLong, fs) = _
    rw [hdir]
    rfl

theorem within_makeDirectories :
    Within {name :: d} fs (fs.makeDirectories (p.join name)).2 := by
  rw [makeDirectories_join h hn]
  by_cases hf : p.Fits name
  · rw [if_pos hf]
    cases hnode : fs.node? (name :: d) with
    | none => exact Within.of_set_dir (List.cons_ne_nil _ _) hnode
    | some n => cases n <;> exact Within.refl _ fs
  · rw [if_neg hf]
    exact Within.refl _ fs

/-- where a directory could be made there is one -/
theorem lookup_makeDirectories (hok : (fs.makeDirectories (p.join name)).1 = .ok ()) :
    (fs.makeDirectories (p.join name)).2.lookup (p.join name) = .ok (name :: d, .dir) := by
  have h' := (within_makeDirectories h hn).lookup_dir h
  rw [makeDirectories_join h hn] at hok h' ⊢
  by_cases hf : p.Fits name
  · rw [if_pos hf] at hok h' ⊢
    rw [lookup_join h' hn, if_pos hf]
    cases hnode : fs.node? (name :: d) with
    | none =>
      dsimp only
      rw [node?_set fs (List.cons_ne_nil _ _), if_pos rfl]
    | some n =>
      rw [hnode] at hok
      cases n with
      | dir =>
        dsimp only
        rw [hnode]
      | file b c => cases hok
  · rw [if_neg hf] at hok
    cases hok

theorem within_open {ref : FileRef} (ho : fs.open (p.join name) = .ok (ref, fs')) :
    Within {name :: d} fs fs' ∧ ref.trail = name :: d := by
  rcases open_join_cases h hn with ⟨e, he⟩ | ⟨-, hd, b, c, fs₁, he, hcur, hnode⟩
  · rw [he] at ho; cases ho
  · rw [he] at ho
    cases ho
    exact ⟨Within.of_update hd hnode hcur, rfl⟩

end

theorem within_setContent (fs : FileSystem) (r : FileRef) (c : Content) :
    Within {r.trail} fs (fs.setContent r c) :=
  ⟨fun _ ht => node?_setContent fs r c ht, fun _ ht => isDirAt_setContent fs r c ht,
   current_setContent fs r c⟩

end DiskLayers.FileSystem
