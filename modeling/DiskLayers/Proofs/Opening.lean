import DiskLayers.Proofs.Layout
import DiskLayers.Proofs.Runs

/-!
# Opening a store

* `FileSystem.Grown`        directories were made, none deeper than a bound, and nothing else changed
* `FileSystem.WellFormed`   every entry stands in a directory
* `Path.IsStraight`         no name of a path leads up
* `Path.IsSettled`          a path that is straight, or leads to a directory already

`ends_open` says what opening a store changes.  If the path of the store is settled, what is in the
store cannot be told from before (`found?_of_opened`).
-/

namespace DiskLayers
open DiskLayers.Path DiskLayers.Text

/-! ## the path above a path -/

namespace Path

/-- the last name stands behind the pieces before it -/
theorem lastName_eq_some {pieces before : List (List Char)} {name : List Char}
    (h : lastName pieces = some (name, before)) :
    name ≠ [] ∧ ∃ voids, pieces = voids ++ name :: before := by
  induction pieces with
  | nil => cases h
  | cons piece rest ih =>
    cases rest with
    | nil =>
      rw [lastName] at h
      split at h
      · cases h
      · next hne =>
        cases h
        exact ⟨by simpa using hne, [], rfl⟩
    | cons q rest =>
      rw [lastName] at h
      · split at h
        · obtain ⟨hne, voids, hv⟩ := ih h
          exact ⟨hne, piece :: voids, by rw [hv]; rfl⟩
        · next hvoid =>
          cases h
          refine ⟨fun e => hvoid ?_, [], rfl⟩
          rw [e]
          rfl
      · exact List.cons_ne_nil _ _

theorem dropVoid_eq (pieces : List (List Char)) :
    ∃ dropped, pieces = dropped ++ dropVoid pieces ∧ ∀ piece ∈ dropped, isVoid piece = true := by
  induction pieces with
  | nil => exact ⟨[], rfl, by simp⟩
  | cons piece rest ih =>
    cases rest with
    | nil => exact ⟨[], rfl, by simp⟩
    | cons q rest =>
      rw [dropVoid]
      · split
        · next hvoid =>
          obtain ⟨dropped, he, hdropped⟩ := ih
          refine ⟨piece :: dropped, by rw [List.cons_append, ← he], ?_⟩
          intro x hx
          rcases List.mem_cons.mp hx with rfl | hx
          · exact hvoid
          · exact hdropped x hx
        · exact ⟨[], rfl, by simp⟩
      · exact List.cons_ne_nil _ _

theorem dropVoid_suffix (pieces : List (List Char)) : dropVoid pieces <:+ pieces := by
  obtain ⟨dropped, he, -⟩ := dropVoid_eq pieces
  exact ⟨dropped, he.symm⟩

theorem dropVoid_ne_nil {pieces : List (List Char)} (h : pieces ≠ []) : dropVoid pieces ≠ [] := by
  induction pieces with
  | nil => exact absurd rfl h
  | cons piece rest ih =>
    cases rest with
    | nil => exact List.cons_ne_nil _ _
    | cons q rest =>
      rw [dropVoid]
      · split
        · exact ih (List.cons_ne_nil _ _)
        · exact List.cons_ne_nil _ _
      · exact List.cons_ne_nil _ _

theorem splitAll_of_isAbsolute {p : Path} (hp : p.isAbsolute = true) :
    ∃ rest, splitAll '/' p.chars = [] :: rest := by
  rw [isAbsolute, decide_eq_true_eq] at hp
  cases hc : p.chars with
  | nil => rw [hc] at hp; cases hp
  | cons c cs =>
    rw [hc] at hp
    exact ⟨_, by rw [Option.some.inj hp, splitAll_self]⟩

theorem isPrefix_of_split {cs name : List Char} {before : List (List Char)}
    (h : split cs = some (name, before)) : (dropVoid before).reverse <+: splitAll '/' cs := by
  obtain ⟨-, voids, hv⟩ := lastName_eq_some h
  obtain ⟨dropped, hd⟩ := dropVoid_suffix before
  refine ⟨dropped.reverse ++ name :: voids.reverse, ?_⟩
  have hbefore : before.reverse = (dropVoid before).reverse ++ dropped.reverse := by
    rw [← List.reverse_append, hd]
  rw [← List.reverse_reverse (splitAll '/' cs), hv, List.reverse_append, List.reverse_cons, hbefore]
  simp only [List.append_assoc, List.cons_append, List.nil_append]

theorem before_ne_nil_of_isAbsolute {p : Path} (hp : p.isAbsolute = true) {name : List Char}
    {before : List (List Char)} (h : split p.chars = some (name, before)) : before ≠ [] := by
  rintro rfl
  obtain ⟨rest, hrest⟩ := splitAll_of_isAbsolute hp
  obtain ⟨hname, voids, hv⟩ := lastName_eq_some h
  rw [hrest, List.reverse_cons] at hv
  have hlast : [[]] = [name] := List.append_inj_right' hv rfl
  exact hname (List.cons.inj hlast).1.symm

/-- the path above an absolute path is absolute and has no more names -/
theorem parent?_eq_some {p q : Path} (hp : p.isAbsolute = true) (h : p.parent? = some q) :
    q.isAbsolute = true ∧ (names q.chars).length ≤ (names p.chars).length := by
  rw [parent?, Option.map_eq_some_iff] at h
  obtain ⟨⟨name, before⟩, hs, hq⟩ := h
  dsimp only at hq
  have hkept := isPrefix_of_split hs
  obtain ⟨x, rest, hrest⟩ : ∃ x rest, (dropVoid before).reverse = x :: rest :=
    List.exists_cons_of_ne_nil fun h =>
      dropVoid_ne_nil (before_ne_nil_of_isAbsolute hp hs) (List.reverse_eq_nil_iff.mp h)
  have hx : x = [] := by
    obtain ⟨all, hall⟩ := splitAll_of_isAbsolute hp
    rw [hall, hrest] at hkept
    exact (List.cons_prefix_cons.mp hkept).1
  have hslash : ∀ piece ∈ (dropVoid before).reverse, '/' ∉ piece := fun piece hpiece =>
    not_mem_of_mem_splitAll (hkept.subset hpiece)
  split at hq
  · subst hq
    exact ⟨rfl, Nat.zero_le _⟩
  · next hpieces =>
    subst hq
    rw [isAbsolute, chars_ofChars, names, names, splitAll_joinWith (by rw [hrest]; simp) hslash]
    refine ⟨?_, (hkept.sublist.filter _).length_le⟩
    rw [hrest, hx]
    cases rest with
    | nil =>
      refine absurd ?_ hpieces
      rw [← List.reverse_reverse (dropVoid before), hrest, hx]
      rfl
    | cons y rest => rfl

/-- a path that can be that of a file ends in a plain name -/
theorem exists_name {p : Path} (hp : p.IsUsable) (hslash : endsInSlash p.chars = false)
    (hdots : endsInDots p.chars = false) :
    ∃ name, IsPlain name ∧ (p.chars = name ∨ ∃ front, p.chars = front ++ '/' :: name) := by
  obtain ⟨before, name, hsplit⟩ : ∃ before name, splitAll '/' p.chars = before ++ [name] := by
    rcases List.eq_nil_or_concat (splitAll '/' p.chars) with h | ⟨before, name, h⟩
    · exact absurd h (splitAll_ne_nil '/' _)
    · exact ⟨before, name, by rw [h, List.concat_eq_append]⟩
  have hchars : p.chars = name ∨ ∃ front, p.chars = front ++ '/' :: name := by
    rw [← joinWith_splitAll '/' p.chars, hsplit]
    by_cases hb : before = []
    · rw [hb]
      exact .inl rfl
    · exact .inr ⟨_, joinWith_append '/' hb (List.cons_ne_nil _ _)⟩
  have hne : name ≠ [] := by
    rintro rfl
    rcases hchars with h | ⟨front, h⟩
    · exact hp.ne_nil h
    · rw [h] at hslash
      simp [endsInSlash] at hslash
  have hlast : ((splitAll '/' p.chars).filter (!·.isEmpty)).getLast? = some name := by
    have : [name].filter (!·.isEmpty) = [name] := by simp [hne]
    rw [hsplit, List.filter_append, this, List.getLast?_concat]
  simp only [endsInDots, hlast, Bool.or_eq_false_iff, decide_eq_false_iff_not] at hdots
  refine ⟨name, ⟨hne, ?_, fun hz => hp.no_nul ?_, hdots.1, hdots.2⟩, hchars⟩
  · exact not_mem_of_mem_splitAll (hsplit ▸ List.mem_append_right _ (List.mem_singleton_self _))
  · rcases hchars with h | ⟨front, h⟩
    · exact h ▸ hz
    · exact h ▸ List.mem_append_right _ (List.mem_cons_of_mem _ hz)

/-- The path above a path that ends in a plain name is the front of its text, and of its names. -/
theorem parent?_of_name {p q : Path} {name : List Char} (hname : IsPlain name)
    (hp : p.chars = name ∨ ∃ front, p.chars = front ++ '/' :: name) (h : p.parent? = some q) :
    q.chars <+: p.chars ∧ names q.chars = (names p.chars).dropLast := by
  rw [parent?, Option.map_eq_some_iff] at h
  obtain ⟨⟨name', before⟩, hs, hq⟩ := h
  dsimp only at hq
  rcases hp with hp | ⟨front, hp⟩
  · -- without a slash there is nothing above
    have hbefore : before = [] := by
      rw [hp, split, splitAll_of_not_mem hname.no_slash] at hs
      simp [lastName, hname.ne_nil] at hs
      exact hs.2
    subst hbefore
    have hchars : q.chars = [] := by
      rw [← hq]
      rfl
    rw [hchars, hp, names_plain hname]
    exact ⟨List.nil_prefix, rfl⟩
  · rw [hp, split_append_name front hname] at hs
    cases hs
    obtain ⟨dropped, he, hdropped⟩ := dropVoid_eq (splitAll '/' front).reverse
    have hfront : splitAll '/' front =
        (dropVoid (splitAll '/' front).reverse).reverse ++ dropped.reverse := by
      rw [← List.reverse_append, ← he, List.reverse_reverse]
    have hne : dropVoid (splitAll '/' front).reverse ≠ [] :=
      dropVoid_ne_nil fun h => splitAll_ne_nil '/' front (List.reverse_eq_nil_iff.mp h)
    have hall : splitAll '/' p.chars =
        (dropVoid (splitAll '/' front).reverse).reverse ++ (dropped.reverse ++ [name]) := by
      rw [hp, splitAll_append, splitAll_of_not_mem hname.no_slash, ← List.append_assoc, ← hfront]
    generalize dropVoid (splitAll '/' front).reverse = pieces at *
    have hnames : names front = pieces.reverse.filter (!isVoid ·) := by
      have hvoid : dropped.reverse.filter (!isVoid ·) = [] := by
        rw [List.filter_eq_nil_iff]
        intro x hx
        simpa using hdropped x (List.mem_reverse.mp hx)
      rw [names, hfront, List.filter_append, hvoid, List.append_nil]
    have hlast : (names p.chars).dropLast = names front := by
      rw [hp, names_append, names_plain hname, List.dropLast_concat]
    rw [hlast, hnames, ← joinWith_splitAll '/' p.chars, hall]
    split at hq
    · -- only the empty piece before the first slash is left
      rw [← hq]
      obtain ⟨x, rest, hrest⟩ := List.exists_cons_of_ne_nil
        (List.append_ne_nil_of_right_ne_nil dropped.reverse (List.cons_ne_nil name []))
      rw [hrest]
      exact ⟨⟨joinWith '/' (x :: rest), rfl⟩, rfl⟩
    · have hslash : ∀ piece ∈ pieces.reverse, '/' ∉ piece := fun piece hpiece =>
        not_mem_of_mem_splitAll (hall ▸ List.mem_append_left _ hpiece)
      have hne' : pieces.reverse ≠ [] := fun h => hne (List.reverse_eq_nil_iff.mp h)
      rw [← hq, chars_ofChars]
      refine ⟨isPrefix_joinWith hne' (List.prefix_append _ _), ?_⟩
      rw [names, splitAll_joinWith hne' hslash]

end Path

/-! ## making directories -/

namespace FileSystem

structure Grown (n : Nat) (fs fs' : FileSystem) : Prop where
  node : ∀ t, fs'.node? t = fs.node? t ∨
    (fs.node? t = none ∧ fs'.node? t = some .dir ∧ t.length ≤ n)
  current : fs'.current = fs.current

namespace Grown
variable {n : Nat} {fs fs' fs'' : FileSystem}

theorem refl (n : Nat) (fs : FileSystem) : Grown n fs fs := ⟨fun _ => Or.inl rfl, rfl⟩

theorem trans (h : Grown n fs fs') (h' : Grown n fs' fs'') : Grown n fs fs'' := by
  refine ⟨fun t => ?_, h'.current.trans h.current⟩
  rcases h'.node t with e' | ⟨hn, hd, hl⟩
  · rw [e']
    exact h.node t
  · rcases h.node t with e | ⟨-, hd', -⟩
    · exact Or.inr ⟨e ▸ hn, hd, hl⟩
    · rw [hd'] at hn
      cases hn

theorem within (h : Grown n fs fs') : Within {t | fs.node? t = none} fs fs' := by
  refine ⟨fun t ht => ?_, fun t ht => ?_, h.current⟩
  · rcases h.node t with e | ⟨hn, -⟩
    · exact e
    · exact absurd hn ht
  · rcases h.node t with e | ⟨hn, -⟩
    · rw [e]
      exact ht
    · rw [hn] at ht
      cases ht

end Grown

theorem length_child? {here t : Trail} {name : List Char} (h : child? here name = .ok t) :
    t.length ≤ here.length + 1 := by
  rw [child?] at h
  split at h
  · cases h
    rw [List.length_tail]
    omega
  · split at h
    · cases h
    · cases h
      exact Nat.le_refl _

theorem length_walk {fs : FileSystem} {here t : Trail} {ns : List (List Char)}
    (h : fs.walk here ns = .ok t) : t.length ≤ here.length + ns.length := by
  induction ns generalizing here with
  | nil =>
    cases h
    exact Nat.le_refl _
  | cons n ns ih =>
    have h' : (fs.descend? here n).bind (fs.walk · ns) = .ok t := h
    cases hd : fs.descend? here n with
    | error e => rw [hd] at h'; cases h'
    | ok u =>
      rw [hd] at h'
      have h1 := length_child? (descend?_eq_ok.mp hd).1
      have h2 := ih h'
      rw [List.length_cons]
      omega

section
variable {fs fs' : FileSystem} {p : Path} {t : Trail}

theorem trail?_eq_ok (h : fs.trail? p = .ok t) :
    p.IsUsable ∧ ∃ here, fs.walk (fs.start p) (names p.chars).dropLast = .ok here ∧
      (match (names p.chars).getLast? with
        | none => .ok here
        | some name => child? here name) = Except.ok t := by
  rw [trail?_eq_bind] at h
  cases ha : fs.above? p with
  | error e => rw [ha] at h; cases h
  | ok here =>
    rw [ha] at h
    have hp := isUsable_of_above?_eq_ok ha
    exact ⟨hp, here, by rw [← above?_eq hp, ha], h⟩

theorem trail?_within {T : Set Trail} (hw : Within T fs fs') (h : fs.trail? p = .ok t) :
    fs'.trail? p = .ok t := by
  obtain ⟨hp, here, hwalk, ht⟩ := trail?_eq_ok h
  rw [trail?_eq_bind, above?_eq hp, hw.start, hw.walk hwalk]
  exact ht

/-- an absolute path does not lead deeper than it has names -/
theorem length_trail? (hp : p.isAbsolute = true) (h : fs.trail? p = .ok t) :
    t.length ≤ (names p.chars).length := by
  obtain ⟨-, here, hwalk, ht⟩ := trail?_eq_ok h
  have hl := length_walk hwalk
  rw [start, if_pos hp] at hl
  rcases List.eq_nil_or_concat (names p.chars) with hn | ⟨ns, n, hn⟩
  · rw [hn] at ht hl
    cases ht
    rw [hn]
    exact hl
  · rw [List.concat_eq_append] at hn
    rw [hn, List.getLast?_concat] at ht
    rw [hn, List.dropLast_concat] at hl
    have := length_child? ht
    rw [hn, List.length_append]
    simp only [List.length_nil, List.length_singleton] at hl ⊢
    omega

theorem makeDirectory_eq_ok (h : fs.makeDirectory p = .ok fs') :
    ∃ t, fs.trail? p = .ok t ∧ fs.node? t = none ∧ fs' = fs.set t .dir := by
  rw [makeDirectory] at h
  split at h
  · cases hl : fs.lookup p with
    | error e => rw [hl] at h; cases h
    | ok x => rw [hl] at h; cases h
  · cases ht : fs.trail? p with
    | error e => rw [ht] at h; cases h
    | ok t =>
      rw [ht, ok_bind] at h
      cases hn : fs.node? t with
      | some n => rw [hn] at h; cases h
      | none =>
        rw [hn] at h
        cases h
        exact ⟨t, rfl, hn, rfl⟩

theorem isDir_iff : fs.isDir p = true ↔ ∃ t, fs.lookup p = .ok (t, .dir) := by
  rw [isDir]
  cases hl : fs.lookup p with
  | error e =>
    refine ⟨fun h => (by cases h), ?_⟩
    rintro ⟨t, h⟩
    cases h
  | ok x =>
    obtain ⟨t, n⟩ := x
    cases n with
    | dir => exact ⟨fun _ => ⟨t, rfl⟩, fun _ => rfl⟩
    | file b c =>
      refine ⟨fun h => (by cases h), ?_⟩
      rintro ⟨t, h⟩
      cases h

/-- a directory that is there need not be made -/
theorem makeDirectories_of_isDir {t : Trail} (h : fs.lookup p = .ok (t, .dir)) :
    fs.makeDirectories p = (.ok (), fs) := by
  have hmake : fs.makeDirectory p = .error .alreadyExists := by
    obtain ⟨htrail, hdir, -⟩ := lookup_eq_ok.mp h
    rw [makeDirectory, h, htrail]
    split
    · rfl
    · rw [ok_bind, hdir]
  have hensure : fs.ensureDirectory p = (.ok (), fs) := by
    rw [ensureDirectory, hmake]
    dsimp only
    rw [if_pos (isDir_iff.mpr ⟨t, h⟩)]
  rw [makeDirectories, makeDirectoriesWithin]
  split
  · rfl
  · have hother : refusal? (.error .alreadyExists : Except SystemError FileSystem) ≠ some .notFound := by
      decide
    rw [hmake, if_neg hother, hensure]

/-- what one attempt to make a directory does -/
theorem grown_ensureDirectory (fs : FileSystem) {n : Nat} (hp : p.isAbsolute = true) (hn : (names p.chars).length ≤ n) :
    Grown n fs (fs.ensureDirectory p).2 ∧
      ((fs.ensureDirectory p).1 = .ok () → (fs.ensureDirectory p).2.isDir p = true) := by
  rw [ensureDirectory]
  cases hm : fs.makeDirectory p with
  | error e =>
    refine ⟨.refl n fs, fun h => ?_⟩
    by_contra hd
    dsimp only at h
    rw [if_neg hd] at h
    cases h
  | ok fs' =>
    obtain ⟨t, ht, hnone, rfl⟩ := makeDirectory_eq_ok hm
    have hne : t ≠ [] := by
      rintro rfl
      cases hnone
    have hlen := (length_trail? hp ht).trans hn
    refine ⟨⟨fun u => ?_, rfl⟩, fun _ => ?_⟩
    · by_cases hu : u = t
      · rw [hu]
        exact Or.inr ⟨hnone, by rw [node?_set fs hne, if_pos rfl], hlen⟩
      · exact Or.inl (by rw [node?_set fs hne, if_neg hu])
    · refine isDir_iff.mpr ⟨t, lookup_eq_ok.mpr ⟨?_, ?_, fun h => absurd rfl h⟩⟩
      · exact trail?_within (Within.of_set_dir hne hnone) ht
      · rw [node?_set fs hne, if_pos rfl]

/-- what making a directory with all directories above it does -/
theorem grown_makeDirectoriesWithin (fs : FileSystem) {n : Nat} (steps : Nat) (hp : p.isAbsolute = true)
    (hn : (names p.chars).length ≤ n) :
    Grown n fs (fs.makeDirectoriesWithin steps p).2 ∧
      ((fs.makeDirectoriesWithin steps p).1 = .ok () →
        (fs.makeDirectoriesWithin steps p).2.isDir p = true) := by
  induction steps generalizing p fs with
  | zero => exact ⟨.refl n fs, fun h => by cases h⟩
  | succ steps ih =>
    have htext : p.text ≠ "" := by
      intro e
      rw [isAbsolute, chars, e] at hp
      exact absurd hp (by decide)
    rw [makeDirectoriesWithin, if_neg htext]
    split
    · split
      · exact ⟨.refl n fs, fun h => by cases h⟩
      · next above ha =>
        obtain ⟨hpa, hna⟩ := parent?_eq_some hp ha
        have hup := ih fs hpa (hna.trans hn)
        split
        · next e fs₁ hm =>
          rw [hm] at hup
          exact ⟨hup.1, fun h => by cases h⟩
        · next fs₁ hm =>
          rw [hm] at hup
          have hlast := grown_ensureDirectory fs₁ hp hn
          exact ⟨hup.1.trans hlast.1, hlast.2⟩
    · exact grown_ensureDirectory fs hp hn

end

end FileSystem

/-! ## absolute paths -/

namespace Path

theorem head?_joinChars_of_slash {base name : List Char} (hb : base.head? = some '/')
    (hn : name.head? ≠ some '/') : (joinChars base name).head? = some '/' := by
  have hne : base ≠ [] := by
    rintro rfl
    cases hb
  rw [joinChars, if_neg (not_or.mpr ⟨hn, hne⟩)]
  split
  · rw [List.head?_append, hb]
    rfl
  · rw [List.head?_append, hb]
    rfl

theorem isAbsolute_absolute? {p base whole : Path} (hb : base.isAbsolute = true)
    (h : p.absolute? base = some whole) : whole.isAbsolute = true := by
  have hb' : base.chars.head? = some '/' := by simpa [isAbsolute] using hb
  rw [absolute?] at h
  split at h
  · cases h
  · dsimp only at h
    have hfold : ∀ (ns : List (List Char)) (cs : List Char), (∀ n ∈ ns, '/' ∉ n) →
        cs.head? = some '/' → (ns.foldl joinChars cs).head? = some '/' := by
      intro ns
      induction ns with
      | nil => exact fun cs _ hc => hc
      | cons n ns ih =>
        intro cs hn hc
        refine ih _ (fun m hm => hn m (List.mem_cons_of_mem n hm)) ?_
        exact head?_joinChars_of_slash hc fun e => hn n List.mem_cons_self (List.mem_of_head? e)
    have hwhole : ∀ front : List Char, front.head? = some '/' →
        ((names p.chars).foldl joinChars front).head? = some '/' := fun front hfront =>
      hfold (names p.chars) front (fun n hn => not_mem_of_mem_splitAll (List.mem_filter.mp hn).1) hfront
    cases h
    rw [isAbsolute, chars_ofChars, decide_eq_true_eq]
    -- the front is that of the path itself if it is absolute, and the base if not
    split
    · refine head?_joinChars_of_slash (hwhole _ ?_) (by simp)
      split
      · rfl
      · rfl
      · rfl
      · exact hb'
    · refine hwhole _ ?_
      split
      · rfl
      · rfl
      · rfl
      · exact hb'

def IsStraight (p : Path) : Prop := ['.', '.'] ∉ names p.chars

instance (p : Path) : Decidable p.IsStraight := inferInstanceAs (Decidable (_ ∉ _))

def IsSettled (p : Path) (fs : FileSystem) : Prop := p.IsStraight ∨ fs.isDir p = true

end Path

/-! ## opening a store -/

/-- Directories were made at a path and above it.  If it led to a directory already, there are only
those of a store that are new. -/
structure Opened (root : Path) (fs fs' : FileSystem) : Prop where
  grown : FileSystem.Grown ((names root.chars).length + 1) fs fs'
  within : ∀ r, fs.lookup root = .ok (r, .dir) →
    FileSystem.Within {t | ∃ dir ∈ Store.directories, t = dir :: r} fs fs'

theorem Opened.trans {root : Path} {fs fs' fs'' : FileSystem} (h : Opened root fs fs')
    (h' : Opened root fs' fs'') : Opened root fs fs'' :=
  ⟨h.grown.trans h'.grown, fun r hr =>
    (h.within r hr).trans (h'.within r ((h.within r hr).lookup_dir hr))⟩

namespace Act
variable {σ : Type} {w : World σ} {root : Path}

/-- how making one of the directories of a store ends -/
theorem ends_makeDirectories (ha : root.isAbsolute = true) {dir : String}
    (hd : dir ∈ Store.directories) :
    (Store.makeDirectories (root.join dir) : Act σ StoreError Unit).Ends w fun res ms w' =>
      w.Kept w' ∧ answersOf ms = [] ∧ Opened root w.files w'.files ∧
        (∀ m ∈ ms, m.after = w'.files) ∧
        (res = .ok () → w'.files.isDir (root.join dir) = true) := by
  have hplain := Store.isPlain_of_mem_directories hd
  have hne := ne_nil_of_isAbsolute ha
  have hp : (root.join dir).isAbsolute = true := by
    rw [isAbsolute, chars_join, head?_joinChars hne hplain]
    exact ha
  have hn : (names (root.join dir).chars).length ≤ (names root.chars).length + 1 := by
    rw [chars_join, names_join hne hplain, List.length_append]
    exact Nat.le_refl _
  have hgrown := FileSystem.grown_makeDirectoriesWithin w.files
    ((root.join dir).chars.length + 1) hp hn
  have hrun : (Store.makeDirectories (root.join dir) : Act σ StoreError Unit).runIn w =
      ((w.files.makeDirectories (root.join dir)).1.mapError (.createDir (root.join dir)),
        w.note (.made (root.join dir)) (w.files.makeDirectories (root.join dir)).2) := rfl
  refine ends_of_note hrun rfl rfl
    ⟨⟨rfl, rfl⟩, rfl, ⟨hgrown.1, fun r hr => ?_⟩, fun m hm => ?_, fun hok => ?_⟩
  · exact (FileSystem.within_makeDirectories hr hplain).of_singleton ⟨dir, hd, rfl⟩
  · rw [List.mem_singleton.mp hm]
    rfl
  · refine hgrown.2 ?_
    change (w.files.makeDirectories (root.join dir)).1 = .ok ()
    generalize (w.files.makeDirectories (root.join dir)).1 = made at hok
    cases made with
    | ok _ => rfl
    | error e => cases hok

end Act

/-- The world after some of the directories of a store were made. -/
structure World.Making (root : Path) (dirs : List String) (w : World σ) (ms : List Moment)
    (w' : World σ) : Prop where
  kept : w.Kept w'
  silent : answersOf ms = []
  opened : Opened root w.files w'.files
  after : ∀ m ∈ ms, Opened root w.files m.after
  made : ∀ dir ∈ dirs, w'.files.isDir (root.join dir) = true

namespace Act
variable {σ α : Type} {w : World σ} {root : Path}

/-- one more directory is made, and then comes the rest -/
theorem ends_making {dirs : List String} {ms : List Moment} {v : World σ}
    {f : Unit → Act σ StoreError α} {Q : Except StoreError α → List Moment → World σ → Prop}
    (ha : root.isAbsolute = true) (h : w.Making root dirs ms v) {dir : String}
    (hd : dir ∈ Store.directories)
    (herr : ∀ e ms' w', w.Making root [] ms' w' → Q (.error e) ms' w')
    (hok : ∀ ms' w', w.Making root (dir :: dirs) ms' w' →
      (f ()).Ends w' fun r ms'' w'' => Q r (ms' ++ ms'') w'') :
    (Store.makeDirectories (root.join dir) >>= f).Ends v fun r ms' w' => Q r (ms ++ ms') w' := by
  have hafter : ∀ {ms' : List Moment} {w' : World σ}, Opened root v.files w'.files →
      (∀ m ∈ ms', m.after = w'.files) → ∀ m ∈ ms ++ ms', Opened root w.files m.after := by
    intro ms' w' ho hms' m hm
    rcases List.mem_append.mp hm with hm | hm
    · exact h.after m hm
    · rw [hms' m hm]
      exact h.opened.trans ho
  refine (ends_makeDirectories ha hd).bind ?_ ?_
  · rintro ⟨⟩ ms' w' ⟨hk, hs, ho, hms', hdir⟩
    have hmaking : w.Making root (dir :: dirs) (ms ++ ms') w' := by
      refine ⟨h.kept.trans hk, by rw [answersOf_append, h.silent, hs]; rfl, h.opened.trans ho,
        hafter ho hms', fun dir' hd' => ?_⟩
      rcases List.mem_cons.mp hd' with rfl | hd'
      · exact hdir rfl
      · obtain ⟨t, ht⟩ := FileSystem.isDir_iff.mp (h.made dir' hd')
        exact FileSystem.isDir_iff.mpr ⟨t, ho.grown.within.lookup_dir ht⟩
    refine (hok _ w' hmaking).mono fun r ms'' w'' hq => ?_
    rw [← List.append_assoc]
    exact hq
  · rintro e ms' w' ⟨hk, hs, ho, hms', -⟩
    exact herr e _ w' ⟨h.kept.trans hk, by rw [answersOf_append, h.silent, hs]; rfl,
      h.opened.trans ho, hafter ho hms', fun dir' hd' => absurd hd' List.not_mem_nil⟩

end Act

/-- directories below one path have their trails below one trail -/
theorem standsAt_of_isDir {root : Path} {fs : FileSystem} (ha : root.isAbsolute = true)
    (h : ∀ dir ∈ Store.directories, fs.isDir (root.join dir) = true) :
    ∃ r, (⟨root⟩ : Store).StandsAt r fs := by
  have hne := ne_nil_of_isAbsolute ha
  have hall : ∀ dir ∈ Store.directories, ∃ r, fs.walk (fs.start root) (names root.chars) = .ok r ∧
      fs.lookup (root.join dir) = .ok (dir :: r, .dir) := by
    intro dir hd
    have hplain := Store.isPlain_of_mem_directories hd
    obtain ⟨t, ht⟩ := FileSystem.isDir_iff.mp (h dir hd)
    obtain ⟨-, hwalk, -⟩ := FileSystem.lookup_eq_dir.mp ht
    rw [FileSystem.start_join fs hne hplain, chars_join, names_join hne hplain,
      FileSystem.walk_concat] at hwalk
    cases hr : fs.walk (fs.start root) (names root.chars) with
    | error e => rw [hr] at hwalk; cases hwalk
    | ok r =>
      rw [hr] at hwalk
      have hc := (FileSystem.descend?_eq_ok.mp hwalk).1
      rw [FileSystem.child?, if_neg hplain.ne_dots] at hc
      split at hc
      · cases hc
      · cases hc
        rw [String.ofList_toList] at ht
        exact ⟨r, rfl, ht⟩
  obtain ⟨r, hr, -⟩ := hall Store.layersDir (by simp [Store.directories])
  refine ⟨r, fun dir hd => ?_⟩
  obtain ⟨r', hr', hl⟩ := hall dir hd
  rw [hr] at hr'
  cases hr'
  exact hl

/-- What comes of opening the store at a path. -/
structure World.Opens (root : Path) (w : World σ) (res : Except StoreError Store)
    (ms : List Moment) (w' : World σ) : Prop where
  kept : w.Kept w'
  silent : answersOf ms = []
  opened : ∀ whole, root.absolute? w.files.currentPath = some whole →
    Opened whole w.files w'.files ∧ ∀ m ∈ ms, Opened whole w.files m.after
  stands : ∀ s, res = .ok s → root.absolute? w.files.currentPath = some s.root ∧
    s.root.isAbsolute = true ∧ ∃ r, s.StandsAt r w'.files

namespace Act
variable {σ : Type} {w : World σ}

/-- how opening a store ends -/
theorem ends_open (root : Path) :
    (Store.open root : Act σ StoreError Store).Ends w fun res ms w' => w.Opens root res ms w' := by
  rw [Store.open]
  refine ends_inspect_bind ?_
  cases hwhole : root.absolute? w.files.currentPath with
  | none =>
    refine ends_throw ⟨.refl w, rfl, fun whole h => ?_, fun s hs => ?_⟩
    · cases hwhole.symm.trans h
    · cases hs
  | some whole =>
    have ha : whole.isAbsolute = true := by
      refine isAbsolute_absolute? ?_ hwhole
      rw [isAbsolute, chars, FileSystem.currentPath, FileSystem.pathOf, String.toList_append]
      rfl
    have hnone : w.Making whole [] [] w :=
      ⟨.refl w, rfl, ⟨.refl _ _, fun r _ => .refl _ _⟩, fun m hm => absurd hm List.not_mem_nil,
        fun dir hd => absurd hd List.not_mem_nil⟩
    have hopened : ∀ {dirs ms'} {w' : World σ}, w.Making whole dirs ms' w' → ∀ whole',
        root.absolute? w.files.currentPath = some whole' →
          Opened whole' w.files w'.files ∧ ∀ m ∈ ms', Opened whole' w.files m.after := by
      intro dirs ms' w' h whole' habs
      cases hwhole.symm.trans habs
      exact ⟨h.opened, h.after⟩
    have herr : ∀ (e : StoreError) ms' (w' : World σ), w.Making whole [] ms' w' →
        w.Opens root (.error e) ms' w' := fun e ms' w' h =>
      ⟨h.kept, h.silent, hopened h, fun s hs => by cases hs⟩
    refine Ends.mono (Q := fun res ms w' => w.Opens root res ([] ++ ms) w') ?_ fun _ _ _ h => h
    refine ends_making ha hnone (by simp [Store.directories]) herr fun ms₁ v₁ h₁ => ?_
    refine ends_making ha h₁ (by simp [Store.directories]) herr fun ms₂ v₂ h₂ => ?_
    refine ends_making ha h₂ (by simp [Store.directories]) herr fun ms₃ v₃ h₃ => ?_
    refine ends_making ha h₃ (by simp [Store.directories]) herr fun ms₄ v₄ h₄ => ?_
    refine ends_pure ?_
    rw [List.append_nil]
    refine ⟨h₄.kept, h₄.silent, hopened h₄, fun s hs => ?_⟩
    cases hs
    refine ⟨hwhole, ha, standsAt_of_isDir ha fun dir hd => h₄.made dir ?_⟩
    have hd' : dir = Store.layersDir ∨ dir = Store.tagsDir ∨ dir = Store.instancesDir ∨
        dir = Store.locksDir := by
      simpa [Store.directories] using hd
    rcases hd' with rfl | rfl | rfl | rfl <;> simp

end Act

/-! ## what opening leaves alone -/

namespace FileSystem

def WellFormed (fs : FileSystem) : Prop :=
  ∀ name t, fs.node? (name :: t) ≠ none → fs.node? t = some .dir

theorem wellFormed_iff (fs : FileSystem) :
    (∀ e ∈ fs.nodes, fs.node? e.1.tail = some .dir) ↔ fs.WellFormed := by
  have hnode : ∀ name t, fs.node? (name :: t) ≠ none ↔ ∃ n, (name :: t, n) ∈ fs.nodes := by
    intro name t
    rw [node?, if_neg (List.cons_ne_nil _ _), ne_eq, List.lookup_eq_none_iff]
    constructor
    · intro h
      by_contra hnot
      refine h fun p hp => ?_
      obtain ⟨u, n⟩ := p
      refine bne_iff_ne.mpr ?_
      rintro rfl
      exact hnot ⟨n, hp⟩
    · rintro ⟨n, hn⟩ h
      simpa using h _ hn
  constructor
  · intro h name t ht
    obtain ⟨n, hn⟩ := (hnode name t).mp ht
    exact h _ hn
  · rintro h ⟨t, n⟩ hn
    cases t with
    | nil => rfl
    | cons name t => exact h name t ((hnode name t).mpr ⟨n, hn⟩)

instance (fs : FileSystem) : Decidable fs.WellFormed := decidable_of_iff _ fs.wellFormed_iff

variable {fs fs' : FileSystem}

theorem node?_of_walk {here t : Trail} {ns : List (List Char)} (h : fs.node? here = some .dir)
    (hw : fs.walk here ns = .ok t) : fs.node? t = some .dir := by
  rcases List.eq_nil_or_concat ns with rfl | ⟨ms, n, rfl⟩
  · cases hw
    exact h
  · rw [List.concat_eq_append, walk_concat] at hw
    cases hm : fs.walk here ms with
    | error e => rw [hm] at hw; cases hw
    | ok u =>
      rw [hm] at hw
      exact (descend?_eq_ok.mp hw).2

/-- behind a path something is found only if the path leads to a directory, provided that what its names lead
to is one -/
theorem lookup_of_lookup_join_of_walk {p : Path} (hne : p.chars ≠ [])
    (hdir : ∀ d, fs.walk (fs.start p) (names p.chars) = .ok d → fs.node? d = some .dir) {name : String}
    (hn : IsPlain name.toList) {t : Trail} {n : Node} (h : fs.lookup (p.join name) = .ok (t, n)) :
    ∃ d, fs.lookup p = .ok (d, .dir) ∧ t = name :: d := by
  obtain ⟨hu, here, hw, -⟩ := trail?_eq_ok (lookup_eq_ok.mp h).1
  have hchars : (p.join name).chars = front p.chars ++ '/' :: name.toList := by
    rw [chars_join, joinChars_eq hne hn]
  rw [start_join fs hne hn, chars_join, names_join hne hn, List.dropLast_concat] at hw
  have hp : p.IsUsable := by
    obtain ⟨rest, hrest⟩ := exists_append_eq_front_append p.chars name.toList
    rw [hrest] at hchars
    refine ⟨hne, fun hz => hu.no_nul ?_, ?_⟩
    · rw [hchars]
      exact List.mem_append_left _ hz
    · have hshort := hu.short
      rw [hchars, byteCount_append] at hshort
      omega
  have hd := lookup_eq_dir.mpr ⟨hp, hw, hdir here hw⟩
  refine ⟨here, hd, ?_⟩
  rw [lookup_join hd hn] at h
  split at h
  · split at h
    · cases h
    · cases h
      rfl
  · cases h

/-- behind an absolute path something is found only if the path leads to a directory -/
theorem lookup_of_lookup_join {p : Path} (ha : p.isAbsolute = true) {name : String}
    (hn : IsPlain name.toList) {t : Trail} {n : Node} (h : fs.lookup (p.join name) = .ok (t, n)) :
    ∃ d, fs.lookup p = .ok (d, .dir) ∧ t = name :: d := by
  have hroot : fs.node? (fs.start p) = some .dir := by
    rw [start, if_pos ha]
    rfl
  exact lookup_of_lookup_join_of_walk (ne_nil_of_isAbsolute ha) (fun d hw => node?_of_walk hroot hw) hn h

theorem lookup_of_lookup_join_join {p : Path} {dir name : String} (hd : IsPlain dir.toList)
    (hn : IsPlain name.toList) {t : Trail} {n : Node}
    (h : fs.lookup ((p.join dir).join name) = .ok (t, n)) :
    ∃ d, fs.lookup (p.join dir) = .ok (d, .dir) ∧ t = name :: d := by
  have hne : (p.join dir).chars ≠ [] := by
    rw [chars_join]
    exact joinChars_ne_nil hd
  refine lookup_of_lookup_join_of_walk hne (fun d hw => ?_) hn h
  rw [names_chars_join p hd, walk_concat] at hw
  cases hb : fs.walk (fs.start (p.join dir)) (names p.chars) with
  | error e => rw [hb] at hw; cases hw
  | ok u =>
    rw [hb] at hw
    exact (descend?_eq_ok.mp hw).2

/-- a straight walk leads as deep as it has names, and wherever it ends in a directory -/
theorem walk_of_straight (hwf : fs.WellFormed) {ns : List (List Char)} (hns : ['.', '.'] ∉ ns)
    {r : Trail} (hw : fs'.walk [] ns = .ok r) :
    r.length = ns.length ∧ (fs.node? r = some .dir → fs.walk [] ns = .ok r) := by
  induction ns using List.reverseRecOn generalizing r with
  | nil =>
    cases hw
    exact ⟨rfl, fun _ => rfl⟩
  | append_singleton ns n ih =>
    rw [walk_concat] at hw
    cases hd : fs'.walk [] ns with
    | error e => rw [hd] at hw; cases hw
    | ok d =>
      rw [hd] at hw
      obtain ⟨hl, hback⟩ := ih (fun h => hns (List.mem_append_left _ h)) hd
      have hc := (descend?_eq_ok.mp hw).1
      have hn : n ≠ ['.', '.'] := fun e => hns (by rw [e]; simp)
      have hr : r = String.ofList n :: d := by
        rw [child?, if_neg hn] at hc
        split at hc
        · cases hc
        · exact (Except.ok.inj hc).symm
      refine ⟨by rw [hr, List.length_cons, hl, List.length_append]; rfl, fun hdir => ?_⟩
      have hdd : fs.node? d = some .dir := by
        refine hwf (String.ofList n) d ?_
        rw [← hr, hdir]
        simp
      rw [walk_concat, hback hdd]
      exact descend?_eq_ok.mpr ⟨hc, hdir⟩

end FileSystem

section
variable {s : Store} {r : Trail} {fs fs' : FileSystem} (ha : s.root.isAbsolute = true)
include ha

/-- the directory of the store -/
theorem Store.StandsAt.root (h : s.StandsAt r fs) : fs.lookup s.root = .ok (r, .dir) := by
  obtain ⟨d, hd, ht⟩ := FileSystem.lookup_of_lookup_join ha
    (Store.isPlain_of_mem_directories (by simp [Store.directories])) h.layers
  rw [(List.cons.inj ht).2]
  exact hd

theorem lookup_root_of_isDir (ho : Opened s.root fs fs') (hs : s.StandsAt r fs')
    (hdir : fs.isDir s.root = true) : fs.lookup s.root = .ok (r, .dir) := by
  obtain ⟨d, hd⟩ := FileSystem.isDir_iff.mp hdir
  have hd' := ho.grown.within.lookup_dir hd
  rw [hs.root ha] at hd'
  cases hd'
  exact hd

/-- The path of a store that was opened led to the same directory before, if that was there. -/
theorem lookup_root_of_opened (ho : Opened s.root fs fs') (hs : s.StandsAt r fs')
    (hwf : fs.WellFormed) (hset : s.root.IsSettled fs) (hr : fs.node? r = some .dir) :
    fs.lookup s.root = .ok (r, .dir) := by
  rcases hset with hstraight | hdir
  · obtain ⟨hu, hw, -⟩ := FileSystem.lookup_eq_dir.mp (hs.root ha)
    rw [FileSystem.start, if_pos ha] at hw
    refine FileSystem.lookup_eq_dir.mpr ⟨hu, ?_, hr⟩
    rw [FileSystem.start, if_pos ha]
    exact (FileSystem.walk_of_straight hwf hstraight hw).2 hr
  · exact lookup_root_of_isDir ha ho hs hdir

/-- What stands in a directory of a store that was opened stood there before: the directories that are
new lie less deep. -/
theorem node?_of_opened (ho : Opened s.root fs fs') (hs : s.StandsAt r fs') (hwf : fs.WellFormed)
    (hset : s.root.IsSettled fs) (dir name : String) :
    fs'.node? (name :: dir :: r) = fs.node? (name :: dir :: r) := by
  rcases hset with hstraight | hdir
  · rcases ho.grown.node (name :: dir :: r) with e | ⟨-, -, hl⟩
    · exact e
    · obtain ⟨-, hw, -⟩ := FileSystem.lookup_eq_dir.mp (hs.root ha)
      rw [FileSystem.start, if_pos ha] at hw
      have hlen := (FileSystem.walk_of_straight hwf hstraight hw).1
      simp only [List.length_cons] at hl
      omega
  · refine (ho.within r (lookup_root_of_isDir ha ho hs hdir)).same _ ?_
    rintro ⟨dir', -, e⟩
    have := congrArg List.length e
    simp at this

/-- What is in the directories of a store that was opened was there before, if the path of the store
is settled. -/
theorem found?_of_opened (ho : Opened s.root fs fs') (hs : s.StandsAt r fs') (hwf : fs.WellFormed)
    (hset : s.root.IsSettled fs) {dir : String} (hd : dir ∈ Store.directories) {name : String}
    (hn : IsPlain name.toList) :
    fs'.found? ((s.root.join dir).join name) = fs.found? ((s.root.join dir).join name) := by
  have hplain := Store.isPlain_of_mem_directories hd
  have hdirs := hs dir hd
  have hroot' := hs.root ha
  have hfits : s.root.Fits dir := by
    by_contra hf
    rw [FileSystem.lookup_join hroot' hplain, if_neg hf] at hdirs
    cases hdirs
  have ha' : (s.root.join dir).isAbsolute = true := by
    have hne : s.root.chars ≠ [] := (FileSystem.lookup_eq_dir.mp hroot').1.ne_nil
    rw [isAbsolute, chars_join, head?_joinChars hne hplain]
    exact ha
  rw [FileSystem.found?_join hdirs hn, node?_of_opened ha ho hs hwf hset]
  by_cases hl : fs.lookup (s.root.join dir) = .ok (dir :: r, .dir)
  · rw [FileSystem.found?_join hl hn]
  · -- the directory is new: there was nothing below its trail, and its path led nowhere
    have hnone : fs.node? (name :: dir :: r) = none := by
      by_contra hne
      have hdir := hwf name (dir :: r) hne
      have hr := hwf dir r (by rw [hdir]; simp)
      refine hl ?_
      rw [FileSystem.lookup_join (lookup_root_of_opened ha ho hs hwf hset hr) hplain, if_pos hfits, hdir]
    have hentry : fs.found? ((s.root.join dir).join name) = none := by
      rw [FileSystem.found?]
      cases hx : fs.lookup ((s.root.join dir).join name) with
      | error e => rfl
      | ok x =>
        obtain ⟨t, n⟩ := x
        obtain ⟨d, hd', -⟩ := FileSystem.lookup_of_lookup_join ha' hn hx
        have he := ho.grown.within.lookup_dir hd'
        rw [hdirs] at he
        cases he
        exact absurd hd' hl
    rw [hnone, hentry]
    split <;> rfl

end

end DiskLayers
