import DiskLayers.FileSystem.Access
import DiskLayers.Proofs.Names
import Mathlib

/-!
# Entries of a directory, by path

Where the path of a directory leads is decided by the directories on the way.  The entry behind one
more name is then the entry at the trail of that directory with the name in front, or there is none
because the name or the whole path is too long.

* `FileSystem.start`   the trail that the names of a path are looked for from
* `FileSystem.walk`    the directory that names lead to
* `FileSystem.found?`  the trail and the entry that a path leads to, if it does
* `Path.Fits`          a name that is not too long, in a directory whose path is not too long

`lookup_eq_dir` says when a path leads to a directory; `trail?_join` and the lemmas behind it
compute every operation on a path that ends in a plain name.
-/

namespace DiskLayers

def Path.Fits (p : Path) (name : String) : Prop :=
  Path.byteCount name.toList ≤ FileSystem.maxNameLength ∧
    Path.byteCount (p.join name).chars ≤ FileSystem.maxPathLength

instance (p : Path) (name : String) : Decidable (p.Fits name) := instDecidableAnd

/-- A path that the operating system looks at. -/
structure Path.IsUsable (p : Path) : Prop where
  ne_nil : p.chars ≠ []
  no_nul : '\x00' ∉ p.chars
  short : Path.byteCount p.chars ≤ FileSystem.maxPathLength

theorem ok_bind (a : α) (f : α → Except ε β) : ((.ok a : Except ε α) >>= f) = f a := rfl

namespace FileSystem
open DiskLayers.Path

/-! ## directories -/

def start (fs : FileSystem) (p : Path) : Trail := if p.isAbsolute then [] else fs.current

def walk (fs : FileSystem) (here : Trail) (ns : List (List Char)) : Except SystemError Trail :=
  ns.foldlM fs.descend? here

def found? (fs : FileSystem) (p : Path) : Option (Trail × Node) := (fs.lookup p).toOption

theorem walk_concat (fs : FileSystem) (here : Trail) (ns : List (List Char)) (n : List Char) :
    fs.walk here (ns ++ [n]) = (fs.walk here ns).bind (fs.descend? · n) := by
  rw [walk, List.foldlM_append]
  show (fs.walk here ns).bind (fun t => (fs.descend? t n).bind pure) = _
  congr 1
  funext t
  cases fs.descend? t n <;> rfl

theorem descend?_eq_ok {fs : FileSystem} {here t : Trail} {name : List Char} :
    fs.descend? here name = .ok t ↔ child? here name = .ok t ∧ fs.node? t = some .dir := by
  rw [descend?]
  cases h : child? here name with
  | error e => exact ⟨fun h => (nomatch h), fun h => (nomatch h.1)⟩
  | ok u =>
    rw [ok_bind]
    constructor
    · intro hu
      split at hu
      · cases hu
      · cases hu
      · next hd => cases hu; exact ⟨rfl, hd⟩
    · rintro ⟨hu, hd⟩
      cases hu
      rw [hd]

theorem above?_eq {fs : FileSystem} {p : Path} (h : p.IsUsable) :
    fs.above? p = fs.walk (fs.start p) (names p.chars).dropLast := by
  rw [above?, if_neg h.ne_nil, if_neg (by simpa using h.no_nul),
    if_neg (Nat.not_lt.mpr h.short)]
  rfl

theorem isUsable_of_above?_eq_ok {fs : FileSystem} {p : Path} {t : Trail}
    (h : fs.above? p = .ok t) : p.IsUsable := by
  rw [above?] at h
  split at h
  · cases h
  · next h1 =>
    split at h
    · cases h
    · next h2 =>
      split at h
      · cases h
      · next h3 => exact ⟨h1, by simpa using h2, Nat.not_lt.mp h3⟩

theorem trail?_eq_bind (fs : FileSystem) (p : Path) :
    fs.trail? p = (fs.above? p).bind fun here =>
      match (names p.chars).getLast? with
      | none => .ok here
      | some name => child? here name := rfl

theorem lookup_eq_ok {fs : FileSystem} {p : Path} {t : Trail} {n : Node} :
    fs.lookup p = .ok (t, n) ↔ fs.trail? p = .ok t ∧ fs.node? t = some n ∧
      (n ≠ Node.dir → wantsDirectory p.chars = false) := by
  rw [lookup]
  cases ht : fs.trail? p with
  | error e => exact ⟨fun h => (nomatch h), fun h => (nomatch h.1)⟩
  | ok u =>
    rw [ok_bind]
    cases hn : fs.node? u with
    | none =>
      refine ⟨fun h => (nomatch h), ?_⟩
      rintro ⟨h, h', -⟩
      cases h
      rw [hn] at h'
      cases h'
    | some m =>
      cases m with
      | dir =>
        constructor
        · intro h
          cases h
          exact ⟨rfl, hn, fun h => absurd rfl h⟩
        · rintro ⟨h, h', -⟩
          cases h
          rw [hn] at h'
          cases h'
          rfl
      | file b c =>
        by_cases hw : wantsDirectory p.chars = true
        · simp only [hw, ↓reduceIte]
          refine ⟨fun h => (nomatch h), ?_⟩
          rintro ⟨h, h', h''⟩
          cases h
          rw [hn] at h'
          cases h'
          exact absurd (h'' (by simp)) (by simp)
        · simp only [hw, Bool.false_eq_true, ↓reduceIte]
          constructor
          · intro h
            cases h
            exact ⟨rfl, hn, fun _ => trivial⟩
          · rintro ⟨h, h', -⟩
            cases h
            rw [hn] at h'
            cases h'
            rfl

/-- a path leads to a directory if all its names do, one after the other -/
theorem lookup_eq_dir {fs : FileSystem} {p : Path} {d : Trail} :
    fs.lookup p = .ok (d, .dir) ↔
      p.IsUsable ∧ fs.walk (fs.start p) (names p.chars) = .ok d ∧ fs.node? d = some .dir := by
  rw [lookup_eq_ok, trail?_eq_bind]
  constructor
  · rintro ⟨h, hd, -⟩
    cases ha : fs.above? p with
    | error e => rw [ha] at h; cases h
    | ok here =>
      have hp := isUsable_of_above?_eq_ok ha
      refine ⟨hp, ?_, hd⟩
      rw [ha] at h
      rw [above?_eq hp] at ha
      rcases List.eq_nil_or_concat (names p.chars) with hn | ⟨ns, n, hn⟩
      · rw [hn] at h ha ⊢
        cases h
        exact ha
      · rw [List.concat_eq_append] at hn
        rw [hn, List.dropLast_concat] at ha
        rw [hn, List.getLast?_concat] at h
        rw [hn, walk_concat, ha]
        exact descend?_eq_ok.mpr ⟨h, hd⟩
  · rintro ⟨hp, h, hd⟩
    refine ⟨?_, hd, fun h => absurd rfl h⟩
    rw [above?_eq hp]
    rcases List.eq_nil_or_concat (names p.chars) with hn | ⟨ns, n, hn⟩
    · rw [hn] at h ⊢
      exact h
    · rw [List.concat_eq_append] at hn
      rw [hn, walk_concat] at h
      rw [hn, List.dropLast_concat, List.getLast?_concat]
      cases hw : fs.walk (fs.start p) ns with
      | error e => rw [hw] at h; cases h
      | ok here =>
        rw [hw] at h
        exact (descend?_eq_ok.mp h).1

/-! ## one more name -/

theorem start_join (fs : FileSystem) {p : Path} (hp : p.chars ≠ []) {name : String}
    (hn : IsPlain name.toList) : fs.start (p.join name) = fs.start p := by
  rw [start, start, isAbsolute, isAbsolute, chars_join, head?_joinChars hp hn]

theorem isUsable_join {p : Path} (hp : p.IsUsable) {name : String} (hn : IsPlain name.toList)
    (hl : byteCount (p.join name).chars ≤ maxPathLength) : (p.join name).IsUsable := by
  refine ⟨?_, ?_, hl⟩
  · rw [chars_join]
    exact joinChars_ne_nil hn
  · rw [chars_join, joinChars_eq hp.ne_nil hn]
    intro h
    rcases List.mem_append.mp h with h | h
    · exact hp.no_nul (mem_of_mem_front h)
    · rcases List.mem_cons.mp h with h | h
      · exact absurd h (by decide)
      · exact hn.no_nul h

section
variable {fs : FileSystem} {p : Path} {d : Trail} {name : String}
  (h : fs.lookup p = .ok (d, .dir)) (hn : IsPlain name.toList)
include h hn

/-- a plain name behind the path of a directory -/
theorem trail?_join :
    fs.trail? (p.join name) = if p.Fits name then .ok (name :: d) else .error .nameTooLong := by
  obtain ⟨hp, hw, -⟩ := lookup_eq_dir.mp h
  rw [trail?_eq_bind]
  by_cases hl : byteCount (p.join name).chars ≤ maxPathLength
  · have hu := isUsable_join hp hn hl
    rw [above?_eq hu, start_join fs hp.ne_nil hn, chars_join, names_join hp.ne_nil hn,
      List.dropLast_concat, List.getLast?_concat, hw]
    show child? d name.toList = _
    rw [child?, if_neg hn.ne_dots, String.ofList_toList]
    by_cases hb : byteCount name.toList ≤ maxNameLength
    · rw [if_neg (Nat.not_lt.mpr hb), if_pos ⟨hb, hl⟩]
    · rw [if_pos (Nat.lt_of_not_le hb), if_neg (fun hf => hb hf.1)]
  · have hc := chars_join p name
    have h0 : (p.join name).chars ≠ [] := by rw [hc]; exact joinChars_ne_nil hn
    rw [if_neg (fun hf => hl hf.2), above?, if_neg h0]
    by_cases hz : (p.join name).chars.contains '\x00' = true
    · exfalso
      rw [hc, joinChars_eq hp.ne_nil hn] at hz
      simp only [List.contains_eq_mem, List.mem_append, List.mem_cons, decide_eq_true_eq] at hz
      rcases hz with hz | hz | hz
      · exact hp.no_nul (mem_of_mem_front hz)
      · exact absurd hz (by decide)
      · exact hn.no_nul hz
    · rw [if_neg hz, if_pos (Nat.lt_of_not_le hl)]
      rfl

theorem lookup_join :
    fs.lookup (p.join name) =
      if p.Fits name then
        match fs.node? (name :: d) with
        | none => .error .notFound
        | some n => .ok (name :: d, n)
      else .error .nameTooLong := by
  rw [lookup, trail?_join h hn]
  by_cases hf : p.Fits name
  · have hw : wantsDirectory (p.join name).chars = false := by
      rw [chars_join, joinChars_eq (lookup_eq_dir.mp h).1.ne_nil hn]
      exact wantsDirectory_append_name _ hn
    rw [if_pos hf, if_pos hf, ok_bind, hw]
    cases fs.node? (name :: d) with
    | none => rfl
    | some n => cases n <;> rfl
  · rw [if_neg hf, if_neg hf]
    rfl

theorem found?_join :
    fs.found? (p.join name) =
      if p.Fits name then (fs.node? (name :: d)).map (name :: d, ·) else none := by
  rw [found?, lookup_join h hn]
  by_cases hf : p.Fits name
  · rw [if_pos hf, if_pos hf]
    cases fs.node? (name :: d) <;> rfl
  · rw [if_neg hf, if_neg hf]
    rfl

theorem isPresent_join :
    fs.isPresent (p.join name) = true ↔ p.Fits name ∧ fs.node? (name :: d) ≠ none := by
  rw [isPresent, lookup_join h hn]
  by_cases hf : p.Fits name
  · rw [if_pos hf]
    cases fs.node? (name :: d) <;> simp [hf]
  · rw [if_neg hf]
    simp [hf]

theorem isFile_join :
    fs.isFile (p.join name) = true ↔
      p.Fits name ∧ ∃ b c, fs.node? (name :: d) = some (.file b c) := by
  rw [isFile, lookup_join h hn]
  by_cases hf : p.Fits name
  · rw [if_pos hf]
    cases fs.node? (name :: d) with
    | none => simp
    | some n => cases n <;> simp [hf, Node.isFile]
  · rw [if_neg hf]
    simp [hf]

end

/-! ## what changes of an entry do to the others -/

theorem node?_set_eq (fs : FileSystem) {t : Trail} (ht : t ≠ []) (n : Node) :
    (fs.set t n).node? = Function.update fs.node? t (some n) := by
  funext u
  rw [node?_set fs ht, Function.update_apply]

theorem node?_create_eq (fs : FileSystem) {t : Trail} (ht : t ≠ []) (c : Content) :
    (fs.create t c).node? = Function.update fs.node? t (some (.file fs.births c)) :=
  node?_set_eq fs ht _

theorem node?_unname_eq (fs : FileSystem) {t : Trail} {b : Nat} {c : Content}
    (h : fs.node? t = some (.file b c)) :
    (fs.unname t).node? = Function.update fs.node? t none := by
  have ht : t ≠ [] := by rintro rfl; cases h
  funext u
  rw [unname, h]
  show (fs.erase t).node? u = _
  rw [node?_erase fs ht, Function.update_apply]

theorem current_unname (fs : FileSystem) (t : Trail) : (fs.unname t).current = fs.current := by
  rw [unname]
  split <;> rfl

theorem current_setContent (fs : FileSystem) (r : FileRef) (c : Content) :
    (fs.setContent r c).current = fs.current := by
  rw [setContent]
  split
  · split <;> rfl
  · rfl

theorem node?_setContent (fs : FileSystem) (r : FileRef) (c : Content) {t : Trail}
    (ht : t ≠ r.trail) : (fs.setContent r c).node? t = fs.node? t := by
  rw [setContent]
  split
  · next b c' hr =>
    split
    · have h0 : r.trail ≠ [] := by intro e; rw [e] at hr; cases hr
      rw [node?_set fs h0, if_neg ht]
    · rfl
  · rfl

theorem isDirAt_setContent (fs : FileSystem) (r : FileRef) (c : Content) {t : Trail}
    (ht : fs.node? t = some .dir) : (fs.setContent r c).node? t = some .dir := by
  by_cases e : t = r.trail
  · rw [setContent, ← e, ht]
    exact ht
  · rw [node?_setContent fs r c e]
    exact ht

theorem node?_setContent_self (fs : FileSystem) {t : Trail} {b : Nat} {c₀ : Content}
    (h : fs.node? t = some (.file b c₀)) (c : Content) :
    (fs.setContent ⟨t, b⟩ c).node? = Function.update fs.node? t (some (.file b c)) := by
  have ht : t ≠ [] := by rintro rfl; cases h
  rw [setContent, h]
  show (if b = b then fs.set t (.file b c) else _).node? = _
  rw [if_pos rfl, node?_set_eq fs ht]

section
variable {fs : FileSystem} {p : Path} {d : Trail} {name : String}
  (h : fs.lookup p = .ok (d, .dir)) (hn : IsPlain name.toList)
include h hn

theorem open_join :
    fs.open (p.join name) =
      if p.Fits name then
        match fs.node? (name :: d) with
        | some .dir => .error .isDirectory
        | some (.file b _) => .ok (⟨name :: d, b⟩, fs)
        | none => .ok (⟨name :: d, fs.births⟩, fs.create (name :: d) .empty)
      else .error .nameTooLong := by
  have hc : (p.join name).chars = front p.chars ++ '/' :: name.toList := by
    rw [chars_join, joinChars_eq (lookup_eq_dir.mp h).1.ne_nil hn]
  rw [FileSystem.open, hc, endsInDots_append_name _ hn, endsInSlash_append_name _ hn,
    trail?_join h hn]
  by_cases hf : p.Fits name
  · rw [if_pos hf, if_pos hf]
    show (match fs.node? (name :: d) with
      | some .dir => (.error .isDirectory : Except SystemError (FileRef × FileSystem))
      | some (.file b _) => .ok (⟨name :: d, b⟩, fs)
      | none => .ok (⟨name :: d, fs.births⟩, fs.create (name :: d) .empty)) = _
    cases fs.node? (name :: d) with
    | none => rfl
    | some n => cases n <;> rfl
  · rw [if_neg hf, if_neg hf]
    rfl

/-- a file that can be opened is there afterwards -/
theorem open_join_cases :
    (∃ e, fs.open (p.join name) = .error e) ∨
      (p.Fits name ∧ fs.node? (name :: d) ≠ some .dir ∧ ∃ b c fs',
        fs.open (p.join name) = .ok (⟨name :: d, b⟩, fs') ∧ fs'.current = fs.current ∧
        fs'.node? = Function.update fs.node? (name :: d) (some (.file b c))) := by
  rw [open_join h hn]
  by_cases hf : p.Fits name
  · rw [if_pos hf]
    cases hd : fs.node? (name :: d) with
    | none =>
      exact Or.inr ⟨hf, by simp, _, _, _, rfl, rfl, node?_create_eq fs (List.cons_ne_nil _ _) _⟩
    | some n =>
      cases n with
      | dir => exact Or.inl ⟨_, rfl⟩
      | file b c =>
        refine Or.inr ⟨hf, by simp, b, c, fs, rfl, rfl, ?_⟩
        rw [← hd, Function.update_eq_self]
  · rw [if_neg hf]
    exact Or.inl ⟨_, rfl⟩

theorem write_join_cases (c : Content) :
    (∃ e, fs.write (p.join name) c = .error e) ∨
      (p.Fits name ∧ fs.node? (name :: d) ≠ some .dir ∧ ∃ b fs',
        fs.write (p.join name) c = .ok fs' ∧ fs'.current = fs.current ∧
        fs'.node? = Function.update fs.node? (name :: d) (some (.file b c))) := by
  rw [write]
  rcases open_join_cases h hn with ⟨e, he⟩ | ⟨hf, hd, b, c₀, fs₁, he, hcur, hnode⟩
  · rw [he]
    exact Or.inl ⟨e, rfl⟩
  · rw [he]
    have hb : fs₁.node? (name :: d) = some (.file b c₀) := by rw [hnode, Function.update_self]
    refine Or.inr ⟨hf, hd, b, _, rfl, ?_, ?_⟩
    · rw [current_setContent, hcur]
    · rw [node?_setContent_self fs₁ hb, hnode, Function.update_idem]

theorem write_join (hf : p.Fits name) (hd : fs.node? (name :: d) ≠ some .dir) (c : Content) :
    ∃ fs', fs.write (p.join name) c = .ok fs' := by
  rw [write, open_join h hn, if_pos hf]
  cases hm : fs.node? (name :: d) with
  | none => exact ⟨_, rfl⟩
  | some n =>
    cases n with
    | dir => exact absurd hm hd
    | file b c => exact ⟨_, rfl⟩

theorem remove_join :
    fs.remove (p.join name) =
      if p.Fits name then
        match fs.node? (name :: d) with
        | none => .error .notFound
        | some .dir => .error .isDirectory
        | some (.file _ _) => .ok (fs.unname (name :: d))
      else .error .nameTooLong := by
  rw [remove, lookup_join h hn]
  by_cases hf : p.Fits name
  · rw [if_pos hf, if_pos hf]
    cases fs.node? (name :: d) with
    | none => rfl
    | some n => cases n <;> rfl
  · rw [if_neg hf, if_neg hf]
    rfl

theorem makeDirectory_join :
    fs.makeDirectory (p.join name) =
      if p.Fits name then
        if fs.node? (name :: d) = none then .ok (fs.set (name :: d) .dir)
        else .error .alreadyExists
      else .error .nameTooLong := by
  have hc : (p.join name).chars = front p.chars ++ '/' :: name.toList := by
    rw [chars_join, joinChars_eq (lookup_eq_dir.mp h).1.ne_nil hn]
  rw [makeDirectory, hc, endsInDots_append_name _ hn, trail?_join h hn]
  by_cases hf : p.Fits name
  · rw [if_pos hf, if_pos hf, ok_bind]
    cases fs.node? (name :: d) with
    | none => rfl
    | some n => rfl
  · rw [if_neg hf, if_neg hf]
    rfl

end

end FileSystem

end DiskLayers
