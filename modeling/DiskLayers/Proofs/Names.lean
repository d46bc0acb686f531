import DiskLayers.Path.Basic

/-!
# Paths that end in a plain name

The files of a store are reached by joining a name to the path of a directory.  Here the parts of
such a path are computed.

* `Path.IsPlain`     a name that stands for itself between slashes
* `Path.front`       a path without the slash at its end

`joinChars_eq` cuts a joined path before its last name.  From there `names_join`, `parent?_join`
and `withExtension_join` read off the names, the directory above and the path with another
extension.
-/

namespace DiskLayers

/-! ## pieces between separators -/

namespace Text

theorem splitAll_of_not_mem {sep : Char} {cs : List Char} (h : sep ∉ cs) :
    splitAll sep cs = [cs] := by
  induction cs with
  | nil => rfl
  | cons c cs ih =>
    have hc : c ≠ sep := fun e => h (e ▸ List.mem_cons_self)
    have hcs : sep ∉ cs := fun e => h (List.mem_cons_of_mem _ e)
    rw [splitAll, if_neg hc, ih hcs]

theorem splitAll_append (sep : Char) (cs ds : List Char) :
    splitAll sep (cs ++ sep :: ds) = splitAll sep cs ++ splitAll sep ds := by
  induction cs with
  | nil => rw [List.nil_append, splitAll_self, splitAll_nil]; rfl
  | cons c cs ih =>
    by_cases hc : c = sep
    · subst hc
      rw [List.cons_append, splitAll_self, splitAll_self, ih]
      rfl
    · rw [List.cons_append, splitAll, if_neg hc, ih, splitAll, if_neg hc]
      cases hs : splitAll sep cs with
      | nil => exact absurd hs (splitAll_ne_nil sep cs)
      | cons p ps => rfl

theorem not_mem_of_mem_splitAll {sep : Char} {cs p : List Char} (h : p ∈ splitAll sep cs) :
    sep ∉ p := by
  induction cs generalizing p with
  | nil =>
    rw [splitAll_nil, List.mem_singleton] at h
    rw [h]
    exact List.not_mem_nil
  | cons c cs ih =>
    by_cases hc : c = sep
    · subst hc
      rw [splitAll_self] at h
      rcases List.mem_cons.mp h with rfl | h
      · exact List.not_mem_nil
      · exact ih h
    · rw [splitAll, if_neg hc] at h
      cases hs : splitAll sep cs with
      | nil => exact absurd hs (splitAll_ne_nil sep cs)
      | cons q qs =>
        rw [hs] at h ih
        rcases List.mem_cons.mp h with rfl | h
        · intro hm
          rcases List.mem_cons.mp hm with rfl | hm
          · exact hc rfl
          · exact ih List.mem_cons_self hm
        · exact ih (List.mem_cons_of_mem _ h)

theorem splitAll_joinWith {sep : Char} {ps : List (List Char)} (hne : ps ≠ [])
    (h : ∀ p ∈ ps, sep ∉ p) : splitAll sep (joinWith sep ps) = ps := by
  induction ps with
  | nil => exact absurd rfl hne
  | cons p ps ih =>
    have hp := h p List.mem_cons_self
    cases ps with
    | nil => exact splitAll_of_not_mem hp
    | cons q ps =>
      rw [joinWith_cons_cons, splitAll_append, splitAll_of_not_mem hp,
        ih (List.cons_ne_nil _ _) fun r hr => h r (List.mem_cons_of_mem p hr)]
      rfl

theorem joinWith_append (sep : Char) {ps qs : List (List Char)} (hp : ps ≠ []) (hq : qs ≠ []) :
    joinWith sep (ps ++ qs) = joinWith sep ps ++ sep :: joinWith sep qs := by
  induction ps with
  | nil => exact absurd rfl hp
  | cons p ps ih =>
    cases ps with
    | nil =>
      cases qs with
      | nil => exact absurd rfl hq
      | cons q qs => rfl
    | cons r ps =>
      have h := ih (List.cons_ne_nil _ _)
      rw [List.cons_append] at h
      rw [List.cons_append, List.cons_append, joinWith_cons_cons, h, joinWith_cons_cons,
        List.append_assoc, List.cons_append]

theorem isPrefix_joinWith {sep : Char} {ps qs : List (List Char)} (hne : ps ≠ []) (h : ps <+: qs) :
    joinWith sep ps <+: joinWith sep qs := by
  obtain ⟨rest, rfl⟩ := h
  by_cases hrest : rest = []
  · exact ⟨[], by rw [hrest, List.append_nil, List.append_nil]⟩
  · rw [joinWith_append sep hne hrest]
    exact List.prefix_append _ _

theorem splitLast_of_not_mem {sep : Char} {cs : List Char} (h : sep ∉ cs) :
    splitLast sep cs = none := by
  induction cs with
  | nil => rfl
  | cons c cs ih =>
    have hc : c ≠ sep := fun e => h (e ▸ List.mem_cons_self)
    have hcs : sep ∉ cs := fun e => h (List.mem_cons_of_mem _ e)
    rw [splitLast, ih hcs]
    exact if_neg hc

theorem splitLast_append {sep : Char} (cs : List Char) {ds : List Char} (h : sep ∉ ds) :
    splitLast sep (cs ++ sep :: ds) = some (cs, ds) := by
  induction cs with
  | nil =>
    rw [List.nil_append, splitLast, splitLast_of_not_mem h]
    exact if_pos rfl
  | cons c cs ih => rw [List.cons_append, splitLast, ih]

theorem splitLast_eq_some {sep : Char} {cs before after : List Char}
    (h : splitLast sep cs = some (before, after)) : cs = before ++ sep :: after := by
  induction cs generalizing before with
  | nil => cases h
  | cons c cs ih =>
    rw [splitLast] at h
    split at h
    · next found =>
      cases h
      rw [List.cons_append, ← ih found]
    · split at h
      · next hc =>
        cases h
        rw [hc, List.nil_append]
      · cases h

end Text

namespace Path
open Text

/-! ## plain names -/

structure IsPlain (name : List Char) : Prop where
  ne_nil : name ≠ []
  no_slash : '/' ∉ name
  no_nul : '\x00' ∉ name
  ne_dot : name ≠ ['.']
  ne_dots : name ≠ ['.', '.']

theorem IsPlain.isVoid {name : List Char} (h : IsPlain name) : Path.isVoid name = false := by
  simp [Path.isVoid, h.ne_nil, h.ne_dot]

theorem IsPlain.head? {name : List Char} (h : IsPlain name) : name.head? ≠ some '/' := by
  intro e
  exact h.no_slash (List.mem_of_head? e)

theorem chars_ofChars (cs : List Char) : (ofChars cs).chars = cs := String.toList_ofList
theorem ofChars_chars (p : Path) : ofChars p.chars = p := by
  cases p
  simp [ofChars, chars]

theorem chars_join (p : Path) (name : String) :
    (p.join name).chars = joinChars p.chars name.toList := chars_ofChars _

def front (cs : List Char) : List Char := if cs.getLast? = some '/' then cs.dropLast else cs

theorem front_append {cs : List Char} (h : cs.getLast? = some '/') : front cs ++ ['/'] = cs := by
  obtain ⟨ds, rfl⟩ := List.getLast?_eq_some_iff.mp h
  rw [front, if_pos h, List.dropLast_concat]

/-- a path is the beginning of what it is joined to -/
theorem exists_append_eq_front_append (cs name : List Char) :
    ∃ rest, front cs ++ '/' :: name = cs ++ rest := by
  by_cases h : cs.getLast? = some '/'
  · refine ⟨name, ?_⟩
    rw [← List.singleton_append, ← List.append_assoc, front_append h]
  · exact ⟨'/' :: name, by rw [front, if_neg h]⟩

theorem mem_of_mem_front {c : Char} {cs : List Char} (h : c ∈ front cs) : c ∈ cs := by
  rw [front] at h
  split at h
  · exact List.dropLast_subset _ h
  · exact h

/-- a joined path, cut before its last name -/
theorem joinChars_eq {base name : List Char} (hb : base ≠ []) (hn : IsPlain name) :
    joinChars base name = front base ++ '/' :: name := by
  rw [joinChars, if_neg (not_or.mpr ⟨hn.head?, hb⟩)]
  by_cases h : base.getLast? = some '/'
  · rw [if_pos h, ← List.singleton_append, ← List.append_assoc, front_append h]
  · rw [if_neg h, front, if_neg h]

/-! ## the names between slashes -/

theorem names_append (cs ds : List Char) : names (cs ++ '/' :: ds) = names cs ++ names ds := by
  rw [names, splitAll_append, List.filter_append]
  rfl

theorem names_plain {name : List Char} (h : IsPlain name) : names name = [name] := by
  rw [names, splitAll_of_not_mem h.no_slash]
  simp [h.isVoid]

theorem names_front (cs : List Char) : names (front cs) = names cs := by
  by_cases h : cs.getLast? = some '/'
  · have e : names cs = names (front cs ++ '/' :: []) := by rw [front_append h]
    rw [e, names_append]
    exact (List.append_nil _).symm
  · rw [front, if_neg h]

theorem names_join {base name : List Char} (hb : base ≠ []) (hn : IsPlain name) :
    names (joinChars base name) = names base ++ [name] := by
  rw [joinChars_eq hb hn, names_append, names_front, names_plain hn]

/-- the names of a joined path are those of its parts, also where the first part has none -/
theorem names_chars_join (p : Path) {name : String} (hn : IsPlain name.toList) :
    names (p.join name).chars = names p.chars ++ [name.toList] := by
  rw [chars_join]
  by_cases hb : p.chars = []
  · rw [hb, joinChars, if_pos (Or.inr rfl), names_plain hn]
    rfl
  · exact names_join hb hn

theorem join_inj {p q : Path} {name name' : String} (hn : IsPlain name.toList)
    (hn' : IsPlain name'.toList) (h : p.join name = q.join name') :
    names p.chars = names q.chars ∧ name = name' := by
  have hnames : names (p.join name).chars = names (q.join name').chars := by rw [h]
  rw [names_chars_join p hn, names_chars_join q hn'] at hnames
  obtain ⟨hbase, hlast⟩ := List.append_inj' hnames rfl
  exact ⟨hbase, String.toList_injective (List.cons.inj hlast).1⟩

theorem joinChars_ne_nil {base name : List Char} (hn : IsPlain name) : joinChars base name ≠ [] := by
  by_cases hb : base = []
  · rw [joinChars, if_pos (Or.inr hb)]
    exact hn.ne_nil
  · rw [joinChars_eq hb hn]
    exact List.append_ne_nil_of_right_ne_nil _ (List.cons_ne_nil _ _)

theorem head?_joinChars {base name : List Char} (hb : base ≠ []) (hn : IsPlain name) :
    (joinChars base name).head? = base.head? := by
  rw [joinChars, if_neg (not_or.mpr ⟨hn.head?, hb⟩)]
  obtain ⟨c, cs, rfl⟩ := List.exists_cons_of_ne_nil hb
  split <;> rfl

theorem getLast?_append_name (cs : List Char) {name : List Char} (hn : IsPlain name) :
    (cs ++ '/' :: name).getLast? ≠ some '/' := by
  rcases List.eq_nil_or_concat name with h | ⟨ds, c, h⟩
  · exact absurd h hn.ne_nil
  · have e : cs ++ '/' :: name = (cs ++ '/' :: ds) ++ [c] := by rw [h]; simp
    rw [e, List.getLast?_concat]
    intro hc
    apply hn.no_slash
    rw [h, Option.some.inj hc]
    simp

theorem front_joinChars {base name : List Char} (hb : base ≠ []) (hn : IsPlain name) :
    front (joinChars base name) = joinChars base name := by
  rw [front, if_neg]
  rw [joinChars_eq hb hn]
  exact getLast?_append_name _ hn

/-! ## the last name -/

theorem splitAll_append_name (cs : List Char) {name : List Char} (hn : IsPlain name) :
    (splitAll '/' (cs ++ '/' :: name)).reverse = name :: (splitAll '/' cs).reverse := by
  rw [splitAll_append, splitAll_of_not_mem hn.no_slash, List.reverse_append]
  rfl

theorem split_append_name (cs : List Char) {name : List Char} (hn : IsPlain name) :
    split (cs ++ '/' :: name) = some (name, (splitAll '/' cs).reverse) := by
  rw [split, splitAll_append_name cs hn]
  cases h : (splitAll '/' cs).reverse with
  | nil => exact absurd (List.reverse_eq_nil_iff.mp h) (splitAll_ne_nil '/' cs)
  | cons p ps => rw [lastName, if_neg (by simp [hn.isVoid])]; simp

theorem properName?_append_name (cs : List Char) {name : List Char} (hn : IsPlain name) :
    properName? (cs ++ '/' :: name) = some name := by
  rw [properName?, split_append_name cs hn]
  exact if_neg (not_or.mpr ⟨hn.ne_dot, hn.ne_dots⟩)

/-- a path that ends in a plain name does not say what kind of entry it names -/
theorem wantsDirectory_append_name (cs : List Char) {name : List Char} (hn : IsPlain name) :
    wantsDirectory (cs ++ '/' :: name) = false := by
  rw [wantsDirectory, splitAll_append, splitAll_of_not_mem hn.no_slash, List.getLast?_concat]
  simp [hn.isVoid]

theorem endsInSlash_append_name (cs : List Char) {name : List Char} (hn : IsPlain name) :
    endsInSlash (cs ++ '/' :: name) = false := by
  rw [endsInSlash]
  exact decide_eq_false (getLast?_append_name cs hn)

theorem endsInDots_append_name (cs : List Char) {name : List Char} (hn : IsPlain name) :
    endsInDots (cs ++ '/' :: name) = false := by
  rw [endsInDots, splitAll_append, splitAll_of_not_mem hn.no_slash, List.filter_append]
  have hf : [name].filter (!·.isEmpty) = [name] := by simp [hn.ne_nil]
  rw [hf, List.getLast?_concat]
  simp [hn.ne_dot, hn.ne_dots]

theorem ne_nil_of_isAbsolute {p : Path} (h : p.isAbsolute = true) : p.chars ≠ [] := by
  intro e
  rw [isAbsolute, e] at h
  exact absurd h (by decide)

/-- the directory of a name in a named directory -/
theorem parent?_join {p : Path} (hp : p.chars ≠ []) {dir name : String} (hd : IsPlain dir.toList)
    (hn : IsPlain name.toList) : ((p.join dir).join name).parent? = some (p.join dir) := by
  have hj : joinChars p.chars dir.toList ≠ [] := joinChars_ne_nil hd
  have hs : (splitAll '/' (joinChars p.chars dir.toList)).reverse
      = dir.toList :: (splitAll '/' (front p.chars)).reverse := by
    rw [joinChars_eq hp hd, splitAll_append_name _ hd]
  rw [parent?, chars_join, chars_join, joinChars_eq hj hn, front_joinChars hp hd,
    split_append_name _ hn, hs]
  cases h : (splitAll '/' (front p.chars)).reverse with
  | nil => exact absurd (List.reverse_eq_nil_iff.mp h) (splitAll_ne_nil '/' _)
  | cons q qs =>
    have hv : dropVoid (dir.toList :: q :: qs) = dir.toList :: q :: qs := by
      rw [dropVoid, if_neg (by simp [hd.isVoid])]
      simp
    have hw : (dir.toList :: q :: qs).reverse = splitAll '/' (joinChars p.chars dir.toList) := by
      rw [← h, ← hs, List.reverse_reverse]
    simp only [Option.map_some, hv]
    split
    · next e => simp at e
    · rw [hw, joinWith_splitAll, ← chars_join, ofChars_chars]

/-! ## another extension -/

theorem dropBytes_append (cs : List Char) (c : Char) (ds : List Char) :
    dropBytes (byteCount cs) (cs ++ c :: ds) = c :: ds := by
  induction cs with
  | nil =>
    have : ¬ c.utf8Size ≤ 0 := by have := c.utf8Size_pos; omega
    rw [byteCount_nil, List.nil_append, dropBytes, if_neg this]
  | cons d cs ih =>
    rw [byteCount_cons, List.cons_append, dropBytes, if_pos (Nat.le_add_right _ _),
      Nat.add_sub_cancel_left, ih]

theorem byteCount_reverse (cs : List Char) : byteCount cs.reverse = byteCount cs := by
  induction cs with
  | nil => rfl
  | cons c cs ih =>
    rw [List.reverse_cons, byteCount_append, ih, byteCount_cons, byteCount_cons, byteCount_nil]
    omega

/-- a name cut at a dot behind which no other dot comes -/
theorem splitName_append {stem ext : List Char} (hs : stem ≠ []) (hd : stem ≠ ['.'])
    (he : '.' ∉ ext) : splitName (stem ++ '.' :: ext) = (stem, some ext) := by
  have h : stem ++ '.' :: ext ≠ ['.', '.'] := by
    intro e
    rcases List.append_eq_cons_iff.mp e with ⟨h, -⟩ | ⟨t, rfl, ht⟩
    · exact hs h
    · cases t with
      | nil => exact hd rfl
      | cons c t =>
        have := congrArg List.length ht
        simp at this
  rw [splitName, if_neg h, splitLast_append stem he]
  simp [hs]

/-- a name that is cut at a dot with something behind it -/
theorem splitName_eq_some_iff {name stem ext : List Char} (hx : ext ≠ []) (he : '.' ∉ ext) :
    splitName name = (stem, some ext) ↔ stem ≠ [] ∧ name = stem ++ '.' :: ext := by
  constructor
  · intro h
    rw [splitName] at h
    split at h
    · cases h
    · split at h
      · next hsplit =>
        split at h
        · cases h
        · next hs =>
          cases h
          exact ⟨by simpa using hs, splitLast_eq_some hsplit⟩
      · cases h
  · rintro ⟨hs, rfl⟩
    -- with something before the dot and behind it the name is no pair of dots
    have hne : stem ++ '.' :: ext ≠ ['.', '.'] := by
      intro e
      have hlen := congrArg List.length e
      rw [List.length_append] at hlen
      have h1 := List.length_pos_iff.mpr hs
      have h2 := List.length_pos_iff.mpr hx
      simp only [List.length_cons, List.length_nil] at hlen
      omega
    rw [splitName, if_neg hne, splitLast_append stem he]
    simp [hs]

/-- the new extension stands in the place of the old one -/
theorem withExtension_append (cs : List Char) {stem old : List Char} (hs : stem ≠ [])
    (hd : stem ≠ ['.']) (hl : '/' ∉ stem) (ho : IsPlain (stem ++ '.' :: old)) (hdo : '.' ∉ old)
    (new : String) :
    (ofChars (cs ++ '/' :: (stem ++ '.' :: old))).withExtension new
      = ofChars (cs ++ '/' :: (stem ++ '.' :: new.toList)) := by
  have hold : ((properName? (ofChars (cs ++ '/' :: (stem ++ '.' :: old))).chars).bind
      fun name => (splitName name).2).getD [] = old := by
    rw [chars_ofChars, properName?_append_name cs ho, Option.bind_some,
      splitName_append hs hd hdo]
    rfl
  have hcut : (dropBytes (byteCount old)
      (ofChars (cs ++ '/' :: (stem ++ '.' :: old))).chars.reverse).reverse
      = cs ++ '/' :: (stem ++ ['.']) := by
    have e : (cs ++ '/' :: (stem ++ '.' :: old)).reverse
        = old.reverse ++ '.' :: (stem.reverse ++ '/' :: cs.reverse) := by simp
    rw [chars_ofChars, e, ← byteCount_reverse old, dropBytes_append]
    simp
  -- what is left still ends in the dot, which is part of its last name
  have hdot : stem ++ ['.'] ≠ ['.'] := by simpa using hs
  have hdots : stem ++ ['.'] ≠ ['.', '.'] := by
    intro e
    have e' : stem ++ ['.'] = ['.'] ++ ['.'] := e
    exact hd (List.append_cancel_right e')
  have hname : IsPlain (stem ++ ['.']) := by
    refine ⟨by simp, ?_, ?_, hdot, hdots⟩
    · simp [hl]
    · have := ho.no_nul
      simp only [List.mem_append, List.mem_cons, not_or] at this
      simp [this.1]
  rw [withExtension]
  simp only [hold, hcut, split_append_name cs hname]
  rw [if_neg (not_or.mpr ⟨hdot, hdots⟩), splitName_append hs hd List.not_mem_nil]
  have hp : splitAll '/' cs ≠ [] := splitAll_ne_nil '/' cs
  rw [List.reverse_cons, List.reverse_reverse, joinWith_append '/' hp (List.cons_ne_nil _ _),
    joinWith_splitAll, joinWith_singleton, List.append_assoc, List.cons_append]

end Path

end DiskLayers
