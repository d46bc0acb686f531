import Mathlib.Data.List.Forall2
import Mathlib.Data.List.Induction
import Mathlib.Data.List.TakeWhile
import DiskLayers.Proofs.Names
import DiskLayers.Script.Error

/-!
# What a text says, line by line

* `DropsFinal`               one character less at the end, if it is there
* `IsGrouping`               consecutive groups of physical lines, each of which goes on over backslashes
* `LogicalLine.ofGroups`     the logical lines of groups
* `Text.unfolded`            a text without its backslashes at line ends, and those line ends
* `Text.Trims`               a text without the blanks around it
* `LogicalLine.Says`         what a logical line says, by the rules of the grammar

There is one grouping of the lines of a text, and the logical lines are those of its groups
(`join_eq_ofGroups`); each of them says one thing (`says_iff`).  `parse_follows_grammar` puts the two
together.
-/

namespace DiskLayers
open DiskLayers.Text

/-! ## the end of a line -/

def DropsFinal (c : Char) (cs ds : List Char) : Prop :=
  cs = ds ++ [c] ∨ cs.getLast? ≠ some c ∧ ds = cs

theorem dropFinal?_eq_some {c : Char} {cs ds : List Char} :
    dropFinal? c cs = some ds ↔ cs = ds ++ [c] := by
  rw [dropFinal?]
  constructor
  · intro h
    split at h
    · next hlast =>
      cases h
      obtain ⟨es, rfl⟩ := List.getLast?_eq_some_iff.mp hlast
      rw [List.dropLast_concat]
    · cases h
  · rintro rfl
    rw [if_pos List.getLast?_concat, List.dropLast_concat]

theorem dropFinal?_eq_none {c : Char} {cs : List Char} :
    dropFinal? c cs = none ↔ cs.getLast? ≠ some c := by
  rw [dropFinal?]
  split
  · next h => exact iff_of_false (by simp) (not_not_intro h)
  · next h => exact iff_of_true rfl h

/-- the list without a `c` at its end -/
def withoutFinal (c : Char) (cs : List Char) : List Char := (dropFinal? c cs).getD cs

theorem dropsFinal_iff {c : Char} {cs ds : List Char} :
    DropsFinal c cs ds ↔ ds = withoutFinal c cs := by
  rw [DropsFinal, withoutFinal]
  cases h : dropFinal? c cs with
  | some es =>
    rw [dropFinal?_eq_some] at h
    subst h
    constructor
    · rintro (h | ⟨h, -⟩)
      · exact (List.append_cancel_right h).symm
      · exact absurd List.getLast?_concat h
    · rintro rfl
      exact Or.inl rfl
  | none =>
    rw [dropFinal?_eq_none] at h
    constructor
    · rintro (rfl | ⟨-, rfl⟩)
      · exact absurd List.getLast?_concat h
      · rfl
    · rintro rfl
      exact Or.inr ⟨h, rfl⟩

theorem withoutFinal_concat (c : Char) (cs : List Char) : withoutFinal c (cs ++ [c]) = cs :=
  (dropsFinal_iff.mp (Or.inl rfl)).symm

theorem withoutFinal_of_ne {c : Char} {cs : List Char} (h : cs.getLast? ≠ some c) :
    withoutFinal c cs = cs := (dropsFinal_iff.mp (Or.inr ⟨h, rfl⟩)).symm

/-- what stands behind another character decides about the end -/
theorem withoutFinal_append {c d : Char} (hd : d ≠ c) (cs ds : List Char) :
    withoutFinal c (cs ++ d :: ds) = cs ++ d :: withoutFinal c ds := by
  rcases List.eq_nil_or_concat ds with rfl | ⟨es, e, rfl⟩
  · rw [withoutFinal_of_ne (by simpa using hd), withoutFinal_of_ne (by simp)]
  · rw [List.concat_eq_append]
    by_cases he : e = c
    · subst he
      rw [withoutFinal_concat, ← List.cons_append, ← List.append_assoc, withoutFinal_concat]
    · have hlast : ∀ fs : List Char, (fs ++ [e]).getLast? ≠ some c := by
        intro fs hl
        rw [List.getLast?_concat] at hl
        exact he (Option.some.inj hl)
      have hwhole : cs ++ d :: (es ++ [e]) = (cs ++ d :: es) ++ [e] := by
        rw [List.append_assoc, List.cons_append]
      rw [withoutFinal_of_ne (hlast es), hwhole, withoutFinal_of_ne (hlast _)]

/-! ## groups of lines -/

/-- a line that goes on in the next one -/
def Continues (line : List Char) : Prop := line.getLast? = some '\\'

/-- Lines in consecutive groups, none of them empty: a group goes on behind a line that ends in a
backslash, and it ends behind one that does not, or behind the last line of all. -/
structure IsGrouping (lines : List (List Char)) (groups : List (List (List Char))) : Prop where
  flatten : groups.flatten = lines
  ne_nil : ∀ group ∈ groups, group ≠ []
  inner : ∀ group ∈ groups, ∀ line ∈ group.dropLast, Continues line
  last : ∀ group ∈ groups.dropLast, ∀ line, group.getLast? = some line → ¬ Continues line

namespace LogicalLine

/-- what the lines of a group say together, each without its backslash -/
def textOf (group : List (List Char)) : List Char := group.flatMap (withoutFinal '\\')

/-- The logical lines of groups, the first line of which has the number `n`. -/
def ofGroups (n : Nat) : List (List (List Char)) → List LogicalLine
  | [] => []
  | group :: groups => ⟨n, textOf group⟩ :: ofGroups (n + group.length) groups

theorem continued?_eq_some {line head : List Char} :
    continued? line = some head ↔ line = head ++ ['\\'] := dropFinal?_eq_some

theorem continued?_eq_none {line : List Char} : continued? line = none ↔ ¬ Continues line :=
  dropFinal?_eq_none

theorem join_ne_nil (n : Nat) {lines : List (List Char)} (h : lines ≠ []) : join n lines ≠ [] := by
  cases lines with
  | nil => exact absurd rfl h
  | cons line lines =>
    rw [join]
    split
    · exact List.cons_ne_nil _ _
    · split <;> exact List.cons_ne_nil _ _

/-- What the first line adds: a logical line that starts there, of its characters and those of the one
that it goes on in. -/
theorem mem_join_cons {n : Nat} {line : List Char} {lines : List (List Char)} {l : LogicalLine}
    (h : l ∈ join n (line :: lines)) : l ∈ join (n + 1) lines ∨
      (l.start = n ∧ ∀ c ∈ l.text, c ∈ line ∨ ∃ next ∈ join (n + 1) lines, c ∈ next.text) := by
  rw [join] at h
  cases hc : continued? line with
  | none =>
    rw [hc] at h
    rcases List.mem_cons.mp h with rfl | h
    · exact Or.inr ⟨rfl, fun c hmem => Or.inl hmem⟩
    · exact Or.inl h
  | some head =>
    have hhead : ∀ c ∈ head, c ∈ line := fun c hmem => by
      rw [continued?_eq_some.mp hc]
      exact List.mem_append_left _ hmem
    rw [hc] at h
    cases hj : join (n + 1) lines with
    | nil =>
      rw [hj] at h
      rw [List.mem_singleton.mp h]
      exact Or.inr ⟨rfl, fun c hmem => Or.inl (hhead c hmem)⟩
    | cons next rest =>
      rw [hj] at h
      rcases List.mem_cons.mp h with rfl | h
      · refine Or.inr ⟨rfl, fun c hmem => (List.mem_append.mp hmem).imp (hhead c) fun hmem => ?_⟩
        exact ⟨next, List.mem_cons_self, hmem⟩
      · exact Or.inl (List.mem_cons_of_mem _ h)

/-- The lines of a group make one logical line.  By induction on those that go on. -/
theorem join_group (n : Nat) (inner : List (List Char)) (last : List Char)
    (rest : List (List Char)) (hinner : ∀ line ∈ inner, Continues line)
    (hlast : ¬ Continues last ∨ rest = []) :
    join n (inner ++ last :: rest) =
      ⟨n, textOf (inner ++ [last])⟩ :: join (n + inner.length + 1) rest := by
  induction inner generalizing n with
  | nil =>
    rw [List.nil_append, List.nil_append, join]
    cases hc : continued? last with
    | none =>
      have htext : textOf [last] = last := by
        rw [textOf, List.flatMap_singleton, withoutFinal_of_ne (continued?_eq_none.mp hc)]
      dsimp only
      rw [htext]
      rfl
    | some head =>
      have hends := continued?_eq_some.mp hc
      have hrest : rest = [] := by
        refine hlast.resolve_left fun h => h ?_
        rw [Continues, hends, List.getLast?_concat]
      subst hrest
      have htext : textOf [last] = head := by
        rw [textOf, List.flatMap_singleton, hends, withoutFinal_concat]
      dsimp only [join]
      rw [htext]
  | cons line inner ih =>
    obtain ⟨head, hends⟩ := List.getLast?_eq_some_iff.mp (hinner line List.mem_cons_self)
    have hc : continued? line = some head := continued?_eq_some.mpr hends
    rw [List.cons_append, join, hc, ih (n + 1) fun l hl => hinner l (List.mem_cons_of_mem _ hl)]
    dsimp only
    have htext : textOf (line :: inner ++ [last]) = head ++ textOf (inner ++ [last]) := by
      rw [textOf, List.cons_append, List.flatMap_cons, hends, withoutFinal_concat]
      rfl
    rw [htext, List.length_cons]
    congr 2
    omega

end LogicalLine

namespace IsGrouping
open LogicalLine
variable {lines : List (List Char)} {group : List (List Char)} {groups groups' : List (List (List Char))}

theorem nil : IsGrouping [] [] := ⟨rfl, by simp, by simp, by simp⟩

/-- the groups behind the first one are those of the lines behind it -/
theorem tail (h : IsGrouping lines (group :: groups)) : IsGrouping groups.flatten groups := by
  refine ⟨rfl, fun g hg => h.ne_nil g (List.mem_cons_of_mem _ hg),
    fun g hg => h.inner g (List.mem_cons_of_mem _ hg), fun g hg => h.last g ?_⟩
  cases groups with
  | nil => exact absurd hg List.not_mem_nil
  | cons g' gs => exact List.mem_cons_of_mem _ hg

/-- the first group goes on up to a line that does not, or up to the last line of all -/
theorem first (h : IsGrouping lines (group :: groups)) : ∃ inner last,
    group = inner ++ [last] ∧ (∀ line ∈ inner, Continues line) ∧
      (¬ Continues last ∨ groups.flatten = []) := by
  rcases List.eq_nil_or_concat group with he | ⟨inner, last, he⟩
  · exact absurd he (h.ne_nil _ List.mem_cons_self)
  rw [List.concat_eq_append] at he
  subst he
  refine ⟨inner, last, rfl, ?_, ?_⟩
  · have hin := h.inner _ List.mem_cons_self
    rwa [List.dropLast_concat] at hin
  · cases groups with
    | nil => exact Or.inr rfl
    | cons g gs => exact Or.inl (h.last _ List.mem_cons_self last List.getLast?_concat)

/-- The logical lines are those of the groups.  By induction on the groups. -/
theorem join_eq_ofGroups (h : IsGrouping lines groups) (n : Nat) : join n lines = ofGroups n groups := by
  induction groups generalizing n lines with
  | nil =>
    rw [← h.flatten]
    rfl
  | cons group groups ih =>
    obtain ⟨inner, last, rfl, hinner, hlast⟩ := h.first
    rw [← h.flatten, List.flatten_cons, List.append_assoc, List.singleton_append,
      join_group n inner last _ hinner hlast, ih h.tail, ofGroups, List.length_append,
      List.length_singleton, Nat.add_assoc]

/-- A list of lines can be cut in one way only: the first group ends in both where the first line
does not go on. -/
theorem unique (h : IsGrouping lines groups) (h' : IsGrouping lines groups') : groups' = groups := by
  induction groups generalizing lines groups' with
  | nil =>
    cases groups' with
    | nil => rfl
    | cons g gs =>
      have hnil := h'.flatten.trans h.flatten.symm
      rw [List.flatten_cons] at hnil
      exact absurd (List.append_eq_nil_iff.mp hnil).1 (h'.ne_nil _ List.mem_cons_self)
  | cons group groups ih =>
    cases groups' with
    | nil =>
      have hnil := h.flatten.trans h'.flatten.symm
      rw [List.flatten_cons] at hnil
      exact absurd (List.append_eq_nil_iff.mp hnil).1 (h.ne_nil _ List.mem_cons_self)
    | cons group' groups' =>
      obtain ⟨inner, last, rfl, hinner, hlast⟩ := h.first
      obtain ⟨inner', last', rfl, hinner', hlast'⟩ := h'.first
      have hsame : inner' ++ last' :: groups'.flatten = inner ++ last :: groups.flatten := by
        have he := h'.flatten.trans h.flatten.symm
        simpa only [List.flatten_cons, List.append_assoc, List.singleton_append] using he
      have hcut : inner' = inner ∧ last' = last ∧ groups'.flatten = groups.flatten := by
        rcases List.append_eq_append_iff.mp hsame with ⟨more, rfl, he⟩ | ⟨more, rfl, he⟩
        · cases more with
          | nil =>
            obtain ⟨hl, hg⟩ := List.cons.inj ((List.nil_append _).symm.trans he.symm)
            exact ⟨(List.append_nil _).symm, hl.symm, hg.symm⟩
          | cons l more =>
            -- the second cut goes on where the first one has ended
            rw [List.cons_append] at he
            obtain ⟨rfl, he⟩ := List.cons.inj he
            rcases hlast' with hl | hl
            · exact absurd (hinner last' (List.mem_append_right _ List.mem_cons_self)) hl
            · rw [hl] at he
              simp at he
        · cases more with
          | nil =>
            obtain ⟨hl, hg⟩ := List.cons.inj (he.trans (List.nil_append _))
            exact ⟨List.append_nil _, hl.symm, hg.symm⟩
          | cons l more =>
            rw [List.cons_append] at he
            obtain ⟨rfl, he⟩ := List.cons.inj he
            rcases hlast with hl | hl
            · exact absurd (hinner' last (List.mem_append_right _ List.mem_cons_self)) hl
            · rw [hl] at he
              simp at he
      obtain ⟨rfl, rfl, hrest⟩ := hcut
      have htail : IsGrouping groups.flatten groups' := by
        rw [← hrest]
        exact h'.tail
      rw [ih h.tail htail]

/-- one more line before the first group, or in a group of its own -/
theorem cons (h : IsGrouping lines groups) (line : List Char) :
    ∃ groups', IsGrouping (line :: lines) groups' := by
  by_cases hc : Continues line
  · cases groups with
    | nil =>
      refine ⟨[[line]], ?_, by simp, by simp, by simp⟩
      rw [← h.flatten]
      rfl
    | cons group groups =>
      obtain ⟨inner, last, rfl, hinner, hlast⟩ := h.first
      refine ⟨(line :: (inner ++ [last])) :: groups, ?_, ?_, ?_, ?_⟩
      · rw [← h.flatten]
        rfl
      · rintro g (_ | ⟨_, hg⟩)
        · exact List.cons_ne_nil _ _
        · exact h.ne_nil g (List.mem_cons_of_mem _ hg)
      · rintro g (_ | ⟨_, hg⟩)
        · intro l hl
          rw [← List.cons_append, List.dropLast_concat] at hl
          rcases List.mem_cons.mp hl with rfl | hl
          · exact hc
          · exact hinner l hl
        · exact h.inner g (List.mem_cons_of_mem _ hg)
      · cases groups with
        | nil => exact fun g hg => absurd hg List.not_mem_nil
        | cons g₂ gs =>
          rintro g (_ | ⟨_, hg⟩)
          · intro l hl
            rw [← List.cons_append, List.getLast?_concat] at hl
            exact h.last _ List.mem_cons_self l (by rw [List.getLast?_concat]; exact hl)
          · exact h.last g (List.mem_cons_of_mem _ hg)
  · refine ⟨[line] :: groups, ?_, ?_, ?_, ?_⟩
    · rw [← h.flatten]
      rfl
    · rintro g (_ | ⟨_, hg⟩)
      · exact List.cons_ne_nil _ _
      · exact h.ne_nil g hg
    · rintro g (_ | ⟨_, hg⟩)
      · exact fun l hl => absurd hl List.not_mem_nil
      · exact h.inner g hg
    · cases groups with
      | nil => exact fun g hg => absurd hg List.not_mem_nil
      | cons g₂ gs =>
        rintro g (_ | ⟨_, hg⟩)
        · intro l hl
          cases hl
          exact hc
        · exact h.last g hg

theorem exists_of_lines (lines : List (List Char)) : ∃ groups, IsGrouping lines groups := by
  induction lines with
  | nil => exact ⟨[], .nil⟩
  | cons line lines ih =>
    obtain ⟨groups, h⟩ := ih
    exact h.cons line

end IsGrouping

/-! ## the text of the logical lines -/

namespace Text

/-- a text without every backslash that a line feed follows, and that line feed -/
def unfolded : List Char → List Char
  | [] => []
  | '\\' :: '\n' :: cs => unfolded cs
  | c :: cs => c :: unfolded cs

theorem unfolded_cons {c : Char} {cs : List Char} (h : c = '\\' → cs.head? ≠ some '\n') :
    unfolded (c :: cs) = c :: unfolded cs := by
  rw [unfolded]
  rintro ds rfl rfl
  exact h rfl rfl

/-- a line that ends in a backslash runs into the next one, every other one stays apart from it -/
theorem unfolded_append {line : List Char} (hl : '\n' ∉ line) (rest : List Char) :
    unfolded (line ++ '\n' :: rest) = withoutFinal '\\' line ++
      if line.getLast? = some '\\' then unfolded rest else '\n' :: unfolded rest := by
  induction line with
  | nil =>
    rw [List.nil_append, unfolded_cons (by simp), withoutFinal_of_ne (by simp)]
    rfl
  | cons c line ih =>
    have ih := ih fun h => hl (List.mem_cons_of_mem _ h)
    cases line with
    | nil =>
      by_cases hc : c = '\\'
      · subst hc
        rfl
      · rw [List.singleton_append, unfolded_cons fun e => absurd e hc, unfolded_cons (by simp),
          withoutFinal_of_ne (by simpa using hc), if_neg (by simpa using hc)]
        rfl
    | cons d ds =>
      have hd : d ≠ '\n' := fun e => hl (by simp [e])
      have hlast : (c :: d :: ds).getLast? = (d :: ds).getLast? := List.getLast?_cons_cons
      have hdrop : withoutFinal '\\' (c :: d :: ds) = c :: withoutFinal '\\' (d :: ds) := by
        by_cases he : (d :: ds).getLast? = some '\\'
        · obtain ⟨es, he⟩ := List.getLast?_eq_some_iff.mp he
          rw [he, withoutFinal_concat, ← List.cons_append, withoutFinal_concat]
        · rw [withoutFinal_of_ne he, withoutFinal_of_ne (hlast ▸ he)]
      rw [List.cons_append, unfolded_cons fun _ => by simpa using hd, ih, hlast, hdrop]
      rfl

theorem unfolded_of_not_mem {cs : List Char} (h : '\n' ∉ cs) : unfolded cs = cs := by
  induction cs with
  | nil => rfl
  | cons c cs ih =>
    rw [unfolded_cons, ih fun hm => h (List.mem_cons_of_mem _ hm)]
    intro _ hhead
    exact h (List.mem_cons_of_mem _ (List.mem_of_mem_head? hhead))

end Text

/-- The logical lines with line feeds between them are the physical lines with line feeds between
them, less a backslash at the very end and all backslashes at line ends with those line ends.  By
induction on the physical lines. -/
theorem joinWith_join (n : Nat) {lines : List (List Char)} (hne : lines ≠ [])
    (hl : ∀ line ∈ lines, '\n' ∉ line) :
    joinWith '\n' ((LogicalLine.join n lines).map LogicalLine.text) =
      unfolded (withoutFinal '\\' (joinWith '\n' lines)) := by
  induction lines generalizing n with
  | nil => exact absurd rfl hne
  | cons line lines ih =>
    have hline : '\n' ∉ line := hl line List.mem_cons_self
    rw [LogicalLine.join]
    cases lines with
    | nil =>
      have hfinal : '\n' ∉ withoutFinal '\\' line := by
        rw [withoutFinal, dropFinal?]
        split
        · exact fun hm => hline (List.dropLast_subset _ hm)
        · exact hline
      rw [joinWith_singleton, unfolded_of_not_mem hfinal, withoutFinal]
      unfold continued?
      cases dropFinal? '\\' line <;> rfl
    | cons next lines =>
      have ih := ih (n + 1) (List.cons_ne_nil _ _) fun l h => hl l (List.mem_cons_of_mem _ h)
      rw [joinWith_cons_cons, withoutFinal_append (by decide), unfolded_append hline, ← ih]
      cases hj : LogicalLine.join (n + 1) (next :: lines) with
      | nil => exact absurd hj (LogicalLine.join_ne_nil _ (List.cons_ne_nil _ _))
      | cons first others =>
        cases hc : continued? line with
        | none =>
          have hends : line.getLast? ≠ some '\\' := LogicalLine.continued?_eq_none.mp hc
          dsimp only
          rw [withoutFinal_of_ne hends, if_neg hends, List.map_cons, List.map_cons, joinWith_cons_cons]
        | some head =>
          have hends := LogicalLine.continued?_eq_some.mp hc
          dsimp only
          rw [hends, withoutFinal_concat, if_pos List.getLast?_concat, List.map_cons, List.map_cons]
          cases others with
          | nil => rfl
          | cons other others =>
            rw [List.map_cons, joinWith_cons_cons, joinWith_cons_cons, List.append_assoc]

theorem not_mem_of_mem_physicalLines {text : String} {line : List Char}
    (h : line ∈ physicalLines text) : '\n' ∉ line := by
  obtain ⟨piece, hp, rfl⟩ := List.mem_map.mp h
  have hpiece := not_mem_of_mem_splitAll hp
  rw [dropReturn, dropFinal?]
  split
  · exact fun hm => hpiece (List.dropLast_subset _ hm)
  · exact hpiece

/-! ## what a line says -/

namespace Text

/-- A list is another one without the blanks around it. -/
structure Trims (cs ds : List Char) : Prop where
  around : ∃ front back, cs = front ++ ds ++ back ∧ ∀ c ∈ front ++ back, isBlank c = true
  first : ∀ c, ds.head? = some c → isBlank c = false
  last : ∀ c, ds.getLast? = some c → isBlank c = false

theorem trimBlankStart_append_of_isBlank {front : List Char} (h : ∀ c ∈ front, isBlank c = true)
    (cs : List Char) : trimBlankStart (front ++ cs) = trimBlankStart cs := by
  induction front with
  | nil => rfl
  | cons c front ih =>
    rw [List.cons_append, trimBlankStart_of_isBlank _ (h c List.mem_cons_self),
      ih fun d hd => h d (List.mem_cons_of_mem _ hd)]

theorem trimBlankEnd_append_blanks {back : List Char} (h : ∀ c ∈ back, isBlank c = true)
    (cs : List Char) : trimBlankEnd (cs ++ back) = trimBlankEnd cs := by
  induction back generalizing cs with
  | nil => rw [List.append_nil]
  | cons c back ih =>
    rw [← List.singleton_append, ← List.append_assoc,
      ih (fun d hd => h d (List.mem_cons_of_mem _ hd)),
      trimBlankEnd_append_of_isBlank cs (h c List.mem_cons_self)]

/-- what is cut off at the end is blank, and what is left does not end in a blank -/
theorem trimBlankEnd_spec (cs : List Char) : (∃ back, cs = trimBlankEnd cs ++ back ∧
    ∀ c ∈ back, isBlank c = true) ∧ ∀ c, (trimBlankEnd cs).getLast? = some c → isBlank c = false := by
  induction cs using List.reverseRecOn with
  | nil => exact ⟨⟨[], rfl, by simp⟩, fun c hc => by cases hc⟩
  | append_singleton cs c ih =>
    cases hc : isBlank c with
    | false =>
      rw [trimBlankEnd_append cs hc]
      refine ⟨⟨[], (List.append_nil _).symm, by simp⟩, fun d hd => ?_⟩
      rw [List.getLast?_concat] at hd
      cases hd
      exact hc
    | true =>
      obtain ⟨⟨back, hback, hblank⟩, hlast⟩ := ih
      rw [trimBlankEnd_append_of_isBlank cs hc]
      refine ⟨⟨back ++ [c], ?_, ?_⟩, hlast⟩
      · rw [← List.append_assoc, ← hback]
      · intro d hd
        rcases List.mem_append.mp hd with hd | hd
        · exact hblank d hd
        · rw [List.mem_singleton.mp hd]
          exact hc

/-- a list can be trimmed in one way only -/
theorem trims_iff {cs ds : List Char} : Trims cs ds ↔ ds = trimBlank cs := by
  constructor
  · rintro ⟨⟨front, back, rfl, hblank⟩, hfirst, hlast⟩
    rw [trimBlank, List.append_assoc,
      trimBlankStart_append_of_isBlank fun c hc => hblank c (List.mem_append_left _ hc)]
    have hback : ∀ c ∈ back, isBlank c = true := fun c hc => hblank c (List.mem_append_right _ hc)
    cases ds with
    | nil =>
      rw [← List.append_nil ([] ++ back), List.nil_append,
        trimBlankStart_append_of_isBlank hback]
      rfl
    | cons d ds =>
      rw [List.cons_append, trimBlankStart_of_not_isBlank _ (hfirst d rfl), ← List.cons_append,
        trimBlankEnd_append_blanks hback]
      obtain ⟨es, e, he⟩ := (List.eq_nil_or_concat (d :: ds)).resolve_left (List.cons_ne_nil _ _)
      rw [List.concat_eq_append] at he
      rw [he, trimBlankEnd_append es (hlast e (by rw [he, List.getLast?_concat]))]
  · rintro rfl
    obtain ⟨⟨back, hback, hblank⟩, hlast⟩ := trimBlankEnd_spec (trimBlankStart cs)
    refine ⟨⟨cs.takeWhile isBlank, back, ?_, ?_⟩, ?_, hlast⟩
    · rw [List.append_assoc, trimBlank, ← hback, trimBlankStart, List.takeWhile_append_dropWhile]
    · intro c hc
      rcases List.mem_append.mp hc with hc | hc
      · exact List.mem_takeWhile_imp hc
      · exact hblank c hc
    · intro c hc
      -- the first character that is left is the first one that is not blank
      have hhead : (trimBlankStart cs).head? = some c := by
        rw [hback, List.head?_append, ← trimBlank, hc]
        rfl
      have hnot := List.head?_dropWhile_not isBlank cs
      rw [← trimBlankStart, hhead] at hnot
      simpa using hnot

end Text

/-- What a logical line says, by what is left of it without the blanks around it. -/
inductive LogicalLine.Says (l : LogicalLine) : LineMeaning → Prop
  | blank : Trims l.text [] → Says l .nothing
  | comment {rest} : Trims l.text ('#' :: rest) → Says l .nothing
  /-- there is no space in it -/
  | bare {cs} : Trims l.text cs → cs ≠ [] → cs.head? ≠ some '#' → ' ' ∉ cs →
    Says l (.dropped ⟨l.start, .missingArgument (String.ofList cs)⟩)
  /-- what stands before the first space is no keyword -/
  | unknown {word argument} : Trims l.text (word ++ ' ' :: argument) → word.head? ≠ some '#' →
    ' ' ∉ word → (∀ d ∈ Directive.all, d.keyword.toList ≠ word) →
    Says l (.dropped ⟨l.start, .unknownDirective (String.ofList word)⟩)
  /-- it is one, and the argument is all that stands behind that space -/
  | operation {d argument} : Trims l.text (d.keyword.toList ++ ' ' :: argument) →
    Says l (.operation (.of d (String.ofList argument)))

theorem Directive.keyword_plain (d : Directive) :
    ' ' ∉ d.keyword.toList ∧ d.keyword.toList ≠ [] ∧ d.keyword.toList.head? ≠ some '#' := by
  cases d <;> decide

theorem Directive.ofKeyword?_eq_none {word : List Char} :
    ofKeyword? (String.ofList word) = none ↔ ∀ d ∈ all, d.keyword.toList ≠ word := by
  rw [ofKeyword?, List.find?_eq_none]
  refine forall₂_congr fun d _ => ?_
  rw [decide_eq_true_eq, ← String.toList_inj, String.toList_ofList]

/-- a line says what the parser takes it to mean, and nothing else -/
theorem LogicalLine.says_iff {l : LogicalLine} {m : LineMeaning} : l.Says m ↔ m = l.meaning := by
  constructor
  · intro h
    cases h with
    | blank ht =>
      rw [meaning, ← trims_iff.mp ht]
      exact (if_pos (Or.inl rfl)).symm
    | comment ht =>
      rw [meaning, ← trims_iff.mp ht]
      exact (if_pos (Or.inr rfl)).symm
    | bare ht hne hhash hspace =>
      rw [meaning, ← trims_iff.mp ht]
      rw [if_neg (not_or.mpr ⟨hne, hhash⟩), splitFirst_eq_none.mpr hspace]
    | @unknown word argument ht hhash hspace hkey =>
      have hhead : (word ++ ' ' :: argument).head? ≠ some '#' := by
        cases word with
        | nil => simp
        | cons c word => exact hhash
      rw [meaning, ← trims_iff.mp ht]
      rw [if_neg (not_or.mpr ⟨by simp, hhead⟩), splitFirst_append hspace]
      dsimp only
      rw [Directive.ofKeyword?_eq_none.mpr hkey]
    | @operation d argument ht =>
      -- no keyword begins like a comment
      obtain ⟨hspace, hne, hhash⟩ := d.keyword_plain
      have hhead : (d.keyword.toList ++ ' ' :: argument).head? ≠ some '#' := by
        rw [List.head?_append_of_ne_nil _ hne]
        exact hhash
      rw [meaning, ← trims_iff.mp ht]
      rw [if_neg (not_or.mpr ⟨by simp, hhead⟩), splitFirst_append hspace]
      dsimp only
      rw [String.ofList_toList, Directive.ofKeyword?_keyword]
  · rintro rfl
    have ht : Trims l.text (trimBlank l.text) := trims_iff.mpr rfl
    rw [meaning]
    generalize trimBlank l.text = cs at ht ⊢
    by_cases hnothing : cs = [] ∨ cs.head? = some '#'
    · rw [if_pos hnothing]
      rcases hnothing with rfl | hhash
      · exact .blank ht
      · obtain ⟨rest, rfl⟩ := List.head?_eq_some_iff.mp hhash
        exact .comment ht
    · rw [if_neg hnothing]
      obtain ⟨hne, hhash⟩ := not_or.mp hnothing
      cases hs : splitFirst ' ' cs with
      | none => exact .bare ht hne hhash (splitFirst_eq_none.mp hs)
      | some parts =>
        obtain ⟨word, argument⟩ := parts
        obtain ⟨rfl, hspace⟩ := splitFirst_eq_some hs
        dsimp only
        cases hk : Directive.ofKeyword? (String.ofList word) with
        | none =>
          refine .unknown ht ?_ hspace (Directive.ofKeyword?_eq_none.mp hk)
          cases word with
          | nil => simp
          | cons c word => exact hhash
        | some d =>
          have hword : d.keyword.toList = word := by
            rw [Directive.keyword_of_ofKeyword? hk, String.toList_ofList]
          subst hword
          exact .operation ht

theorem Script.parseWith_eq_ok {strict : Bool} {text : String} {ops : List Operation} :
    parseWith strict text = .ok ⟨ops, []⟩ ↔ parse text = ⟨ops, []⟩ := by
  have hok : ∀ script : Script, (Except.ok script : Except ScriptError Script) = .ok ⟨ops, []⟩ ↔
      script = ⟨ops, []⟩ := fun script => ⟨Except.ok.inj, congrArg Except.ok⟩
  cases strict with
  | false => exact hok _
  | true =>
    rw [parseWith, if_pos rfl, parseStrict]
    cases hw : (parse text).warnings with
    | nil => exact hok _
    | cons w ws => exact iff_of_false (by simp) fun h => by rw [h] at hw; cases hw

/-- A text is read by the rules.  Its physical lines are what stands between line feeds, less a
carriage return at the end of each; they fall into groups in one way, each group makes one logical
line, and each logical line says one thing.  The script has the operations and the warnings in the
order of these lines; where none is allowed the first warning is the error. -/
theorem parse_follows_grammar (text : String) :
    ∃ pieces lines groups meanings,
      (joinWith '\n' pieces = text.toList ∧ pieces ≠ [] ∧ (∀ piece ∈ pieces, '\n' ∉ piece) ∧
        List.Forall₂ (DropsFinal '\r') pieces lines) ∧
      (IsGrouping lines groups ∧ (∀ groups', IsGrouping lines groups' → groups' = groups) ∧
        logicalLines text = LogicalLine.ofGroups 1 groups) ∧
      joinWith '\n' ((logicalLines text).map LogicalLine.text) =
        unfolded (withoutFinal '\\' (joinWith '\n' lines)) ∧
      (List.Forall₂ LogicalLine.Says (logicalLines text) meanings ∧
        (∀ l ∈ logicalLines text, ∃! m, l.Says m) ∧
        (Script.parse text).operations = meanings.filterMap LineMeaning.operation? ∧
        (Script.parse text).warnings = meanings.filterMap LineMeaning.warning?) ∧
      Script.parseWith false text = .ok (Script.parse text) ∧
      Script.parseWith true text =
        match (Script.parse text).warnings.head? with
        | none => .ok (Script.parse text)
        | some w => .error (.strict w) := by
  obtain ⟨groups, hgroups⟩ := IsGrouping.exists_of_lines (physicalLines text)
  have hne : physicalLines text ≠ [] := by
    rw [physicalLines, Ne, List.map_eq_nil_iff]
    exact splitAll_ne_nil _ _
  refine ⟨splitAll '\n' text.toList, physicalLines text, groups,
    (logicalLines text).map LogicalLine.meaning,
    ⟨joinWith_splitAll _ _, splitAll_ne_nil _ _, ?_, ?_⟩, ⟨hgroups, ?_, ?_⟩, ?_,
    ⟨?_, ?_, rfl, rfl⟩, rfl, ?_⟩
  · exact fun piece hp => not_mem_of_mem_splitAll hp
  · rw [physicalLines, List.forall₂_map_right_iff, List.forall₂_same]
    exact fun piece _ => dropsFinal_iff.mpr rfl
  · exact fun groups' h' => hgroups.unique h'
  · exact hgroups.join_eq_ofGroups 1
  · exact joinWith_join 1 hne fun line hl => not_mem_of_mem_physicalLines hl
  · rw [List.forall₂_map_right_iff, List.forall₂_same]
    exact fun l _ => LogicalLine.says_iff.mpr rfl
  · exact fun l _ => ⟨l.meaning, LogicalLine.says_iff.mpr rfl, fun m hm => LogicalLine.says_iff.mp hm⟩
  · rw [Script.parseWith, if_pos rfl, Script.parseStrict]
    cases (Script.parse text).warnings <;> rfl

/-- a line that goes on twice, a comment, an unknown word, and a backslash at the very end -/
example : Script.parse "BASE d\r\nMUTATE a \\\r\n b\\\n\\c\n# x \\\ny\nRUN\\" =
    ⟨[.base "d", .mutate "a  b\\c"], [⟨7, .missingArgument "RUN"⟩]⟩ := by decide +kernel

end DiskLayers
