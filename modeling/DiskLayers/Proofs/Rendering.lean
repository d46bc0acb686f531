import Mathlib
import DiskLayers.Proofs.Reading

/-!
# Scripts written out and read again

* `Operation.IsSayable`   an operation that a line of some text says
* `LogicalLine.length_join`, `Script.length_operations_le`
                          joining costs one character for each line that goes on, reading adds none

Operations are read back from their text exactly if each of them is sayable and none ends in a
backslash (`parse_render_iff`).  All operations of a text are sayable (`isSayable_of_mem_parse`), so
that a backslash is all that can go wrong when a script that was read is written out.
-/

namespace DiskLayers
open DiskLayers.Text

/-- An operation that a line of some text says: it is the one that its directive and its argument
make, and the argument is not empty, has no line feed in it and does not end in a blank. -/
structure Operation.IsSayable (op : Operation) : Prop where
  made : Operation.of op.directive op.argument = op
  ne_empty : op.argument ≠ ""
  oneLine : '\n' ∉ op.argument.toList
  closed : ∀ c, op.argument.toList.getLast? = some c → isBlank c = false

instance : DecidablePred Operation.IsSayable := fun op =>
  decidable_of_iff (Operation.of op.directive op.argument = op ∧ op.argument ≠ "" ∧
      '\n' ∉ op.argument.toList ∧ op.argument.toList.getLast?.all (!isBlank ·) = true) <| by
    have hlast : op.argument.toList.getLast?.all (!isBlank ·) = true ↔
        ∀ c, op.argument.toList.getLast? = some c → isBlank c = false := by
      cases op.argument.toList.getLast? <;> simp
    rw [hlast]
    exact ⟨fun ⟨h₁, h₂, h₃, h₄⟩ => ⟨h₁, h₂, h₃, h₄⟩, fun ⟨h₁, h₂, h₃, h₄⟩ => ⟨h₁, h₂, h₃, h₄⟩⟩

/-! ## the line of an operation -/

theorem Directive.newline_not_mem_keyword (d : Directive) : '\n' ∉ d.keyword.toList := by
  cases d <;> decide

theorem Directive.head?_keyword (d : Directive) : d.keyword.toList.head?.all (!isBlank ·) = true := by
  cases d <;> decide

namespace Operation
variable {op : Operation}

theorem toList_text (op : Operation) :
    op.text.toList = op.directive.keyword.toList ++ ' ' :: op.argument.toList := by
  simp [text, String.toList_append]

namespace IsSayable

theorem getLast?_text (h : op.IsSayable) :
    op.text.toList.getLast? = op.argument.toList.getLast? := by
  have hne : op.argument.toList ≠ [] := fun e => h.ne_empty (String.toList_eq_nil_iff.mp e)
  rw [toList_text, List.getLast?_append_of_ne_nil _ (List.cons_ne_nil _ _),
    List.getLast?_cons_of_ne_nil hne]

theorem newline_not_mem_text (h : op.IsSayable) : '\n' ∉ op.text.toList := by
  rw [toList_text, List.mem_append, List.mem_cons]
  rintro (hm | hm | hm)
  · exact op.directive.newline_not_mem_keyword hm
  · exact absurd hm (by decide)
  · exact h.oneLine hm

theorem trims_text (h : op.IsSayable) : Trims op.text.toList op.text.toList := by
  refine ⟨⟨[], [], by simp, by simp⟩, fun c hc => ?_, fun c hc => ?_⟩
  · rw [toList_text, List.head?_append_of_ne_nil _ op.directive.keyword_plain.2.1] at hc
    have hhead := op.directive.head?_keyword
    rw [hc] at hhead
    simpa using hhead
  · rw [h.getLast?_text] at hc
    exact h.closed c hc

theorem dropReturn_text (h : op.IsSayable) : dropReturn op.text.toList = op.text.toList := by
  refine withoutFinal_of_ne fun hlast => ?_
  rw [h.getLast?_text] at hlast
  exact absurd (h.closed _ hlast) (by decide)

theorem meaning_text (h : op.IsSayable) (n : Nat) :
    (⟨n, op.text.toList⟩ : LogicalLine).meaning = .operation op := by
  have hread : LogicalLine.Says ⟨n, op.text.toList⟩
      (.operation (.of op.directive (String.ofList op.argument.toList))) :=
    .operation (op.toList_text ▸ h.trims_text)
  rw [String.ofList_toList, h.made] at hread
  exact (LogicalLine.says_iff.mp hread).symm

end IsSayable

end Operation

/-! ## the text of operations -/

theorem Text.joinWith_eq_intercalate (sep : Char) (ps : List (List Char)) :
    joinWith sep ps = [sep].intercalate ps := by
  induction ps with
  | nil => rfl
  | cons p ps ih =>
    cases ps with
    | nil => rw [joinWith_singleton, List.intercalate_singleton]
    | cons q ps =>
      rw [joinWith_cons_cons, List.intercalate_cons_cons, ih, List.append_assoc, List.singleton_append]

namespace Script
variable {ops : List Operation}

theorem toList_render (ops : List Operation) :
    (render ops).toList = joinWith '\n' (ops.map fun op => op.text.toList) := by
  rw [render, String.toList_intercalate, List.map_map, joinWith_eq_intercalate]
  rfl

theorem physicalLines_render (hne : ops ≠ []) (h : ∀ op ∈ ops, op.IsSayable) :
    physicalLines (render ops) = ops.map fun op => op.text.toList := by
  have hpieces : ∀ piece ∈ ops.map (fun op => op.text.toList), '\n' ∉ piece := by
    intro piece hp
    obtain ⟨op, hop, rfl⟩ := List.mem_map.mp hp
    exact (h op hop).newline_not_mem_text
  rw [physicalLines, toList_render, splitAll_joinWith (by simpa using hne) hpieces, List.map_map]
  exact List.map_congr_left fun op hop => (h op hop).dropReturn_text

theorem meanings_render (h : ∀ op ∈ ops, op.IsSayable)
    (hends : ∀ op ∈ ops, op.argument.toList.getLast? ≠ some '\\') (n : Nat) :
    (LogicalLine.join n (ops.map fun op => op.text.toList)).map LogicalLine.meaning =
      ops.map .operation := by
  induction ops generalizing n with
  | nil => rfl
  | cons op ops ih =>
    have hop := h op List.mem_cons_self
    have hnot : ¬ Continues op.text.toList := by
      rw [Continues, hop.getLast?_text]
      exact hends op List.mem_cons_self
    rw [List.map_cons, LogicalLine.join_of_not_continued n _ (LogicalLine.continued?_eq_none.mpr hnot),
      List.map_cons, List.map_cons, hop.meaning_text n,
      ih (fun o ho => h o (List.mem_cons_of_mem _ ho)) fun o ho => hends o (List.mem_cons_of_mem _ ho)]

theorem ofMeanings_operations (ops : List Operation) : ofMeanings (ops.map .operation) = ⟨ops, []⟩ := by
  induction ops with
  | nil => rfl
  | cons op ops ih =>
    have happ := ofMeanings_append [.operation op] (ops.map .operation)
    rw [ih] at happ
    exact happ

end Script

/-! ## what joining and reading cost -/

namespace LogicalLine

/-- Every line that goes on loses one character. -/
theorem length_join (n : Nat) (lines : List (List Char)) :
    ((join n lines).map fun l => l.text.length).sum +
      lines.countP (fun line => line.getLast? = some '\\') = (lines.map List.length).sum := by
  induction lines generalizing n with
  | nil => rfl
  | cons line lines ih =>
    have ih := ih (n + 1)
    rw [join]
    cases hc : continued? line with
    | none =>
      have hnot : line.getLast? ≠ some '\\' := continued?_eq_none.mp hc
      rw [List.countP_cons_of_neg (by simpa using hnot), List.map_cons, List.map_cons, List.sum_cons,
        List.sum_cons, ← ih, Nat.add_assoc]
    | some head =>
      have hline := continued?_eq_some.mp hc
      have hlast : line.getLast? = some '\\' := by rw [hline, List.getLast?_concat]
      have hlen : line.length = head.length + 1 := by rw [hline, List.length_append]; rfl
      rw [List.countP_cons_of_pos (by simpa using hlast), List.map_cons, List.sum_cons, ← ih, hlen]
      cases join (n + 1) lines with
      | nil => simp only [List.map_cons, List.map_nil, List.sum_cons, List.sum_nil]; omega
      | cons next rest => simp only [List.map_cons, List.sum_cons, List.length_append]; omega

theorem mem_of_mem_join {n : Nat} {lines : List (List Char)} {l : LogicalLine} {c : Char}
    (hl : l ∈ join n lines) (hc : c ∈ l.text) : ∃ line ∈ lines, c ∈ line := by
  induction lines generalizing n l with
  | nil => exact absurd hl List.not_mem_nil
  | cons line lines ih =>
    have further : ∀ l' ∈ join (n + 1) lines, c ∈ l'.text → ∃ line' ∈ line :: lines, c ∈ line' := by
      intro l' hl' hc'
      obtain ⟨line', hline', hmem⟩ := ih hl' hc'
      exact ⟨line', List.mem_cons_of_mem _ hline', hmem⟩
    rcases mem_join_cons hl with hl | ⟨-, htext⟩
    · exact further l hl hc
    rcases htext c hc with hc | ⟨next, hnext, hc⟩
    · exact ⟨line, List.mem_cons_self, hc⟩
    · exact further next hnext hc

namespace Says
variable {l : LogicalLine} {op : Operation}

theorem length_le (h : l.Says (.operation op)) : op.text.toList.length ≤ l.text.length := by
  cases h with
  | @operation d argument ht =>
    obtain ⟨front, back, htext, -⟩ := ht.around
    rw [Operation.toList_text, Operation.directive_of, Operation.argument_of, String.toList_ofList,
      htext]
    simp only [List.length_append]
    omega

theorem isSayable (h : l.Says (.operation op)) (hl : '\n' ∉ l.text) : op.IsSayable := by
  cases h with
  | @operation d argument ht =>
    obtain ⟨front, back, htext, -⟩ := ht.around
    have hsub : ∀ c ∈ argument, c ∈ l.text := by
      intro c hc
      rw [htext]
      simp [hc]
    have hne : argument ≠ [] := by
      -- else the keyword and a space are left, and the space is a blank at the end
      rintro rfl
      exact absurd (ht.last ' ' List.getLast?_concat) (by decide)
    have hargument : (Operation.of d (String.ofList argument)).argument.toList = argument := by
      rw [Operation.argument_of, String.toList_ofList]
    refine ⟨?_, ?_, ?_, ?_⟩
    · rw [Operation.directive_of, Operation.argument_of]
    · rw [Ne, ← String.toList_eq_nil_iff, hargument]
      exact hne
    · rw [hargument]
      exact fun hm => hl (hsub _ hm)
    · intro c hc
      rw [hargument] at hc
      refine ht.last c ?_
      rw [List.getLast?_append_of_ne_nil _ (List.cons_ne_nil _ _), List.getLast?_cons_of_ne_nil hne]
      exact hc

end Says

end LogicalLine

theorem LineMeaning.operation?_eq_some {m : LineMeaning} {op : Operation} :
    m.operation? = some op ↔ m = .operation op := by
  cases m <;> simp [operation?]

namespace Script

/-- every operation of a text is sayable -/
theorem isSayable_of_mem_parse {text : String} {op : Operation} (h : op ∈ (parse text).operations) :
    op.IsSayable := by
  obtain ⟨m, hm, hop⟩ := List.mem_filterMap.mp h
  obtain ⟨l, hl, rfl⟩ := List.mem_map.mp hm
  refine (LogicalLine.says_iff.mpr (LineMeaning.operation?_eq_some.mp hop).symm).isSayable fun hn => ?_
  obtain ⟨line, hline, hmem⟩ := LogicalLine.mem_of_mem_join hl hn
  exact not_mem_of_mem_physicalLines hline hmem

/-- the lines of the operations that are read are no longer than the lines they are read from -/
theorem length_operations_le (ls : List LogicalLine) :
    ((ofMeanings (ls.map LogicalLine.meaning)).operations.map fun op => op.text.toList.length).sum ≤
      (ls.map fun l => l.text.length).sum := by
  induction ls with
  | nil => exact Nat.le_refl 0
  | cons l ls ih =>
    have happ := ofMeanings_append [l.meaning] (ls.map LogicalLine.meaning)
    rw [List.singleton_append, ← List.map_cons] at happ
    rw [happ, List.map_append, List.sum_append, List.map_cons, List.sum_cons]
    refine Nat.add_le_add ?_ ih
    cases hm : l.meaning with
    | nothing => exact Nat.zero_le _
    | dropped w => exact Nat.zero_le _
    | operation op =>
      have hle := (LogicalLine.says_iff.mpr hm.symm).length_le
      simpa [ofMeanings, LineMeaning.operation?] using hle

/-- Operations are read back from their text if each can be said on a line that does not go on, and
only then: a line that goes on would lose its backslash. -/
theorem parse_render_iff {ops : List Operation} : parse (render ops) = ⟨ops, []⟩ ↔
    ∀ op ∈ ops, op.IsSayable ∧ op.argument.toList.getLast? ≠ some '\\' := by
  by_cases hne : ops = []
  · subst hne
    exact iff_of_true rfl fun op hop => absurd hop List.not_mem_nil
  constructor
  · intro h
    have hsay : ∀ op ∈ ops, op.IsSayable := fun op hop =>
      @isSayable_of_mem_parse (render ops) op (by rw [h]; exact hop)
    have hjoin := LogicalLine.length_join 1 (physicalLines (render ops))
    have hread := length_operations_le (logicalLines (render ops))
    change ((parse (render ops)).operations.map _).sum ≤ _ at hread
    rw [physicalLines_render hne hsay, List.map_map] at hjoin
    rw [h, logicalLines, physicalLines_render hne hsay] at hread
    have hnone : (ops.map fun op => op.text.toList).countP
        (fun line => line.getLast? = some '\\') = 0 := by
      change _ + _ = (ops.map fun op => op.text.toList.length).sum at hjoin
      dsimp only at hread
      omega
    refine fun op hop => ⟨hsay op hop, fun hlast => ?_⟩
    have hno := List.countP_eq_zero.mp hnone op.text.toList (List.mem_map_of_mem hop)
    rw [(hsay op hop).getLast?_text] at hno
    exact hno (decide_eq_true hlast)
  · intro h
    have hmeanings := meanings_render (fun op hop => (h op hop).1) (fun op hop => (h op hop).2) 1
    rw [parse, logicalLines, physicalLines_render hne fun op hop => (h op hop).1, hmeanings,
      ofMeanings_operations]

end Script

/-- Written out and read again, in either mode: operations come back, without a warning, exactly if
each is the one that its directive and its argument make and the argument is not empty, has no line
feed in it and ends neither in a blank nor in a backslash.  The operations of a text are such operations
but for the backslash; so they come back unless one of them ends in it. -/
theorem rendered_reads_back :
    (∀ (ops : List Operation) (strict : Bool),
      Script.parseWith strict (Script.render ops) = .ok ⟨ops, []⟩ ↔
        ∀ op ∈ ops, op.IsSayable ∧ op.argument.toList.getLast? ≠ some '\\') ∧
    ∀ text, (∀ op ∈ (Script.parse text).operations, op.IsSayable) ∧
      (Script.parse (Script.render (Script.parse text).operations) =
          ⟨(Script.parse text).operations, []⟩ ↔
        ∀ op ∈ (Script.parse text).operations, op.argument.toList.getLast? ≠ some '\\') := by
  refine ⟨fun ops strict => ?_, fun text => ⟨fun op hop => Script.isSayable_of_mem_parse hop, ?_⟩⟩
  · rw [Script.parseWith_eq_ok, Script.parse_render_iff]
  · rw [Script.parse_render_iff]
    exact forall₂_congr fun op hop => and_iff_right (Script.isSayable_of_mem_parse hop)

/-- An argument may begin with a blank and have a carriage return, a comment sign, a backslash or a
keyword in it.  A backslash at its end, here with a blank behind it, is read and swallows a line. -/
theorem rendered_reads_back_unless_swallowed :
    let ops : List Operation := [.base " d", .mutate "#\r\\ MUTATE", .metadata .label "x"]
    let text := "BASE d\\ \nMUTATE a"
    ((∀ op ∈ ops, op.IsSayable ∧ op.argument.toList.getLast? ≠ some '\\') ∧
      Script.parseWith true (Script.render ops) = .ok ⟨ops, []⟩) ∧
    Operation.base "d\\" ∈ (Script.parse text).operations ∧ (Operation.base "d\\").IsSayable ∧
      Script.parse (Script.render (Script.parse text).operations) ≠
        ⟨(Script.parse text).operations, []⟩ := by
  intro ops text
  have hops : ∀ op ∈ ops, op.IsSayable ∧ op.argument.toList.getLast? ≠ some '\\' := by decide +kernel
  have hmem : Operation.base "d\\" ∈ (Script.parse text).operations := by decide +kernel
  refine ⟨⟨hops, (rendered_reads_back.1 ops true).mpr hops⟩, hmem,
    (rendered_reads_back.2 text).1 _ hmem, fun hback => ?_⟩
  exact absurd rfl ((rendered_reads_back.2 text).2.mp hback _ hmem)

end DiskLayers
