import DiskLayers.Build.Plan
import DiskLayers.Build.Run
import DiskLayers.Proofs.Reading

/-!
# Texts without the lines that are warned of

* `Text.pruned`           pieces without those that numbers point at, and without what these go on in
* `Script.withoutWarned`  a text without the logical lines that it is warned of
* `group_induction`       induction on the pieces of a text, one logical line at a time

A logical line is deleted with all its physical lines or not at all, so that its neighbours are neither
joined nor split: what is left says what it said before (`meanings_pruned`).
-/

namespace DiskLayers
open DiskLayers.Text

/-- Pieces, the first of which has the number `n`, without those that have one of the numbers, and
without those behind a deleted one that goes on; `inside` says that the one before the first is deleted
and goes on. -/
def Text.pruned (numbers : List Nat) (n : Nat) (inside : Bool) : List (List Char) → List (List Char)
  | [] => []
  | piece :: pieces =>
    if inside || numbers.contains n then
      pruned numbers (n + 1) (continued? (dropReturn piece)).isSome pieces
    else piece :: pruned numbers (n + 1) false pieces

/-- The text without the physical lines of all logical lines that it is warned of: from the line that a
warning names to the end of what it goes on in. -/
def Script.withoutWarned (text : String) : String :=
  String.ofList (joinWith '\n'
    (pruned ((parse text).warnings.map Warning.line) 1 false (splitAll '\n' text.toList)))

/-! ## one logical line at a time -/

/-- a piece whose line goes on in the next one -/
def Carries (piece : List Char) : Prop := Continues (dropReturn piece)

/-- Pieces stand in groups: some go on, and then one does not or is the last of all. -/
theorem group_induction {P : List (List Char) → Prop} (nil : P [])
    (group : ∀ inner last rest, (∀ piece ∈ inner, Carries piece) → ¬ Carries last ∨ rest = [] →
      P rest → P (inner ++ last :: rest)) (pieces : List (List Char)) : P pieces := by
  -- the pieces of the first group that were met so far are carried along
  suffices h : ∀ pieces inner, (∀ piece ∈ inner, Carries piece) → inner ++ pieces ≠ [] →
      P (inner ++ pieces) by
    by_cases hne : pieces = []
    · rw [hne]
      exact nil
    · exact h pieces [] (fun _ hm => absurd hm List.not_mem_nil) hne
  intro pieces
  induction pieces with
  | nil =>
    intro inner hinner hne
    rw [List.append_nil] at hne ⊢
    obtain ⟨init, last, rfl⟩ := List.eq_nil_or_concat inner |>.resolve_left hne
    rw [List.concat_eq_append] at hinner ⊢
    exact group init last [] (fun piece hp => hinner piece (List.mem_append_left _ hp)) (Or.inr rfl) nil
  | cons piece pieces ih =>
    intro inner hinner _
    by_cases hc : Carries piece
    · rw [← List.singleton_append, ← List.append_assoc]
      refine ih (inner ++ [piece]) (fun p hp => ?_) (by simp)
      rcases List.mem_append.mp hp with hp | hp
      · exact hinner p hp
      · exact List.mem_singleton.mp hp ▸ hc
    · refine group inner piece pieces hinner (Or.inl hc) ?_
      by_cases hne : pieces = []
      · rw [hne]
        exact nil
      · exact ih [] (fun _ hm => absurd hm List.not_mem_nil) hne

namespace LogicalLine

theorem le_start_of_mem_join {n : Nat} {lines : List (List Char)} {l : LogicalLine}
    (h : l ∈ join n lines) : n ≤ l.start := by
  induction lines generalizing n l with
  | nil => exact absurd h List.not_mem_nil
  | cons line lines ih =>
    rcases mem_join_cons h with h | ⟨hstart, -⟩
    · exact Nat.le_of_succ_le (ih h)
    · exact hstart.ge

namespace Says
variable {l : LogicalLine} {m : LineMeaning}

/-- what is no warning does not depend on the number of the line -/
theorem renumbered (h : l.Says m) (hm : m.warning? = none) (n : Nat) :
    (⟨n, l.text⟩ : LogicalLine).Says m := by
  cases h with
  | blank ht => exact .blank ht
  | comment ht => exact .comment ht
  | bare => cases hm
  | unknown => cases hm
  | operation ht => exact .operation ht

theorem line_eq {w : Warning} (h : l.Says (.dropped w)) : w.line = l.start := by
  cases h <;> rfl

end Says

end LogicalLine

/-! ## what is left of a group -/

namespace Text
variable {numbers : List Nat} {inner : List (List Char)}

/-- a group that no number points into stays -/
theorem pruned_kept (n : Nat) (inner : List (List Char)) (last : List Char) (rest : List (List Char))
    (h : ∀ k, n ≤ k → k ≤ n + inner.length → k ∉ numbers) :
    pruned numbers n false (inner ++ last :: rest) =
      inner ++ last :: pruned numbers (n + inner.length + 1) false rest := by
  have hn : (false || numbers.contains n) = false := by
    rw [Bool.false_or, List.contains_eq_mem]
    exact decide_eq_false (h n (Nat.le_refl n) (Nat.le_add_right _ _))
  induction inner generalizing n with
  | nil => rw [List.nil_append, pruned, if_neg (by rw [hn]; simp)]; rfl
  | cons piece inner ih =>
    have htail := ih (n + 1) (fun k hk hk' => h k (by omega) (by rw [List.length_cons]; omega)) ?_
    · rw [List.cons_append, pruned, if_neg (by rw [hn]; simp), htail, List.length_cons]
      have : n + 1 + inner.length + 1 = n + (inner.length + 1) + 1 := by omega
      rw [this]
      rfl
    · rw [Bool.false_or, List.contains_eq_mem]
      exact decide_eq_false (h (n + 1) (by omega) (by rw [List.length_cons]; omega))

/-- a group whose first number is one of them goes with all that it goes on in -/
theorem pruned_deleted (n : Nat) (inside : Bool) {inner : List (List Char)} {last : List Char}
    {rest : List (List Char)} (hinner : ∀ piece ∈ inner, Carries piece)
    (hlast : ¬ Carries last ∨ rest = []) (h : (inside || numbers.contains n) = true) :
    pruned numbers n inside (inner ++ last :: rest) =
      pruned numbers (n + inner.length + 1) false rest := by
  induction inner generalizing n inside with
  | nil =>
    rw [List.nil_append, pruned, if_pos h]
    rcases hlast with hlast | rfl
    · have hnone : continued? (dropReturn last) = none := LogicalLine.continued?_eq_none.mpr hlast
      rw [hnone]
      rfl
    · rfl
  | cons piece inner ih =>
    obtain ⟨head, hhead⟩ := List.getLast?_eq_some_iff.mp (hinner piece List.mem_cons_self)
    have hsome : continued? (dropReturn piece) = some head := LogicalLine.continued?_eq_some.mpr hhead
    rw [List.cons_append, pruned, if_pos h, hsome,
      ih (n + 1) _ (fun p hp => hinner p (List.mem_cons_of_mem _ hp)) rfl, List.length_cons]
    congr 1
    omega

theorem pruned_subset (numbers : List Nat) (n : Nat) (inside : Bool) (pieces : List (List Char)) :
    pruned numbers n inside pieces ⊆ pieces := by
  induction pieces generalizing n inside with
  | nil => exact List.nil_subset _
  | cons piece pieces ih =>
    rw [pruned]
    split
    · exact List.subset_cons_of_subset _ (ih _ _)
    · exact List.cons_subset_cons _ (ih _ _)

end Text

/-- Where the numbers are those of the logical lines that are warned of, the lines that are left say
what they said, and nothing else is said.  By induction on the logical lines. -/
theorem meanings_pruned {numbers : List Nat} {n : Nat} {pieces : List (List Char)}
    (h : ∀ k, n ≤ k → (k ∈ numbers ↔
      ∃ l ∈ LogicalLine.join n (pieces.map dropReturn), l.start = k ∧ l.meaning.warning? ≠ none))
    (m : Nat) :
    (LogicalLine.join m ((pruned numbers n false pieces).map dropReturn)).map LogicalLine.meaning =
      ((LogicalLine.join n (pieces.map dropReturn)).map LogicalLine.meaning).filter
        (·.warning?.isNone) := by
  induction pieces using group_induction generalizing n m with
  | nil => rfl
  | group inner last rest hinner hlast ih =>
    have hinner' : ∀ line ∈ inner.map dropReturn, Continues line := by
      intro line hl
      obtain ⟨piece, hp, rfl⟩ := List.mem_map.mp hl
      exact hinner piece hp
    have hgroup : ∀ (k : Nat) (rest' : List (List Char)), ¬ Carries last ∨ rest' = [] →
        LogicalLine.join k ((inner ++ last :: rest').map dropReturn) =
          ⟨k, LogicalLine.textOf ((inner.map dropReturn) ++ [dropReturn last])⟩ ::
            LogicalLine.join (k + inner.length + 1) (rest'.map dropReturn) := by
      intro k rest' hl
      have hl' : ¬ Continues (dropReturn last) ∨ rest'.map dropReturn = [] :=
        hl.imp_right fun e => by rw [e]; rfl
      rw [List.map_append, List.map_cons, LogicalLine.join_group k _ _ _ hinner' hl', List.length_map]
    generalize LogicalLine.textOf ((inner.map dropReturn) ++ [dropReturn last]) = text at hgroup
    rw [hgroup n rest hlast] at h ⊢
    have hbehind : ∀ l ∈ LogicalLine.join (n + inner.length + 1) (rest.map dropReturn),
        n + inner.length + 1 ≤ l.start := fun l hl => LogicalLine.le_start_of_mem_join hl
    -- the numbers among those of the group, and the numbers behind it
    have hnumber : ∀ k, n ≤ k → (k ∈ numbers ↔
        (n = k ∧ (⟨n, text⟩ : LogicalLine).meaning.warning? ≠ none) ∨
          ∃ l ∈ LogicalLine.join (n + inner.length + 1) (rest.map dropReturn),
            l.start = k ∧ l.meaning.warning? ≠ none) := fun k hk => by
      rw [h k hk, List.exists_mem_cons_iff]
    have hrest : ∀ k, n + inner.length + 1 ≤ k → (k ∈ numbers ↔
        ∃ l ∈ LogicalLine.join (n + inner.length + 1) (rest.map dropReturn),
          l.start = k ∧ l.meaning.warning? ≠ none) := fun k hk => by
      rw [hnumber k (by omega), or_iff_right]
      rintro ⟨rfl, -⟩
      omega
    have hread : (⟨n, text⟩ : LogicalLine).Says (⟨n, text⟩ : LogicalLine).meaning :=
      LogicalLine.says_iff.mpr rfl
    cases hw : (⟨n, text⟩ : LogicalLine).meaning.warning? with
    | none =>
      have hnot : ∀ k, n ≤ k → k ≤ n + inner.length → k ∉ numbers := by
        intro k hk hk' hmem
        rcases (hnumber k hk).mp hmem with ⟨-, hne⟩ | ⟨l, hl, hstart, -⟩
        · exact hne hw
        · have := hbehind l hl
          omega
      have hleft : ¬ Carries last ∨ pruned numbers (n + inner.length + 1) false rest = [] :=
        hlast.imp_right fun e => by rw [e]; rfl
      rw [pruned_kept n inner last rest hnot, hgroup m _ hleft, List.map_cons, List.map_cons, ih hrest,
        List.filter_cons_of_pos (by rw [hw]; rfl),
        ← LogicalLine.says_iff.mp (hread.renumbered hw m)]
    | some w =>
      have hmem : n ∈ numbers := (hnumber n (Nat.le_refl n)).mpr (Or.inl ⟨rfl, by rw [hw]; simp⟩)
      rw [pruned_deleted n false hinner hlast (by simpa using hmem), List.map_cons,
        List.filter_cons_of_neg (by rw [hw]; simp), ih hrest]

/-! ## the text that is left -/

namespace Script

theorem ofMeanings_filter (ms : List LineMeaning) :
    ofMeanings (ms.filter (·.warning?.isNone)) = ⟨(ofMeanings ms).operations, []⟩ := by
  induction ms with
  | nil => rfl
  | cons m ms ih =>
    have happ := ofMeanings_append [m] ms
    rw [List.singleton_append] at happ
    rw [happ]
    cases m with
    | dropped w => exact ih
    | nothing =>
      rw [List.filter_cons_of_pos rfl]
      exact ih
    | operation op =>
      have hcons := ofMeanings_append [.operation op] (ms.filter (·.warning?.isNone))
      rw [ih] at hcons
      rw [List.filter_cons_of_pos rfl]
      exact hcons

/-- a warning names the first of the lines that it is about -/
theorem mem_lines_of_warnings {text : String} {k : Nat} :
    k ∈ (parse text).warnings.map Warning.line ↔
      ∃ l ∈ logicalLines text, l.start = k ∧ l.meaning.warning? ≠ none := by
  have hline : ∀ (l : LogicalLine) (w : Warning), l.meaning.warning? = some w → w.line = l.start := by
    intro l w hw
    cases hm : l.meaning with
    | dropped w' =>
      rw [hm] at hw
      cases hw
      exact (LogicalLine.says_iff.mpr hm.symm).line_eq
    | nothing => rw [hm] at hw; cases hw
    | operation op => rw [hm] at hw; cases hw
  constructor
  · intro hk
    obtain ⟨w, hw, rfl⟩ := List.mem_map.mp hk
    obtain ⟨m, hm, hmw⟩ := List.mem_filterMap.mp hw
    obtain ⟨l, hl, rfl⟩ := List.mem_map.mp hm
    exact ⟨l, hl, (hline l w hmw).symm, by rw [hmw]; simp⟩
  · rintro ⟨l, hl, rfl, hne⟩
    obtain ⟨w, hw⟩ := Option.ne_none_iff_exists'.mp hne
    exact List.mem_map.mpr ⟨w, List.mem_filterMap.mpr ⟨_, List.mem_map_of_mem hl, hw⟩, hline l w hw⟩

theorem parse_withoutWarned (text : String) :
    parse (withoutWarned text) = ⟨(parse text).operations, []⟩ := by
  obtain ⟨left, hleft⟩ : ∃ left, left =
      pruned ((parse text).warnings.map Warning.line) 1 false (splitAll '\n' text.toList) := ⟨_, rfl⟩
  have hmeanings : ofMeanings ((LogicalLine.join 1 (left.map dropReturn)).map LogicalLine.meaning) =
      ⟨(parse text).operations, []⟩ := by
    rw [hleft, meanings_pruned fun k _ => mem_lines_of_warnings, ofMeanings_filter]
    rfl
  rw [withoutWarned, ← hleft, ← hmeanings, parse, logicalLines, physicalLines, String.toList_ofList]
  by_cases hne : left = []
  · rw [hne]
    rfl
  · rw [splitAll_joinWith hne fun piece hp =>
      not_mem_of_mem_splitAll (pruned_subset _ _ _ _ (hleft ▸ hp))]

end Script

/-! ## building what is left -/

section
variable {σ : Type} (backend : Backend σ) (config : BuildConfig)

theorem applyAll_mode (s : Store) (ops : List Operation) (strict : Bool) :
    applyAll backend s { config with strict := strict } ops = applyAll backend s config ops := by
  induction ops with
  | nil => rfl
  | cons op ops ih =>
    rw [applyAll, applyAll, ih]
    rfl

theorem build_mode (ops : List Operation) (tag : Option String) (strict : Bool) :
    build backend { config with strict := strict } ops tag = build backend config ops tag := by
  have hbuild : ∀ s, buildIn backend s { config with strict := strict } ops tag =
      buildIn backend s config ops tag := fun s => by
    simp only [buildIn, applyAll_mode]
    cases tag <;> rfl
  simp only [build, hbuild]

/-- a text that is read is built from its operations; the outcome has its warnings -/
theorem buildScript_runIn {text : String} {script : Script}
    (h : Script.parseWith config.strict text = .ok script) (tag : Option String) (w : World σ) :
    (buildScript backend config text tag).runIn w =
      let r := (build backend config script.operations tag).runIn w
      (r.1.map fun outcome => { outcome with warnings := script.warnings }, r.2) := by
  rw [buildScript, h, Act.runIn_bind]
  change ((build backend config script.operations tag >>= _).runIn w) = _
  rw [Act.runIn_bind]
  rcases (build backend config script.operations tag).runIn w with ⟨r, w'⟩
  cases r <;> rfl

end

/-- Lines that are warned of do nothing.  The text without all their physical lines has the same
operations and no warning, so that it is accepted in strict mode too.  Its plan is the same in every
store; building it, in either mode, leaves the same world and has the same outcome but for the
warnings. -/
theorem warned_lines_inert (text : String) :
    let left := Script.withoutWarned text
    Script.parse left = ⟨(Script.parse text).operations, []⟩ ∧
      (∀ strict, Script.parseWith strict left = .ok ⟨(Script.parse text).operations, []⟩) ∧
      (∀ (s : Store) (fs : FileSystem),
        plan s fs (Script.parse left).operations = plan s fs (Script.parse text).operations) ∧
      ∀ (σ : Type) (backend : Backend σ) (config : BuildConfig) (tag : Option String) (w : World σ),
        (buildScript backend config left tag).runIn w =
          let r := (buildScript backend { config with strict := false } text tag).runIn w
          (r.1.map fun outcome => { outcome with warnings := [] }, r.2) := by
  intro left
  have hparse : Script.parse left = ⟨(Script.parse text).operations, []⟩ :=
    Script.parse_withoutWarned text
  refine ⟨hparse, fun strict => Script.parseWith_eq_ok.mpr hparse, fun s fs => by rw [hparse], ?_⟩
  intro σ backend config tag w
  rw [buildScript_runIn backend config (Script.parseWith_eq_ok.mpr hparse),
    buildScript_runIn backend { config with strict := false } rfl]
  dsimp only
  rw [build_mode backend config _ tag false]
  rcases (build backend config (Script.parse text).operations tag).runIn w with ⟨r, w'⟩
  cases r <;> rfl

example : Script.withoutWarned "BASE d\nRUN a \\\r\nb\\\n\nMUTATE \\\nx\\\\" =
    "BASE d\nMUTATE \\\nx\\\\" := by
  decide +kernel

end DiskLayers
