import DiskLayers.Proofs.Cache
import DiskLayers.Proofs.Reading
import DiskLayers.Script.OperationJson

/-!
# Operations of one descriptor

A key depends on the descriptor of an operation and on nothing else of it, so that a disk one operation
has made is reused for every other one of the same descriptor.

* `Operation.isGenuine`   an operation does what its directive says
* `Operation.Obtained`    an operation of a script, of a directive, or of a JSON text that names its own kind
* `Operation.ActAlike`    two operations do the same to every disk

A descriptor tells directive and argument, and these two tell a genuine operation (`eq_of_isGenuine`).  A
metadata record that bears another directive has the descriptor of an operation that works on the disk and
does nothing itself (`metadata_passes_for_mutate`).
-/

namespace DiskLayers

namespace Operation

/-- An operation does what its directive says: no metadata bears the directive of another kind. -/
def isGenuine : Operation → Bool
  | .metadata d _ => d.isMetadata
  | .base _ | .mutate _ | .finalize _ => true

/-- An operation as there are ways to come by one: made of a directive and an argument, in a script that is
read leniently or strictly, or in a JSON text, where metadata bears a directive of its kind. -/
inductive Obtained : Operation → Prop
  | made (d : Directive) (argument : String) : Obtained (of d argument)
  | parsed {strict : Bool} {text : String} {script : Script} {op : Operation} :
    Script.parseWith strict text = .ok script → op ∈ script.operations → Obtained op
  | decoded {text : String} {op : Operation} : read? text = some op →
    (∀ d words, op = .metadata d words → d.isMetadata = true) → Obtained op

/-- Two operations do the same to every disk: they make the same calls, get the same results and leave the
same files. -/
def ActAlike (a b : Operation) : Prop :=
  ∀ (σ : Type) (backend : Backend σ) (l : Layer) (w : World σ),
    (l.apply backend a).runIn w = (l.apply backend b).runIn w

section
variable {a b op : Operation}

/-! ## what a descriptor tells -/

theorem isGenuine_of (d : Directive) (argument : String) : (of d argument).isGenuine = true := by
  cases d <;> rfl

theorem of_eq_self (h : op.isGenuine = true) : of op.directive op.argument = op := by
  cases op with
  | metadata d words =>
    cases d with
    | base | mutate | finalize => cases h
    | maintainer | label | description => rfl
  | base _ | mutate _ | finalize _ => rfl

theorem isGenuine_eq_false (h : op.isGenuine = false) :
    op = .metadata op.directive op.argument ∧ op.directive.isMetadata = false := by
  cases op with
  | metadata d words => exact ⟨rfl, h⟩
  | base _ | mutate _ | finalize _ => cases h

/-- Directive and argument tell an operation if it is known whether it is genuine. -/
theorem eq_of_isGenuine (hd : a.directive = b.directive) (ha : a.argument = b.argument)
    (hg : a.isGenuine = b.isGenuine) : a = b := by
  cases hb : b.isGenuine with
  | true => rw [← of_eq_self (hg.trans hb), ← of_eq_self hb, hd, ha]
  | false => rw [(isGenuine_eq_false (hg.trans hb)).1, (isGenuine_eq_false hb).1, hd, ha]

theorem isGenuine_of_says {l : LogicalLine} {m : LineMeaning} (h : l.Says m)
    (hop : m.operation? = some op) : op.isGenuine = true := by
  cases h with
  | blank | comment | bare | unknown => cases hop
  | @operation d argument _ =>
    cases hop
    exact isGenuine_of d _

theorem Obtained.isGenuine (h : op.Obtained) : op.isGenuine = true := by
  cases h with
  | made d argument => exact isGenuine_of d argument
  | decoded _ hown =>
    cases op with
    | metadata d words => exact hown d words rfl
    | base _ | mutate _ | finalize _ => rfl
  | @parsed strict text script _ hscript hop =>
    -- lenient or strict, the operations are what the lines say
    have hparse : script = Script.parse text := by
      rw [Script.parseWith] at hscript
      split at hscript
      · rw [Script.parseStrict] at hscript
        split at hscript
        · exact (Except.ok.inj hscript).symm
        · cases hscript
      · exact (Except.ok.inj hscript).symm
    rw [hparse] at hop
    obtain ⟨meaning, hmeaning, hop⟩ := List.mem_filterMap.mp hop
    obtain ⟨line, -, rfl⟩ := List.mem_map.mp hmeaning
    exact isGenuine_of_says (LogicalLine.says_iff.mpr rfl) hop

/-! ## what an operation does -/

theorem ActAlike.symm (h : a.ActAlike b) : b.ActAlike a := fun σ backend l w => (h σ backend l w).symm

theorem apply_metadata {σ : Type} (backend : Backend σ) (l : Layer) (d : Directive) (words : String)
    (w : World σ) : (l.apply backend (.metadata d words)).runIn w = (.ok (), w) := rfl

theorem apply_refused (l : Layer) (hg : op.isGenuine = true) (hd : op.directive.isMetadata = false)
    (w : World Unit) : ∃ e, ((l.apply (.touching fun _ => true) op).runIn w).1 = .error e := by
  cases op with
  | metadata d words => exact absurd (hd.symm.trans hg) (by simp)
  | base _ | mutate _ | finalize _ => exact ⟨_, rfl⟩

/-- An operation that is genuine does not act like one of its descriptor that is not. -/
theorem not_actAlike (hd : a.directive = b.directive) (ha : a.isGenuine = true)
    (hb : b.isGenuine = false) : ¬ a.ActAlike b := by
  intro hact
  obtain ⟨hmeta, hnot⟩ := isGenuine_eq_false hb
  obtain ⟨e, he⟩ := apply_refused default ha (hd ▸ hnot) (.on .cleared)
  rw [hact Unit (.touching fun _ => true) default (.on .cleared), hmeta, apply_metadata] at he
  cases he

end

end Operation

/-- Operations of one descriptor act alike, however they were obtained; and of all operations there are
those of one descriptor do if and only if both do what their directive says or neither does. -/
theorem effects_follow_descriptors (a b : Operation) (h : a.descriptor = b.descriptor) :
    (a.Obtained → b.Obtained → a.ActAlike b) ∧ (a.ActAlike b ↔ a.isGenuine = b.isGenuine) := by
  obtain ⟨hd, harg⟩ := Operation.descriptor_inj h
  have halike : a.isGenuine = b.isGenuine → a.ActAlike b := by
    intro hg
    obtain rfl := Operation.eq_of_isGenuine hd harg hg
    exact fun σ backend l w => rfl
  refine ⟨fun ha hb => halike (ha.isGenuine.trans hb.isGenuine.symm), fun hact => ?_, halike⟩
  cases ha : a.isGenuine with
  | true =>
    cases hb : b.isGenuine with
    | true => rfl
    | false => exact absurd hact (Operation.not_actAlike hd ha hb)
  | false =>
    cases hb : b.isGenuine with
    | true => exact absurd hact.symm (Operation.not_actAlike hd.symm hb ha)
    | false => rfl

/-- A startup command that was read from JSON acts like the one of a script. -/
theorem effects_follow_descriptors_finalize :
    ∃ a b : Operation, Operation.read? "[ \"finalize\", \"serve:\\u0020all\" ]" = some a ∧
      (Script.parse "BASE d\nFINALIZE serve: \\\nall").operations[1]? = some b ∧ a.ActAlike b := by
  have hread : Operation.read? "[ \"finalize\", \"serve:\\u0020all\" ]" =
      some (.finalize "serve: all") := by decide +kernel
  have hparse : Script.parseWith false "BASE d\nFINALIZE serve: \\\nall" =
      .ok ⟨[.base "d", .finalize "serve: all"], []⟩ := by decide +kernel
  have hmem : Operation.finalize "serve: all" ∈ [.base "d", .finalize "serve: all"] := by simp
  refine ⟨_, _, hread, congrArg (·.operations[1]?) (Except.ok.inj hparse), ?_⟩
  exact (effects_follow_descriptors _ _ rfl).1 (.decoded hread fun d words h => by cases h)
    (.parsed hparse hmem)

/-- A metadata record that bears the directive of a command has the command's descriptor and does not run it:
a disk that it left as it was is reused for the command, which is never run. -/
theorem metadata_passes_for_mutate :
    let a := Operation.metadata .mutate "x"
    let b := Operation.of .mutate "x"
    let config : BuildConfig := { storeRoot := ⟨"/"⟩ }
    let v := runBuilds (.touching fun _ => false) [⟨config, [.base "d", a], none⟩] (.on .cleared)
    let out := (build (.touching fun _ => false) config [.base "d", b] none).runIn v
    Operation.read? "\x7b\"kind\":\"metadata\",\"directive\":\"MUTATE\",\"text\":\"x\"\x7d" = some a ∧
      a.descriptor = b.descriptor ∧
      ¬ a.ActAlike b ∧
      out.1.toOption.map (fun o => o.steps.map StepReport.status) = some [.cached, .cached] ∧
      (callsOf out.2.journal).filter Call.isExecute = [] := by
  have hnot : ¬ (Operation.of .mutate "x").ActAlike (.metadata .mutate "x") :=
    Operation.not_actAlike rfl rfl rfl
  exact ⟨by decide +kernel, rfl, fun hact => hnot hact.symm, by decide +kernel⟩

end DiskLayers
