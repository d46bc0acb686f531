import DiskLayers.Proofs.Values
import DiskLayers.Layer.Identity
import DiskLayers.Script.OperationJson
import Mathlib

/-!
# Operations as JSON texts

* `Directive.NamedBy`    the values that name a directive
* `Operation.fields`     the fields of an operation, its kind first
* `Operation.Told`       the values that tell an operation: its fields in any order among others, or
                         their values in a list

A value is read as an operation if and only if it tells it (`Operation.ofJson?_eq_some_iff`).  Since
what is written tells the operation it was written for, reading undoes writing.
-/

namespace DiskLayers

/-! ## directives -/

inductive Directive.NamedBy (d : Directive) : Json → Prop where
  | word : NamedBy d (.ofString d.keyword)
  | null : NamedBy d (.record [(some d.keyword, .null)])
  | empty : NamedBy d (.record [(some d.keyword, .record [])])

namespace Operation

theorem directiveOfJson?_eq_some_iff {v : Json} {d : Directive} :
    directiveOfJson? v = some d ↔ d.NamedBy v := by
  constructor
  · intro h
    unfold directiveOfJson? at h
    split at h
    · rw [← Directive.keyword_of_ofKeyword? h]
      exact .word
    · rw [← Directive.keyword_of_ofKeyword? h]
      exact .null
    · rw [← Directive.keyword_of_ofKeyword? h]
      exact .empty
    · cases h
  · intro h
    cases h with
    | word => exact Directive.ofKeyword?_keyword d
    | null => exact Directive.ofKeyword?_keyword d
    | empty => exact Directive.ofKeyword?_keyword d

/-! ## what tells an operation -/

/-- the word for the kind of an operation -/
def kindWord : Operation → String
  | .base _ => "base"
  | .mutate _ => "mutate"
  | .finalize _ => "finalize"
  | .metadata _ _ => "metadata"

/-- the fields besides the kind, `d` for the directive if it is told -/
def values (d : Json) : Operation → List (String × Json)
  | .base reference => [("reference", .ofString reference)]
  | .mutate command => [("command", .ofString command)]
  | .finalize command => [("command", .ofString command)]
  | .metadata _ text => [("directive", d), ("text", .ofString text)]

def fields (d : Json) (op : Operation) : List (String × Json) :=
  ("kind", .ofString op.kindWord) :: op.values d

inductive Told (op : Operation) : Json → Prop where
  /-- its fields once each, in any order, among fields of other names -/
  | record {d : Json} {fields extra : List (Option String × Json)} (hd : op.directive.NamedBy d)
      (hperm : fields.Perm ((op.fields d).map (fun f => (some f.1, f.2)) ++ extra))
      (hextra : ∀ e ∈ extra, ∀ f ∈ op.fields d, e.1 ≠ some f.1) : Told op (.record fields)
  /-- the values of its fields, in order -/
  | list {d : Json} (hd : op.directive.NamedBy d) : Told op (.list ((op.fields d).map Prod.snd))

theorem toJson_eq (op : Operation) : op.toJson = .ofFields (op.fields (.ofString op.directive.keyword)) := by
  cases op <;> rfl

theorem nodup_fields (d : Json) (op : Operation) : ((op.fields d).map Prod.fst).Nodup := by
  cases op <;> simp [fields, values]

/-- the values of the fields are found in their places -/
def Finds (field : Nat → String → Option Json) (fs : List (String × Json)) : Prop :=
  ∀ (i : Nat) (f : String × Json), fs[i]? = some f → field i f.1 = some f.2

theorem finds_nil (field : Nat → String → Option Json) : Finds field [] := by
  intro i f hf
  simp at hf

theorem finds_cons {field : Nat → String → Option Json} {f : String × Json}
    {fs : List (String × Json)} : Finds field (f :: fs) ↔ field 0 f.1 = some f.2 ∧ Finds (fun i => field (i + 1)) fs := by
  constructor
  · intro h
    exact ⟨h 0 f rfl, fun i g hg => h (i + 1) g hg⟩
  · rintro ⟨hzero, hsucc⟩ i g hg
    cases i with
    | zero =>
      cases hg
      exact hzero
    | succ i => exact hsucc i g hg

/-- the operation of a kind, by what stands in the place of each field -/
theorem ofKind?_eq_some_iff {name : String} {field : Nat → String → Option Json} {op : Operation} :
    ofKind? name field = some op ↔ name = op.kindWord ∧ ∃ d, op.directive.NamedBy d ∧
      Finds field (op.values d) := by
  constructor
  · intro h
    simp only [ofKind?, Option.bind_eq_bind] at h
    split at h
    case h_4 =>
      simp only [Option.bind_eq_some_iff] at h
      obtain ⟨d, hd, v, hv, e, he, s, hs, h⟩ := h
      cases h
      rw [Json.toString?_eq_some_iff.mp hs] at hv
      exact ⟨rfl, d, directiveOfJson?_eq_some_iff.mp he,
        finds_cons.mpr ⟨hd, finds_cons.mpr ⟨hv, finds_nil _⟩⟩⟩
    case h_5 => cases h
    -- the others have one text and nothing else
    all_goals
      simp only [Option.bind_eq_some_iff] at h
      obtain ⟨v, hv, s, hs, h⟩ := h
      cases h
      rw [Json.toString?_eq_some_iff.mp hs] at hv
      exact ⟨rfl, _, .word, finds_cons.mpr ⟨hv, finds_nil _⟩⟩
  · rintro ⟨rfl, d, hd, h⟩
    cases op with
    | base _ | mutate _ | finalize _ =>
      have hfield := (finds_cons.mp h).1
      simp [ofKind?, kindWord, hfield, Json.toString?_ofString]
    | metadata e text =>
      obtain ⟨hdirective, h⟩ := finds_cons.mp h
      obtain ⟨htext, -⟩ := finds_cons.mp h
      have he := directiveOfJson?_eq_some_iff.mpr hd
      simp only [directive] at he
      simp [ofKind?, kindWord, hdirective, htext, he, Json.toString?_ofString]

theorem length_values (d : Json) (op : Operation) : (op.values d).length = fieldCount op.kindWord := by
  cases op <;> rfl

/-- a list with the right value in every place is the list of the values -/
theorem Finds.eq_map {values : List Json} {fs : List (String × Json)}
    (h : Finds (fun i _ => values[i]?) fs) (hlength : values.length = fs.length) :
    values = fs.map Prod.snd := by
  apply List.ext_getElem?
  intro i
  rw [List.getElem?_map]
  cases hf : fs[i]? with
  | some f => exact h i f hf
  | none =>
    rw [List.getElem?_eq_none_iff] at hf
    exact List.getElem?_eq_none_iff.mpr (hlength ▸ hf)

/-- A value is read as an operation if and only if it tells it, is sound, and does not nest too deep. -/
theorem ofJson?_eq_some_iff {v : Json} {op : Operation} :
    ofJson? v = some op ↔ v.isSound = true ∧ v.depth ≤ maxDepth ∧ Told op v := by
  have hguard : ∀ (b : Bool) (o : Option Operation),
      (if b then o else none) = some op ↔ b = true ∧ o = some op := by
    intro b o
    cases b <;> simp
  unfold ofJson?
  rw [hguard, Bool.and_eq_true, decide_eq_true_eq, and_assoc]
  refine and_congr_right fun hsound => and_congr_right fun hdepth => ?_
  clear hsound hdepth
  constructor
  · intro h
    split at h
    · next fields =>
      simp only [Option.bind_eq_bind, Option.bind_eq_some_iff] at h
      obtain ⟨v, hv, name, hname, h⟩ := h
      obtain ⟨rfl, d, hd, hvalues⟩ := ofKind?_eq_some_iff.mp h
      rw [Json.toString?_eq_some_iff.mp hname] at hv
      have hall : ∀ f ∈ op.fields d, Json.field? f.1 fields = some f.2 := by
        intro f hf
        rcases List.mem_cons.mp hf with rfl | hf
        · exact hv
        · obtain ⟨i, hi⟩ := List.mem_iff_getElem?.mp hf
          exact hvalues i f hi
      obtain ⟨extra, hperm, hextra⟩ := (Json.field?_eq_iff_perm (nodup_fields d op)).mp hall
      exact .record hd hperm hextra
    · next name values =>
      split at h
      · next hlength =>
        obtain ⟨rfl, d, hd, hvalues⟩ := ofKind?_eq_some_iff.mp h
        rw [hvalues.eq_map (by rw [length_values, hlength])]
        exact .list hd
      · cases h
    · cases h
  · intro h
    cases h with
    | @record d fields extra hd hperm hextra =>
      have hall := (Json.field?_eq_iff_perm (nodup_fields d op)).mpr ⟨extra, hperm, hextra⟩
      have hkind : Json.field? "kind" fields = some (.ofString op.kindWord) := hall _ List.mem_cons_self
      have hvalues : Finds (fun _ name => Json.field? name fields) (op.values d) :=
        fun i f hf => hall f (List.mem_cons_of_mem _ (List.mem_of_getElem? hf))
      simp [hkind, Json.toString?_ofString, ofKind?_eq_some_iff.mpr ⟨rfl, d, hd, hvalues⟩]
    | @list d hd =>
      have hvalues : Finds (fun i _ => ((op.values d).map Prod.snd)[i]?) (op.values d) := by
        intro i f hf
        show ((op.values d).map Prod.snd)[i]? = some f.2
        rw [List.getElem?_map, hf]
        rfl
      have hlength : ((op.values d).map Prod.snd).length = fieldCount op.kindWord := by
        rw [List.length_map, length_values]
      show (if _ then _ else _) = some op
      rw [if_pos hlength]
      exact ofKind?_eq_some_iff.mpr ⟨rfl, d, hd, hvalues⟩

/-! ## reading and writing -/

theorem printable_toJson (op : Operation) : Json.Printable op.toJson := by
  rw [toJson_eq]
  apply Json.printable_ofFields
  intro f hf
  -- the value of every field is a text
  have htext : ∃ s, f.2 = .ofString s := by
    cases op <;> simp only [fields, values, List.mem_cons, List.not_mem_nil, or_false] at hf
    case metadata =>
      rcases hf with rfl | rfl | rfl <;> exact ⟨_, rfl⟩
    all_goals
      rcases hf with rfl | rfl <;> exact ⟨_, rfl⟩
  obtain ⟨s, hs⟩ := htext
  rw [hs]
  exact .text s

theorem told_toJson (op : Operation) : Told op op.toJson := by
  rw [toJson_eq]
  have hperm := List.Perm.of_eq (List.append_nil
    ((op.fields (.ofString op.directive.keyword)).map fun f => (some f.1, f.2))).symm
  exact .record .word hperm fun e he => absurd he List.not_mem_nil

theorem ofJson?_toJson (op : Operation) : ofJson? op.toJson = some op := by
  have hsound : op.toJson.isSound = true := by cases op <;> rfl
  have hdepth : op.toJson.depth = 1 := by cases op <;> rfl
  exact ofJson?_eq_some_iff.mpr ⟨hsound, hdepth ▸ by decide, told_toJson op⟩

theorem read?_compact (op : Operation) : read? op.toJson.compact = some op := by
  rw [read?, Json.parse?_compact (printable_toJson op), Option.bind_some, ofJson?_toJson]

theorem read?_pretty (op : Operation) : read? op.toJson.pretty = some op := by
  rw [read?, Json.parse?_pretty (printable_toJson op), Option.bind_some, ofJson?_toJson]

theorem read?_eq_some_iff {text : String} {op : Operation} :
    read? text = some op ↔
      ∃ v, Json.SpeltBy text v ∧ v.isSound = true ∧ v.depth ≤ maxDepth ∧ Told op v := by
  rw [read?, Option.bind_eq_some_iff]
  simp only [Json.parse?_eq_some_iff, ofJson?_eq_some_iff]

end Operation

/-- Operations are read back from what is written for them.  A text is read as an operation if and only
if it spells a value that tells it, whatever its blanks and escapes, the order of its fields, and the
other fields it has; and what is written for that operation gives it back, with the descriptor and the
keys of its layers. -/
theorem operations_read_back :
    (∀ op : Operation, Operation.read? op.toJson.compact = some op ∧
      Operation.read? op.toJson.pretty = some op) ∧
    ∀ (text : String) (op : Operation),
      (Operation.read? text = some op ↔ ∃ v, Json.SpeltBy text v ∧ v.isSound = true ∧
        v.depth ≤ Operation.maxDepth ∧ op.Told v) ∧
      (Operation.read? text = some op → ∃ again, Operation.read? op.toJson.compact = some again ∧
        again = op ∧ again.descriptor = op.descriptor ∧
        ∀ parent : Identity, parent.derive again = parent.derive op) := by
  refine ⟨fun op => ⟨op.read?_compact, op.read?_pretty⟩, fun text op => ⟨?_, ?_⟩⟩
  · exact Operation.read?_eq_some_iff
  · intro _
    exact ⟨op, op.read?_compact, rfl, rfl, fun _ => rfl⟩

/-- fields in another order, one more of them, blanks and an escape -/
theorem operations_read_back_reordered :
    let text :=
      "\x7b\"text\":\"\\u0041\", \"note\":[1e5],\n\"directive\":\"LABEL\",\"kind\" :\"metadata\"\x7d"
    let op := Operation.metadata .label "A"
    Operation.read? text = some op ∧ (∃ v, Json.SpeltBy text v ∧ op.Told v) ∧
      ∃ again, Operation.read? op.toJson.compact = some again ∧ again = op := by
  intro text op
  have h : Operation.read? text = some op := by decide +kernel
  obtain ⟨hiff, hagain⟩ := operations_read_back.2 text op
  obtain ⟨v, hv, -, -, htold⟩ := hiff.mp h
  obtain ⟨again, hread, he, -⟩ := hagain h
  exact ⟨h, ⟨v, hv, htold⟩, again, hread, he⟩

end DiskLayers
