import DiskLayers.Proofs.Spelling
import Mathlib

/-!
# JSON values

What writing makes of them, and how the fields of a record are found.

* `textSpelt_quote`     a text in quotes spells itself
* `eq_digits_of_readDigits?`
                        the digits of a number are its only numeral without sign, point and exponent
* `Printable`           values without broken texts whose numerals are numerals
* `parse?_pretty`, `parse?_compact`
                        reading undoes writing, in one line or in several
* `field?_eq_iff_perm`  the fields that a record has once each, in any order
-/

namespace DiskLayers.Json

/-! ## texts -/

/-- an escaped character spells its code -/
theorem unitSpelt_escapeChar (c : Char) : UnitSpelt (escapeChar c) c.toNat := by
  unfold escapeChar
  split_ifs with hq hs hn hr ht h8 hC hctl
  · rw [hq]
    exact .letter rfl
  · rw [hs]
    exact .letter rfl
  · rw [hn]
    exact .letter rfl
  · rw [hr]
    exact .letter rfl
  · rw [ht]
    exact .letter rfl
  · rw [h8]
    exact .letter rfl
  · rw [hC]
    exact .letter rfl
  · apply UnitSpelt.hex
    simp only [hexUnit?, Text.hexValue?_hexDigit, Option.bind_eq_bind]
    show some (((0 * 16 + 0) * 16 + c.toNat / 16 % 16) * 16 + c.toNat % 16) = some c.toNat
    congr 1
    omega
  · exact .plain (by omega) hq hs

theorem unitsSpelt_escape (cs : List Char) : UnitsSpelt (escape cs) (cs.map Char.toNat) := by
  induction cs with
  | nil => exact .nil
  | cons c cs ih => exact .cons (unitSpelt_escapeChar c) ih

theorem not_surrogate (c : Char) : isHighSurrogate c.toNat = false ∧ isLowSurrogate c.toNat = false := by
  have hvalid : c.toNat.isValidChar := c.valid
  simp only [isHighSurrogate, isLowSurrogate, Nat.isValidChar] at *
  constructor <;> simp <;> omega

theorem pairUnits?_toNat (cs : List Char) : pairUnits? (cs.map Char.toNat) = some cs := by
  induction cs with
  | nil => rfl
  | cons c cs ih =>
    obtain ⟨hhigh, hlow⟩ := not_surrogate c
    cases cs with
    | nil => simp [pairUnits?, hhigh, hlow]
    | cons d ds =>
      rw [List.map_cons] at ih
      rw [List.map_cons, List.map_cons, pairUnits?, ih]
      simp [hhigh, hlow]

theorem textSpelt_quote (s : String) : TextSpelt (some s) (quote (some s)) := by
  have h := TextSpelt.quoted (unitsSpelt_escape s.toList)
  rw [pairUnits?_toNat] at h
  simpa [quote] using h

/-! ## numerals -/

theorem digits_of_digits (n : Nat) : Digits (Text.digits n) := by
  refine ⟨Text.digits_ne_nil n, ?_⟩
  induction n using Nat.strongRecOn with
  | _ n ih =>
    have hlast : (Text.digitValue? (Text.digitChar n)).isSome = true := by
      rw [Text.digitValue?_digitChar]
      rfl
    rw [Text.digits]
    split
    · simpa using hlast
    · next hn =>
      intro c hc
      rcases List.mem_append.mp hc with hc | hc
      · exact ih (n / 10) (by omega) c hc
      · rw [List.mem_singleton.mp hc]
        exact hlast

theorem head?_digits (n : Nat) (hn : 0 < n) : (Text.digits n).head? ≠ some '0' := by
  induction n using Nat.strongRecOn with
  | _ n ih =>
    rw [Text.digits]
    split
    · next hsmall =>
      intro hhead
      have hvalue := Text.digitValue?_digitChar n
      rw [Option.some.inj hhead, Nat.mod_eq_of_lt hsmall] at hvalue
      have : 0 = n := Option.some.inj hvalue
      omega
    · rw [List.head?_append_of_ne_nil _ (Text.digits_ne_nil _)]
      exact ih (n / 10) (by omega) (by omega)

theorem isNumeral_digits (n : Nat) : IsNumeral (Text.digits n) := by
  have hwhole : Whole (Text.digits n) := by
    by_cases hn : n = 0
    · have : Text.digits n = ['0'] := by rw [hn, Text.digits]; rfl
      rw [this]
      exact .zero
    · exact .digits (digits_of_digits n) (head?_digits n (by omega))
  have := IsUnsigned.parts hwhole .none .none
  rw [List.append_nil, List.append_nil] at this
  exact .positive this

theorem digitValue?_of_readDigitsFrom? {acc n : Nat} {ds : List Char}
    (h : Text.readDigitsFrom? acc ds = some n) : ∀ c ∈ ds, (Text.digitValue? c).isSome = true := by
  induction ds generalizing acc with
  | nil => exact fun c hc => absurd hc List.not_mem_nil
  | cons d ds ih =>
    obtain ⟨value, hvalue, hrest⟩ := Option.bind_eq_some_iff.mp h
    intro c hc
    rcases List.mem_cons.mp hc with rfl | hc
    · rw [hvalue]
      rfl
    · exact ih hrest c hc

theorem digitChar_of_digitValue? {c : Char} {d : Nat} (h : Text.digitValue? c = some d) (m : Nat) :
    Text.digitChar (m * 10 + d) = c ∧ d < 10 ∧ (d = 0 → c = '0') := by
  unfold Text.digitValue? at h
  split at h
  · next hc =>
    cases h
    have hlow : 48 ≤ c.toNat := hc.1
    have hhigh : c.toNat ≤ 57 := hc.2
    refine ⟨?_, by omega, fun hzero => ?_⟩
    · rw [Text.digitChar, show 48 + (m * 10 + (c.toNat - 48)) % 10 = c.toNat by omega]
      exact Char.ofNat_toNat c
    · rw [← Char.ofNat_toNat c, show c.toNat = 48 by omega]
  · cases h

/-- Digits that do not begin with a zero are those of the number they spell.  The induction takes
them from the back, as `digits` does. -/
theorem digits_of_readDigitsFrom? {ds : List Char} {n : Nat} (hne : ds ≠ [])
    (hzero : ds.head? ≠ some '0') (h : Text.readDigitsFrom? 0 ds = some n) :
    Text.digits n = ds ∧ 0 < n := by
  induction ds using List.reverseRecOn generalizing n with
  | nil => exact absurd rfl hne
  | append_singleton front c ih =>
    rw [Text.readDigitsFrom?_append] at h
    obtain ⟨m, hm, h⟩ := Option.bind_eq_some_iff.mp h
    obtain ⟨d, hd, h⟩ := Option.bind_eq_some_iff.mp h
    cases h
    obtain ⟨hchar, hlt, hnot⟩ := digitChar_of_digitValue? hd m
    by_cases hfront : front = []
    · subst hfront
      cases hm
      have hpos : d ≠ 0 := fun he => hzero (by rw [hnot he]; rfl)
      rw [Text.digits, if_pos (by omega), hchar]
      exact ⟨rfl, by omega⟩
    · rw [List.head?_append_of_ne_nil _ hfront] at hzero
      obtain ⟨hdigits, hpos⟩ := ih hfront hzero hm
      rw [Text.digits, if_neg (by omega), hchar, show (m * 10 + d) / 10 = m by omega, hdigits]
      exact ⟨rfl, by omega⟩

/-- neither a point nor the letter of an exponent is a digit -/
theorem IsUnsigned.whole {ds : List Char} (h : IsUnsigned ds)
    (hdigit : ∀ c ∈ ds, (Text.digitValue? c).isSome = true) : Whole ds := by
  obtain ⟨hw, hf, hs⟩ := h
  cases hf with
  | point _ => exact absurd (hdigit '.' (by simp)) (by decide)
  | none =>
    cases hs with
    | none => simpa using hw
    | bare he _ =>
      rcases he with rfl | rfl
      · exact absurd (hdigit 'e' (by simp)) (by decide)
      · exact absurd (hdigit 'E' (by simp)) (by decide)
    | signed he _ _ =>
      rcases he with rfl | rfl
      · exact absurd (hdigit 'e' (by simp)) (by decide)
      · exact absurd (hdigit 'E' (by simp)) (by decide)

/-- The digits of a number are its only numeral without sign, point and exponent. -/
theorem eq_digits_of_readDigits? {ds : List Char} {n : Nat} (hnumeral : IsNumeral ds)
    (h : Text.readDigits? ds = some n) : ds = Text.digits n := by
  obtain ⟨c, cs, rfl, -⟩ := hnumeral.head
  have hread : Text.readDigitsFrom? 0 (c :: cs) = some n := h
  have hdigit := digitValue?_of_readDigitsFrom? hread
  have hwhole : Whole (c :: cs) := by
    cases hnumeral with
    | negative _ => exact absurd (hdigit '-' List.mem_cons_self) (by decide)
    | positive hunsigned => exact hunsigned.whole hdigit
  cases hwhole with
  | zero =>
    cases hread
    rw [Text.digits]
    rfl
  | digits hds hzero => exact (digits_of_readDigitsFrom? hds.ne_nil hzero hread).1.symm

/-! ## values -/

inductive Printable : Json → Prop where
  | null : Printable .null
  | bool (b : Bool) : Printable (.bool b)
  | number {numeral : List Char} (h : IsNumeral numeral) : Printable (.number numeral)
  | text (s : String) : Printable (.text (some s))
  | list {items : List Json} (h : ∀ v ∈ items, Printable v) : Printable (.list items)
  | record {fields : List (Option String × Json)} (hname : ∀ f ∈ fields, f.1.isSome = true)
      (h : ∀ f ∈ fields, Printable f.2) : Printable (.record fields)

theorem printable_ofNat (n : Nat) : Printable (ofNat n) := .number (isNumeral_digits n)

theorem printable_ofFields {fields : List (String × Json)} (h : ∀ f ∈ fields, Printable f.2) :
    Printable (ofFields fields) := by
  apply Printable.record
  · intro f hf
    obtain ⟨⟨name, v⟩, -, rfl⟩ := List.mem_map.mp hf
    rfl
  · intro f hf
    obtain ⟨⟨name, v⟩, hmem, rfl⟩ := List.mem_map.mp hf
    exact h _ hmem

/-- things in a row, each but the first behind a comma and a separator -/
theorem row_of_flatMap {α : Type} {P : α → List Char → Prop} {print : α → List Char}
    {b b' : List Char} (hb : Blanks b) (hb' : Blanks b') (a : α) (as : List α)
    (h : ∀ x ∈ a :: as, P x (print x)) :
    Row P (a :: as) (b ++ print a ++ as.flatMap (fun x => ',' :: b ++ print x) ++ b') := by
  induction as generalizing a with
  | nil => simpa using Row.last hb (h a List.mem_cons_self) hb'
  | cons x xs ih =>
    have hrest := ih x fun y hy => h y (List.mem_cons_of_mem _ hy)
    have hrow := Row.more hb (h a List.mem_cons_self) blanks_nil hrest
    simpa using hrow

-- `b` stands in front of every item or field, `b'` behind the last one
theorem Spelt.list_of_flatMap {print : Json → List Char} {b b' : List Char} (hb : Blanks b)
    (hb' : Blanks b') (v : Json) (vs : List Json) (h : ∀ x ∈ v :: vs, Spelt x (print x)) :
    Spelt (.list (v :: vs))
      ('[' :: b ++ print v ++ vs.flatMap (fun x => ',' :: b ++ print x) ++ b' ++ [']']) := by
  have := Spelt.list (row_of_flatMap hb hb' v vs h)
  simpa using this

/-- a field with blanks behind its colon -/
def printField (b : List Char) (print : Json → List Char) (f : Option String × Json) : List Char :=
  quote f.1 ++ ':' :: b ++ print f.2

theorem Spelt.record_of_flatMap {print : Json → List Char} {b b' gap : List Char} (hb : Blanks b)
    (hb' : Blanks b') (hgap : Blanks gap) (f : Option String × Json)
    (fs : List (Option String × Json)) (hname : ∀ x ∈ f :: fs, x.1.isSome = true)
    (h : ∀ x ∈ f :: fs, Spelt x.2 (print x.2)) :
    Spelt (.record (f :: fs))
      ('\x7b' :: b ++ printField gap print f ++
        fs.flatMap (fun x => ',' :: b ++ printField gap print x) ++ b' ++ ['\x7d']) := by
  have hfield : ∀ x ∈ f :: fs, FieldSpelt x (printField gap print x) := by
    intro x hx
    obtain ⟨name, hname⟩ := Option.isSome_iff_exists.mp (hname x hx)
    have := FieldSpelt.field (textSpelt_quote name) blanks_nil hgap (h x hx)
    rw [← hname, List.append_nil] at this
    exact this
  have := Spelt.record (row_of_flatMap hb hb' f fs hfield)
  simpa using this

theorem prettyItems_eq (level : Nat) (items : List Json) :
    prettyItems level items = items.flatMap fun v => ',' :: newLine level ++ prettyAt level v := by
  induction items with
  | nil => rw [prettyItems]; rfl
  | cons v vs ih => rw [prettyItems, ih, List.flatMap_cons]

theorem prettyFields_eq (level : Nat) (fields : List (Option String × Json)) :
    prettyFields level fields =
      fields.flatMap fun f => ',' :: newLine level ++ printField [' '] (prettyAt level) f := by
  induction fields with
  | nil => rw [prettyFields]; rfl
  | cons f fs ih =>
    rw [prettyFields, ih, List.flatMap_cons, printField]
    simp

theorem compactItems_eq (items : List Json) :
    compactItems items = items.flatMap fun v => ',' :: [] ++ compactChars v := by
  induction items with
  | nil => rw [compactItems]; rfl
  | cons v vs ih => rw [compactItems, ih, List.flatMap_cons]; rfl

theorem compactFields_eq (fields : List (Option String × Json)) :
    compactFields fields = fields.flatMap fun f => ',' :: [] ++ printField [] compactChars f := by
  induction fields with
  | nil => rw [compactFields]; rfl
  | cons f fs ih =>
    rw [compactFields, ih, List.flatMap_cons, printField]
    simp

theorem blanks_newLine (level : Nat) : Blanks (newLine level) := by
  intro c hc
  rcases List.mem_cons.mp hc with rfl | hc
  · rfl
  · rw [List.eq_of_mem_replicate hc]
    rfl

theorem blanks_space : Blanks [' '] := fun c hc => by rw [List.mem_singleton.mp hc]; rfl

/-- a value over several lines spells it -/
theorem Printable.spelt_prettyAt {v : Json} (h : Printable v) (level : Nat) :
    Spelt v (prettyAt level v) := by
  induction h generalizing level with
  | null => rw [prettyAt]; exact .null
  | bool b => cases b <;> rw [prettyAt] <;> constructor
  | number h => rw [prettyAt]; exact .number h
  | text s => rw [prettyAt]; exact .text (textSpelt_quote s)
  | @list items _ ih =>
    cases items with
    | nil =>
      rw [prettyAt]
      exact .nil blanks_nil
    | cons v vs =>
      rw [prettyAt, prettyItems_eq]
      exact .list_of_flatMap (blanks_newLine _) (blanks_newLine _) v vs fun x hx => ih x hx (level + 1)
  | @record fields hname _ ih =>
    cases fields with
    | nil =>
      rw [prettyAt]
      exact .empty blanks_nil
    | cons f fs =>
      have := Spelt.record_of_flatMap (blanks_newLine (level + 1)) (blanks_newLine level)
        blanks_space f fs hname fun x hx => ih x hx (level + 1)
      rw [prettyAt, prettyFields_eq]
      simpa [printField] using this

/-- a value without blanks spells it -/
theorem Printable.spelt_compactChars {v : Json} (h : Printable v) : Spelt v (compactChars v) := by
  induction h with
  | null => rw [compactChars]; exact .null
  | bool b => cases b <;> rw [compactChars] <;> constructor
  | number h => rw [compactChars]; exact .number h
  | text s => rw [compactChars]; exact .text (textSpelt_quote s)
  | @list items _ ih =>
    cases items with
    | nil =>
      rw [compactChars]
      exact .nil blanks_nil
    | cons v vs =>
      have := Spelt.list_of_flatMap blanks_nil blanks_nil v vs ih
      rw [compactChars, compactItems_eq]
      simpa using this
  | @record fields hname _ ih =>
    cases fields with
    | nil =>
      rw [compactChars]
      exact .empty blanks_nil
    | cons f fs =>
      have := Spelt.record_of_flatMap blanks_nil blanks_nil blanks_nil f fs hname ih
      rw [compactChars, compactFields_eq]
      simpa [printField] using this

/-- Reading undoes writing over several lines. -/
theorem parse?_pretty {v : Json} (h : Printable v) : parse? v.pretty = some v := by
  apply parse?_eq_some_iff.mpr
  refine ⟨[], prettyAt 0 v, [], ?_, blanks_nil, h.spelt_prettyAt 0, blanks_nil⟩
  simp [pretty]

/-- Reading undoes writing without blanks. -/
theorem parse?_compact {v : Json} (h : Printable v) : parse? v.compact = some v := by
  apply parse?_eq_some_iff.mpr
  refine ⟨[], compactChars v, [], ?_, blanks_nil, h.spelt_compactChars, blanks_nil⟩
  simp [compact]

/-! ## what a value is made of -/

theorem Row.exists_of_mem {α : Type} {P : α → List Char → Prop} {as : List α} {body : List Char}
    (h : Row P as body) {a : α} (ha : a ∈ as) : ∃ cs, P a cs := by
  induction h with
  | last _ h _ =>
    rw [List.mem_singleton.mp ha]
    exact ⟨_, h⟩
  | more _ h _ _ ih =>
    rcases List.mem_cons.mp ha with rfl | ha
    · exact ⟨_, h⟩
    · exact ih ha

theorem Spelt.item {items : List Json} {body : List Char} (h : Spelt (.list items) body) {v : Json}
    (hv : v ∈ items) : ∃ cs, Spelt v cs := by
  cases h with
  | nil _ => exact absurd hv List.not_mem_nil
  | list h => exact h.exists_of_mem hv

theorem Spelt.value {fields : List (Option String × Json)} {body : List Char}
    (h : Spelt (.record fields) body) {f : Option String × Json} (hf : f ∈ fields) :
    ∃ cs, Spelt f.2 cs := by
  cases h with
  | empty _ => exact absurd hf List.not_mem_nil
  | record h =>
    obtain ⟨cs, @⟨name, v, text, b, b', body, hname, hb, hb', hv⟩⟩ := h.exists_of_mem hf
    exact ⟨body, hv⟩

theorem toNat?_eq_some_iff {v : Json} {cs : List Char} (hv : Spelt v cs) {limit n : Nat} :
    v.toNat? limit = some n ↔ v = ofNat n ∧ n ≤ limit := by
  constructor
  · intro h
    cases hv with
    | @number numeral hnumeral =>
      rw [toNat?, Option.filter_eq_some_iff] at h
      refine ⟨?_, by simpa using h.2⟩
      rw [eq_digits_of_readDigits? hnumeral h.1]
      rfl
    | _ => cases h
  · rintro ⟨rfl, h⟩
    exact toNat?_ofNat h

/-! ## the fields of a record -/

theorem toString?_eq_some_iff {v : Json} {s : String} : v.toString? = some s ↔ v = ofString s := by
  cases v <;> simp [toString?, ofString]

/-- A field is found if and only if it is there, once. -/
theorem field?_eq_some_iff {name : String} {v : Json} {fields : List (Option String × Json)} :
    field? name fields = some v ↔
      ∃ others, fields.Perm ((some name, v) :: others) ∧ ∀ f ∈ others, f.1 ≠ some name := by
  constructor
  · intro h
    have hsplit := (List.filter_append_perm (fun f => decide (f.1 = some name)) fields).symm
    unfold field? at h
    split at h
    · next n value hfilter =>
      cases h
      have hn : n = some name := by
        have hmem : (n, v) ∈ fields.filter (·.1 = some name) := hfilter ▸ List.mem_singleton_self _
        simpa using (List.mem_filter.mp hmem).2
      rw [hfilter, hn] at hsplit
      exact ⟨_, hsplit, fun f hf => by simpa using (List.mem_filter.mp hf).2⟩
    · cases h
  · rintro ⟨others, hperm, hothers⟩
    have hfilter := hperm.filter (·.1 = some name)
    have hnone : others.filter (·.1 = some name) = [] := by
      rw [List.filter_eq_nil_iff]
      intro f hf
      simpa using hothers f hf
    rw [List.filter_cons_of_pos (by simp), hnone, List.perm_singleton] at hfilter
    simp [field?, hfilter]

theorem mem_of_field? {name : String} {v : Json} {fields : List (Option String × Json)}
    (h : field? name fields = some v) : (some name, v) ∈ fields := by
  obtain ⟨others, hperm, -⟩ := field?_eq_some_iff.mp h
  exact hperm.symm.subset List.mem_cons_self

theorem field?_perm {fields fields' : List (Option String × Json)} (h : fields.Perm fields')
    (name : String) : field? name fields = field? name fields' := by
  apply Option.ext
  intro v
  rw [field?_eq_some_iff, field?_eq_some_iff]
  constructor
  · rintro ⟨others, hperm, hothers⟩
    exact ⟨others, h.symm.trans hperm, hothers⟩
  · rintro ⟨others, hperm, hothers⟩
    exact ⟨others, h.trans hperm, hothers⟩

theorem field?_cons_of_ne {name other : String} (h : other ≠ name) (v : Json)
    (fields : List (Option String × Json)) :
    field? name ((some other, v) :: fields) = field? name fields := by
  simp [field?, h]

/-- A record has each of the wanted fields once if and only if they and fields of other names are
all its fields, in some order. -/
theorem field?_eq_iff_perm {wanted : List (String × Json)} {fields : List (Option String × Json)}
    (hnodup : (wanted.map Prod.fst).Nodup) :
    (∀ f ∈ wanted, field? f.1 fields = some f.2) ↔
      ∃ extra, fields.Perm (wanted.map (fun f => (some f.1, f.2)) ++ extra) ∧
        ∀ e ∈ extra, ∀ f ∈ wanted, e.1 ≠ some f.1 := by
  induction wanted generalizing fields with
  | nil => exact ⟨fun _ => ⟨fields, .refl _, by simp⟩, fun _ => by simp⟩
  | cons f fs ih =>
    obtain ⟨name, v⟩ := f
    rw [List.map_cons, List.nodup_cons] at hnodup
    have hne : ∀ g ∈ fs, name ≠ g.1 := fun g hg he =>
      hnodup.1 (List.mem_map.mpr ⟨g, hg, he.symm⟩)
    constructor
    · intro h
      obtain ⟨others, hperm, hothers⟩ := field?_eq_some_iff.mp (h _ List.mem_cons_self)
      -- the other fields are looked for among what is left
      have hrest : ∀ g ∈ fs, field? g.1 others = some g.2 := by
        intro g hg
        rw [← field?_cons_of_ne (hne g hg) v, ← field?_perm hperm]
        exact h g (List.mem_cons_of_mem _ hg)
      obtain ⟨extra, hextra, hnames⟩ := (ih hnodup.2).mp hrest
      refine ⟨extra, hperm.trans (hextra.cons _), ?_⟩
      intro e he g hg
      rcases List.mem_cons.mp hg with rfl | hg
      · exact hothers e (hextra.symm.subset (List.mem_append_right _ he))
      · exact hnames e he g hg
    · rintro ⟨extra, hperm, hnames⟩ g hg
      rw [field?_perm hperm]
      rcases List.mem_cons.mp hg with rfl | hg
      · apply field?_eq_some_iff.mpr
        refine ⟨_, .refl _, ?_⟩
        intro e he hsame
        rcases List.mem_append.mp he with he | he
        · obtain ⟨g, hg, rfl⟩ := List.mem_map.mp he
          exact hne g hg (Option.some.inj hsame).symm
        · exact hnames e he _ List.mem_cons_self hsame
      · rw [List.map_cons, List.cons_append, field?_cons_of_ne (hne g hg)]
        exact (ih hnodup.2).mpr ⟨extra, .refl _, fun e he g hg => hnames e he g
          (List.mem_cons_of_mem _ hg)⟩ g hg

end DiskLayers.Json
