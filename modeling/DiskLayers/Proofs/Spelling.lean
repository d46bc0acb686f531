import DiskLayers.Json.Printer
import DiskLayers.Json.Reader
import Mathlib

/-!
# What a JSON text spells

The grammar that a reader follows, as a relation between values and characters.

* `Blanks`              blanks only
* `UnitSpelt`, `UnitsSpelt`
                        the characters that spell code units between quotes
* `IsNumeral`           what is a numeral
* `Stops`               what may follow a numeral
* `Spelt`, `ItemsSpelt`, `FieldsSpelt`
                        the characters that spell a value, the items of a list, the fields of a record
* `SpeltBy`             the texts that spell a value, with blanks around it

A reader takes from the front what the grammar allows there, and no spelling escapes it
(`parse?_eq_some_iff`).
-/

namespace DiskLayers.Json

/-! ## blanks -/

def Blanks (cs : List Char) : Prop := ∀ c ∈ cs, isSpace c = true

theorem blanks_nil : Blanks [] := fun _ h => absurd h List.not_mem_nil

theorem exists_skipSpace (cs : List Char) : ∃ b, Blanks b ∧ cs = b ++ skipSpace cs :=
  ⟨_, fun _ hc => List.mem_takeWhile_imp hc, List.takeWhile_append_dropWhile.symm⟩

theorem skipSpace_append {b cs : List Char} (hb : Blanks b)
    (h : ∀ c, cs.head? = some c → isSpace c = false) : skipSpace (b ++ cs) = cs := by
  unfold skipSpace
  rw [List.dropWhile_append, List.dropWhile_eq_nil_iff.mpr hb]
  cases cs with
  | nil => rfl
  | cons c cs => simp [h c rfl]

theorem skipSpace_blanks {b : List Char} (hb : Blanks b) : skipSpace b = [] :=
  List.dropWhile_eq_nil_iff.mpr hb

/-! ## texts -/

/-- The characters that spell one code unit between quotes. -/
inductive UnitSpelt : List Char → Nat → Prop where
  /-- a character that stands for itself -/
  | plain {c : Char} (hc : 0x20 ≤ c.toNat) (hq : c ≠ '"') (hb : c ≠ '\\') : UnitSpelt [c] c.toNat
  /-- one letter behind a backslash -/
  | letter {e : Char} {u : Nat} (h : escapeUnit? e = some u) : UnitSpelt ['\\', e] u
  /-- four hexadecimal digits of either case -/
  | hex {a b c d : Char} {u : Nat} (h : hexUnit? a b c d = some u) :
    UnitSpelt ['\\', 'u', a, b, c, d] u

/-- The characters that spell code units between quotes. -/
inductive UnitsSpelt : List Char → List Nat → Prop where
  | nil : UnitsSpelt [] []
  | cons {cs : List Char} {u : Nat} {body : List Char} {us : List Nat} (h : UnitSpelt cs u)
      (rest : UnitsSpelt body us) : UnitsSpelt (cs ++ body) (u :: us)

/-- a spelt unit is read, whatever follows it -/
theorem UnitSpelt.readUnits {cs : List Char} {u : Nat} (h : UnitSpelt cs u) (rest : List Char) :
    readUnits (cs ++ rest) = (readUnits rest).map fun (us, rest) => (u :: us, rest) := by
  cases h with
  | plain hc hq hb =>
    rw [List.singleton_append, Json.readUnits]
    · rw [if_neg (by simp only [hb, or_false]; omega)]
    · exact hq
    · intro _ _ _ _ _ h
      exact absurd h hb
    · intro _ _ h
      exact absurd h hb
  | @letter e _ h =>
    -- the letter of the longer escape is no escape of its own
    have he : e ≠ 'u' := by
      intro he
      subst he
      simp [escapeUnit?] at h
    show Json.readUnits ('\\' :: e :: rest) = _
    rw [Json.readUnits]
    · rw [h]
      cases Json.readUnits rest <;> rfl
    · intro _ _ _ _ _ h
      exact absurd h he
  | hex h =>
    show Json.readUnits ('\\' :: 'u' :: _ :: _ :: _ :: _ :: rest) = _
    rw [Json.readUnits, h]
    cases Json.readUnits rest <;> rfl

/-- the units of a text are those that its characters spell -/
theorem readUnits_eq_some_iff {cs : List Char} {us : List Nat} {rest : List Char} :
    readUnits cs = some (us, rest) ↔ ∃ body, cs = body ++ '"' :: rest ∧ UnitsSpelt body us := by
  constructor
  · intro h
    -- by induction on the calls of the reader: one unit for each but the last
    induction cs using readUnits.induct generalizing us with
    | case1 => cases h
    | case2 cs =>
      cases h
      exact ⟨[], rfl, .nil⟩
    | case3 a b c d cs ih =>
      simp only [readUnits, Option.bind_eq_bind, Option.bind_eq_some_iff] at h
      obtain ⟨u, hu, ⟨us', rest'⟩, hus, h⟩ := h
      cases h
      obtain ⟨body, rfl, hbody⟩ := ih hus
      exact ⟨_, rfl, .cons (.hex hu) hbody⟩
    | case4 e cs hnot ih =>
      rw [readUnits] at h
      · simp only [Option.bind_eq_bind, Option.bind_eq_some_iff] at h
        obtain ⟨u, hu, ⟨us', rest'⟩, hus, h⟩ := h
        cases h
        obtain ⟨body, rfl, hbody⟩ := ih hus
        exact ⟨_, rfl, .cons (.letter hu) hbody⟩
      · exact hnot
    | case5 c cs hq _ hb hc => simp [readUnits, hc] at h
    | case6 c cs hq _ hb hc ih =>
      rw [readUnits, if_neg hc, Option.map_eq_some_iff] at h
      · obtain ⟨⟨us', rest'⟩, hus, h⟩ := h
        cases h
        obtain ⟨body, rfl, hbody⟩ := ih hus
        rw [not_or, Nat.not_lt] at hc
        exact ⟨_, rfl, .cons (.plain hc.1 hq hc.2) hbody⟩
      all_goals assumption
  · rintro ⟨body, rfl, h⟩
    induction h with
    | nil => rfl
    | cons h _ ih => rw [List.append_assoc, h.readUnits, ih]; rfl

/-! ## numerals -/

/-- digits, at least one -/
structure Digits (ds : List Char) : Prop where
  ne_nil : ds ≠ []
  digit : ∀ c ∈ ds, (Text.digitValue? c).isSome = true

/-- The whole part of a numeral. -/
inductive Whole : List Char → Prop where
  | zero : Whole ['0']
  | digits {ds : List Char} (h : Digits ds) (hzero : ds.head? ≠ some '0') : Whole ds

/-- The fraction of a numeral, if there is one. -/
inductive Fraction : List Char → Prop where
  | none : Fraction []
  | point {ds : List Char} (h : Digits ds) : Fraction ('.' :: ds)

/-- The exponent of a numeral, if there is one. -/
inductive Scale : List Char → Prop where
  | none : Scale []
  | bare {e : Char} {ds : List Char} (he : e = 'e' ∨ e = 'E') (h : Digits ds) : Scale (e :: ds)
  | signed {e sign : Char} {ds : List Char} (he : e = 'e' ∨ e = 'E') (hsign : sign = '+' ∨ sign = '-')
      (h : Digits ds) : Scale (e :: sign :: ds)

/-- A numeral without a sign. -/
inductive IsUnsigned : List Char → Prop where
  | parts {whole fraction scale : List Char} (hw : Whole whole) (hf : Fraction fraction)
      (hs : Scale scale) : IsUnsigned (whole ++ fraction ++ scale)

inductive IsNumeral : List Char → Prop where
  | positive {cs : List Char} (h : IsUnsigned cs) : IsNumeral cs
  | negative {cs : List Char} (h : IsUnsigned cs) : IsNumeral ('-' :: cs)

/-- no digit is next -/
def NoDigit (cs : List Char) : Prop := ∀ c, cs.head? = some c → Text.digitValue? c = none

/-- nothing is next that would go on with a numeral -/
def Stops (cs : List Char) : Prop :=
  ∀ c, cs.head? = some c → Text.digitValue? c = none ∧ c ≠ '.' ∧ c ≠ 'e' ∧ c ≠ 'E'

theorem Stops.noDigit {cs : List Char} (h : Stops cs) : NoDigit cs := fun c hc => (h c hc).1

theorem readSomeDigits_append {ds rest : List Char} (h : Digits ds) (hrest : NoDigit rest) :
    readSomeDigits (ds ++ rest) = some (ds, rest) := by
  have htake : (ds ++ rest).takeWhile (fun c => (Text.digitValue? c).isSome) = ds := by
    rw [List.takeWhile_append_of_pos h.digit]
    cases rest with
    | nil => simp
    | cons c rest => simp [hrest c rfl]
  have hdrop : (ds ++ rest).dropWhile (fun c => (Text.digitValue? c).isSome) = rest := by
    rw [List.dropWhile_append_of_pos h.digit]
    cases rest with
    | nil => rfl
    | cons c rest => simp [hrest c rfl]
  have hne : ds.isEmpty = false := by simp [h.ne_nil]
  simp [readSomeDigits, htake, hdrop, hne]

theorem readSomeDigits_eq_some {cs ds rest : List Char} (h : readSomeDigits cs = some (ds, rest)) :
    cs = ds ++ rest ∧ Digits ds := by
  simp only [readSomeDigits] at h
  split at h
  · cases h
  · next hne =>
    cases h
    refine ⟨List.takeWhile_append_dropWhile.symm, by simpa using hne, ?_⟩
    intro c hc
    exact List.mem_takeWhile_imp (p := fun c => (Text.digitValue? c).isSome) hc

theorem readWhole_append {whole rest : List Char} (h : Whole whole) (hrest : NoDigit rest) :
    readWhole (whole ++ rest) = some (whole, rest) := by
  cases h with
  | zero => rfl
  | digits h hzero =>
    cases whole with
    | nil => exact absurd rfl h.ne_nil
    | cons c cs =>
      rw [← readSomeDigits_append h hrest, List.cons_append, readWhole]
      intro _ he
      cases he
      exact hzero rfl

theorem readFraction_append {fraction rest : List Char} (h : Fraction fraction)
    (hrest : NoDigit rest) (hpoint : rest.head? ≠ some '.') :
    readFraction (fraction ++ rest) = some (fraction, rest) := by
  cases h with
  | none =>
    rw [List.nil_append, readFraction]
    rintro _ he
    exact hpoint (by rw [he]; rfl)
  | point h =>
    rw [List.cons_append, readFraction, readSomeDigits_append h hrest]
    rfl

theorem readScale_append {scale rest : List Char} (h : Scale scale) (hrest : Stops rest) :
    readScale (scale ++ rest) = some (scale, rest) := by
  cases h with
  | none =>
    cases rest with
    | nil => rfl
    | cons c rest =>
      have := hrest c rfl
      simp [readScale, this]
  | @bare e ds he h =>
    have hdigits := readSomeDigits_append h hrest.noDigit
    cases ds with
    | nil => exact absurd rfl h.ne_nil
    | cons d ds =>
      -- a digit is neither sign, so that the reader takes the last of its three ways
      have hd := h.digit d List.mem_cons_self
      have hplus : d ≠ '+' := fun he => by simp [he, Text.digitValue?] at hd
      have hminus : d ≠ '-' := fun he => by simp [he, Text.digitValue?] at hd
      rw [List.cons_append] at hdigits
      simp [readScale, he, hdigits, hplus, hminus]
  | @signed e sign ds he hsign h =>
    have hdigits := readSomeDigits_append h hrest.noDigit
    rcases hsign with rfl | rfl <;> simp [readScale, he, hdigits]

theorem Scale.head {scale rest : List Char} (h : Scale scale) (hrest : Stops rest) :
    NoDigit (scale ++ rest) ∧ (scale ++ rest).head? ≠ some '.' := by
  cases h with
  | none => exact ⟨hrest.noDigit, fun h => (hrest _ h).2.1 rfl⟩
  | bare he _ | signed he _ _ =>
    rcases he with rfl | rfl
    · exact ⟨fun c hc => by cases hc; rfl, by simp⟩
    · exact ⟨fun c hc => by cases hc; rfl, by simp⟩

theorem Fraction.noDigit {fraction rest : List Char} (h : Fraction fraction) (hrest : NoDigit rest) :
    NoDigit (fraction ++ rest) := by
  cases h with
  | none => exact hrest
  | point _ =>
    intro c hc
    cases hc
    rfl

theorem readUnsigned_append {cs rest : List Char} (h : IsUnsigned cs) (hrest : Stops rest) :
    readUnsigned (cs ++ rest) = some (cs, rest) := by
  obtain ⟨hw, hf, hs⟩ := h
  obtain ⟨hnd, hpoint⟩ := hs.head hrest
  rw [List.append_assoc, List.append_assoc, readUnsigned, readWhole_append hw (hf.noDigit hnd)]
  simp [readFraction_append hf hnd hpoint, readScale_append hs hrest]

theorem readUnsigned_minus (cs : List Char) : readUnsigned ('-' :: cs) = none := by
  simp [readUnsigned, readWhole, readSomeDigits, Text.digitValue?]

theorem readNumeral_append {cs rest : List Char} (h : IsNumeral cs) (hrest : Stops rest) :
    readNumeral (cs ++ rest) = some (cs, rest) := by
  cases h with
  | positive h =>
    have hread := readUnsigned_append h hrest
    rw [readNumeral]
    · exact hread
    · intro rest' he
      rw [he, readUnsigned_minus] at hread
      cases hread
  | negative h =>
    rw [List.cons_append, readNumeral, readUnsigned_append h hrest]
    rfl

theorem readWhole_eq_some {cs whole rest : List Char} (h : readWhole cs = some (whole, rest)) :
    cs = whole ++ rest ∧ Whole whole := by
  unfold readWhole at h
  split at h
  · cases h
    exact ⟨rfl, .zero⟩
  · next hzero =>
    obtain ⟨rfl, hdigits⟩ := readSomeDigits_eq_some h
    refine ⟨rfl, .digits hdigits ?_⟩
    intro hhead
    cases whole with
    | nil => cases hhead
    | cons c cs =>
      cases hhead
      exact hzero _ rfl

theorem readFraction_eq_some {cs fraction rest : List Char}
    (h : readFraction cs = some (fraction, rest)) : cs = fraction ++ rest ∧ Fraction fraction := by
  unfold readFraction at h
  split at h
  · obtain ⟨⟨ds, rest'⟩, hds, h⟩ := Option.map_eq_some_iff.mp h
    cases h
    obtain ⟨rfl, hdigits⟩ := readSomeDigits_eq_some hds
    exact ⟨rfl, .point hdigits⟩
  · cases h
    exact ⟨rfl, .none⟩

theorem readScale_eq_some {cs scale rest : List Char} (h : readScale cs = some (scale, rest)) :
    cs = scale ++ rest ∧ Scale scale := by
  unfold readScale at h
  split at h
  · cases h
    exact ⟨rfl, .none⟩
  · split at h
    · next he =>
      split at h
      all_goals
        simp only [Bool.or_eq_true, decide_eq_true_eq] at he
        obtain ⟨⟨ds, rest'⟩, hds, h⟩ := Option.map_eq_some_iff.mp h
        cases h
        obtain ⟨rfl, hdigits⟩ := readSomeDigits_eq_some hds
      · exact ⟨rfl, .signed he (.inl rfl) hdigits⟩
      · exact ⟨rfl, .signed he (.inr rfl) hdigits⟩
      · exact ⟨rfl, .bare he hdigits⟩
    · cases h
      exact ⟨rfl, .none⟩

theorem readUnsigned_eq_some {cs numeral rest : List Char}
    (h : readUnsigned cs = some (numeral, rest)) : cs = numeral ++ rest ∧ IsUnsigned numeral := by
  simp only [readUnsigned, Option.bind_eq_bind, Option.bind_eq_some_iff] at h
  obtain ⟨⟨whole, cs₁⟩, hw, ⟨fraction, cs₂⟩, hf, ⟨scale, cs₃⟩, hs, h⟩ := h
  cases h
  obtain ⟨rfl, hs'⟩ := readScale_eq_some hs
  obtain ⟨rfl, hf'⟩ := readFraction_eq_some hf
  obtain ⟨rfl, hw'⟩ := readWhole_eq_some hw
  exact ⟨by simp, .parts hw' hf' hs'⟩

theorem readNumeral_eq_some {cs numeral rest : List Char}
    (h : readNumeral cs = some (numeral, rest)) : cs = numeral ++ rest ∧ IsNumeral numeral := by
  unfold readNumeral at h
  split at h
  · obtain ⟨⟨unsigned, rest'⟩, hu, h⟩ := Option.map_eq_some_iff.mp h
    cases h
    obtain ⟨rfl, hu'⟩ := readUnsigned_eq_some hu
    exact ⟨rfl, .negative hu'⟩
  · obtain ⟨rfl, hu⟩ := readUnsigned_eq_some h
    exact ⟨rfl, .positive hu⟩

/-! ## values -/

/-- The characters that spell a text, with its quotes. -/
inductive TextSpelt : Option String → List Char → Prop where
  | quoted {body : List Char} {us : List Nat} (h : UnitsSpelt body us) :
    TextSpelt ((pairUnits? us).map String.ofList) ('"' :: body ++ ['"'])

/-- The characters that spell some things in a row, with blanks around them and commas in between. -/
inductive Row {α : Type} (P : α → List Char → Prop) : List α → List Char → Prop where
  | last {b body b' : List Char} {a : α} (hb : Blanks b) (h : P a body) (hb' : Blanks b') :
    Row P [a] (b ++ body ++ b')
  | more {b body b' others : List Char} {a : α} {as : List α} (hb : Blanks b) (h : P a body)
      (hb' : Blanks b') (rest : Row P as others) : Row P (a :: as) (b ++ body ++ b' ++ ',' :: others)

mutual
/-- The characters that spell a value, without blanks around it. -/
inductive Spelt : Json → List Char → Prop where
  | null : Spelt .null ['n', 'u', 'l', 'l']
  | yes : Spelt (.bool true) ['t', 'r', 'u', 'e']
  | no : Spelt (.bool false) ['f', 'a', 'l', 's', 'e']
  | number {numeral : List Char} (h : IsNumeral numeral) : Spelt (.number numeral) numeral
  | text {value : Option String} {body : List Char} (h : TextSpelt value body) :
    Spelt (.text value) body
  | nil {b : List Char} (hb : Blanks b) : Spelt (.list []) ('[' :: b ++ [']'])
  | list {items : List Json} {body : List Char} (h : Row Spelt items body) :
    Spelt (.list items) ('[' :: body ++ [']'])
  | empty {b : List Char} (hb : Blanks b) : Spelt (.record []) ('\x7b' :: b ++ ['\x7d'])
  | record {fields : List (Option String × Json)} {body : List Char} (h : Row FieldSpelt fields body) :
    Spelt (.record fields) ('\x7b' :: body ++ ['\x7d'])
/-- The characters that spell the name and the value of a field. -/
inductive FieldSpelt : Option String × Json → List Char → Prop where
  | field {name : Option String} {v : Json} {text b b' body : List Char} (hname : TextSpelt name text)
      (hb : Blanks b) (hb' : Blanks b') (h : Spelt v body) :
    FieldSpelt (name, v) (text ++ b ++ ':' :: b' ++ body)
end

theorem Blanks.append {b b' : List Char} (hb : Blanks b) (hb' : Blanks b') : Blanks (b ++ b') :=
  fun c hc => (List.mem_append.mp hc).elim (hb c) (hb' c)

theorem Row.blanks {α : Type} {P : α → List Char → Prop} {as : List α} {b body : List Char}
    (h : Row P as body) (hb : Blanks b) : Row P as (b ++ body) := by
  cases h with
  | last hb₁ h hb₂ =>
    rw [← List.append_assoc, ← List.append_assoc]
    exact .last (hb.append hb₁) h hb₂
  | more hb₁ h hb₂ rest =>
    rw [← List.append_assoc, ← List.append_assoc, ← List.append_assoc]
    exact .more (hb.append hb₁) h hb₂ rest

/-! ## every spelling is read -/

theorem stops_blanks {b cs : List Char} (hb : Blanks b) (h : Stops cs) : Stops (b ++ cs) := by
  intro c hc
  cases b with
  | nil => exact h c hc
  | cons c' b =>
    cases hc
    have hspace := hb c List.mem_cons_self
    simp only [isSpace, Bool.or_eq_true, decide_eq_true_eq] at hspace
    rcases hspace with ((rfl | rfl) | rfl) | rfl <;> exact ⟨rfl, by decide⟩

theorem stops_of_mem {c : Char} (cs : List Char) (h : c = ',' ∨ c = ']' ∨ c = '\x7d') :
    Stops (c :: cs) := by
  intro c' hc
  cases hc
  rcases h with rfl | rfl | rfl <;> exact ⟨rfl, by decide⟩

theorem IsNumeral.head {cs : List Char} (h : IsNumeral cs) :
    ∃ c rest, cs = c :: rest ∧ (c = '-' ∨ (Text.digitValue? c).isSome) := by
  cases h with
  | positive h =>
    obtain ⟨hw, -, -⟩ := h
    cases hw with
    | zero => exact ⟨'0', _, rfl, .inr rfl⟩
    | digits h _ =>
      obtain ⟨d, ds, rfl⟩ := List.exists_cons_of_ne_nil h.ne_nil
      exact ⟨d, _, rfl, .inr (h.digit d List.mem_cons_self)⟩
  | negative h => exact ⟨'-', _, rfl, .inl rfl⟩

theorem not_isSpace_of_digit {c : Char} (h : c = '-' ∨ (Text.digitValue? c).isSome) :
    isSpace c = false ∧ c ≠ 'n' ∧ c ≠ 't' ∧ c ≠ 'f' ∧ c ≠ '"' ∧ c ≠ '[' ∧ c ≠ '\x7b' ∧
      c ≠ ']' := by
  refine ⟨?_, ?_, ?_, ?_, ?_, ?_, ?_, ?_⟩
  · rw [Bool.eq_false_iff]
    intro hspace
    simp only [isSpace, Bool.or_eq_true, decide_eq_true_eq] at hspace
    rcases hspace with ((rfl | rfl) | rfl) | rfl <;> exact absurd h (by decide)
  all_goals
    rintro rfl
    exact absurd h (by decide)

theorem TextSpelt.head {value : Option String} {body : List Char} (h : TextSpelt value body) :
    ∃ cs, body = '"' :: cs := by
  obtain ⟨h⟩ := h
  exact ⟨_, rfl⟩

/-- no value begins with a blank or a closing bracket -/
theorem Spelt.head {v : Json} {body : List Char} (h : Spelt v body) :
    ∃ c cs, body = c :: cs ∧ isSpace c = false ∧ c ≠ ']' := by
  cases h with
  | number h =>
    obtain ⟨c, cs, rfl, hc⟩ := h.head
    obtain ⟨hspace, -, -, -, -, -, -, hne⟩ := not_isSpace_of_digit hc
    exact ⟨c, cs, rfl, hspace, hne⟩
  | text h =>
    obtain ⟨cs, rfl⟩ := h.head
    exact ⟨_, _, rfl, rfl, by decide⟩
  | _ => exact ⟨_, _, rfl, rfl, by decide⟩

theorem readText_append {value : Option String} {body : List Char} (h : TextSpelt value body)
    (rest : List Char) :
    ∃ cs, body ++ rest = '"' :: cs ∧ readText cs = some (value, rest) := by
  obtain @⟨body, us, h⟩ := h
  have hread : readUnits (body ++ '"' :: rest) = some (us, rest) :=
    readUnits_eq_some_iff.mpr ⟨body, rfl, h⟩
  refine ⟨body ++ '"' :: rest, by simp, ?_⟩
  rw [readText, hread]
  rfl

theorem readValue_skipSpace (steps : Nat) (cs : List Char) :
    readValue steps (skipSpace cs) = readValue steps cs := by
  have hskip : skipSpace (skipSpace cs) = skipSpace cs := List.dropWhile_idempotent ..
  cases steps with
  | zero => rfl
  | succ steps => rw [readValue, readValue, hskip]

theorem readItems_skipSpace (steps : Nat) (cs : List Char) :
    readItems steps (skipSpace cs) = readItems steps cs := by
  cases steps with
  | zero => rfl
  | succ steps => rw [readItems, readItems, readValue_skipSpace]

theorem readFields_skipSpace (steps : Nat) (cs : List Char) :
    readFields steps (skipSpace cs) = readFields steps cs := by
  have hskip : skipSpace (skipSpace cs) = skipSpace cs := List.dropWhile_idempotent ..
  cases steps with
  | zero => rfl
  | succ steps => rw [readFields, readFields, hskip]

theorem FieldSpelt.head {f : Option String × Json} {body : List Char} (h : FieldSpelt f body) :
    ∃ c cs, body = c :: cs ∧ isSpace c = false ∧ c ≠ '\x7d' := by
  obtain ⟨hname, -, -, -⟩ := h
  obtain ⟨cs, rfl⟩ := hname.head
  exact ⟨_, _, rfl, rfl, by decide⟩

/-- a row begins with what its first member begins with, blanks aside -/
theorem Row.head {α : Type} {P : α → List Char → Prop} {close : Char} {as : List α} {body : List Char}
    (hP : ∀ a cs, P a cs → ∃ c cs', cs = c :: cs' ∧ isSpace c = false ∧ c ≠ close)
    (h : Row P as body) (rest : List Char) :
    ∃ c cs, skipSpace (body ++ rest) = c :: cs ∧ c ≠ close := by
  have hfirst : ∃ b a cs cs', body ++ rest = b ++ (cs ++ cs') ∧ Blanks b ∧ P a cs := by
    cases h with
    | @last b cs b' a hb h hb' => exact ⟨b, a, cs, b' ++ rest, by simp, hb, h⟩
    | @more b cs b' others a as hb h hb' _ =>
      exact ⟨b, a, cs, b' ++ ',' :: others ++ rest, by simp, hb, h⟩
  obtain ⟨b, a, cs, cs', he, hb, ha⟩ := hfirst
  obtain ⟨c, cs, rfl, hc, hne⟩ := hP a cs ha
  refine ⟨c, cs ++ cs', ?_, hne⟩
  rw [he, skipSpace_append hb]
  · rfl
  · intro c' hc'
    cases hc'
    exact hc

/-- every value of at most so many characters is read in so many steps -/
def ReadsValues (steps : Nat) : Prop :=
  ∀ (v : Json) (body rest : List Char), Spelt v body → Stops rest → body.length ≤ steps →
    readValue steps (body ++ rest) = some (v, rest)

def ReadsItems (steps : Nat) : Prop :=
  ∀ (vs : List Json) (body rest : List Char), Row Spelt vs body → body.length < steps →
    readItems steps (body ++ ']' :: rest) = some (vs, rest)

def ReadsFields (steps : Nat) : Prop :=
  ∀ (fs : List (Option String × Json)) (body rest : List Char), Row FieldSpelt fs body →
    body.length < steps → readFields steps (body ++ '\x7d' :: rest) = some (fs, rest)

theorem Spelt.skipSpace {v : Json} {b body rest : List Char} (hb : Blanks b) (h : Spelt v body) :
    skipSpace (b ++ (body ++ rest)) = body ++ rest := by
  obtain ⟨c, cs, rfl, hc, -⟩ := h.head
  apply skipSpace_append hb
  intro c' hc'
  cases hc'
  exact hc

/-- blanks in front of a value do not matter -/
theorem ReadsValues.blanks {steps : Nat} (hv : ReadsValues steps) {v : Json} {b body rest : List Char}
    (hb : Blanks b) (h : Spelt v body) (hrest : Stops rest) (hlength : body.length ≤ steps) :
    readValue steps (b ++ (body ++ rest)) = some (v, rest) := by
  rw [← readValue_skipSpace, h.skipSpace hb]
  exact hv v body rest h hrest hlength

theorem ReadsItems.succ {steps : Nat} (hv : ReadsValues steps) (hi : ReadsItems steps) :
    ReadsItems (steps + 1) := by
  intro vs body rest h hlength
  cases h with
  | @last b body b' v hb h hb' =>
    simp only [List.length_append] at hlength
    have hstop : Stops (b' ++ ']' :: rest) := stops_blanks hb' (stops_of_mem rest (.inr (.inl rfl)))
    have hskip : skipSpace (b' ++ ']' :: rest) = ']' :: rest :=
      skipSpace_append hb' fun c hc => by cases hc; rfl
    rw [readItems, List.append_assoc, List.append_assoc, hv.blanks hb h hstop (by omega)]
    simp [hskip]
  | @more b body b' others v vs hb h hb' hothers =>
    simp only [List.length_append, List.length_cons] at hlength
    have hstop : Stops (b' ++ ',' :: (others ++ ']' :: rest)) :=
      stops_blanks hb' (stops_of_mem _ (.inl rfl))
    have hskip : skipSpace (b' ++ ',' :: (others ++ ']' :: rest)) = ',' :: (others ++ ']' :: rest) :=
      skipSpace_append hb' fun c hc => by cases hc; rfl
    rw [readItems, List.append_assoc, List.append_assoc, List.append_assoc, List.cons_append,
      hv.blanks hb h hstop (by omega)]
    simp [hskip, hi vs others rest hothers (by omega)]

/-- one field is read, and what follows it says whether there are more -/
theorem ReadsValues.readFields {steps : Nat} (hv : ReadsValues steps) {f : Option String × Json}
    {b body rest : List Char} (hb : Blanks b) (h : FieldSpelt f body) (hrest : Stops rest)
    (hlength : body.length ≤ steps) :
    readFields (steps + 1) (b ++ (body ++ rest)) =
      match skipSpace rest with
      | '\x7d' :: rest => some ([f], rest)
      | ',' :: rest => (readFields steps rest).bind fun (fs, rest) => some (f :: fs, rest)
      | _ => none := by
  obtain @⟨name, v, text, b₁, b₂, body, hname, hb₁, hb₂, h⟩ := h
  simp only [List.length_append, List.length_cons] at hlength
  obtain ⟨cs, hcs, htext⟩ := readText_append hname (b₁ ++ ':' :: (b₂ ++ (body ++ rest)))
  have hname : skipSpace (b ++ (text ++ b₁ ++ ':' :: b₂ ++ body ++ rest)) = '"' :: cs := by
    have : text ++ b₁ ++ ':' :: b₂ ++ body ++ rest = '"' :: cs := by simp [← hcs]
    rw [this]
    exact skipSpace_append hb fun c hc => by cases hc; rfl
  have hcolon : skipSpace (b₁ ++ ':' :: (b₂ ++ (body ++ rest))) = ':' :: (b₂ ++ (body ++ rest)) :=
    skipSpace_append hb₁ fun c hc => by cases hc; rfl
  rw [Json.readFields, hname]
  simp only [htext, Option.bind_eq_bind, Option.bind_some, hcolon,
    hv.blanks hb₂ h hrest (by omega)]
  rfl

theorem ReadsFields.succ {steps : Nat} (hv : ReadsValues steps) (hf : ReadsFields steps) :
    ReadsFields (steps + 1) := by
  intro fs body rest h hlength
  cases h with
  | @last b body b' f hb h hb' =>
    simp only [List.length_append] at hlength
    have hstop : Stops (b' ++ '\x7d' :: rest) := stops_blanks hb' (stops_of_mem rest (.inr (.inr rfl)))
    have hskip : skipSpace (b' ++ '\x7d' :: rest) = '\x7d' :: rest :=
      skipSpace_append hb' fun c hc => by cases hc; rfl
    rw [List.append_assoc, List.append_assoc, hv.readFields hb h hstop (by omega), hskip]
    rfl
  | @more b body b' others f fs hb h hb' hothers =>
    simp only [List.length_append, List.length_cons] at hlength
    have hstop : Stops (b' ++ ',' :: (others ++ '\x7d' :: rest)) :=
      stops_blanks hb' (stops_of_mem _ (.inl rfl))
    have hskip : skipSpace (b' ++ ',' :: (others ++ '\x7d' :: rest)) =
        ',' :: (others ++ '\x7d' :: rest) :=
      skipSpace_append hb' fun c hc => by cases hc; rfl
    rw [List.append_assoc, List.append_assoc, List.append_assoc, List.cons_append,
      hv.readFields hb h hstop (by omega), hskip]
    simp [hf fs others rest hothers (by omega)]

/-- Everything that is spelt is read, given as many steps as it has characters. -/
theorem reads_spelt (steps : Nat) : ReadsValues steps ∧ ReadsItems steps ∧ ReadsFields steps := by
  -- a row needs one step more than its characters, and has two brackets around it to pay for that
  induction steps with
  | zero =>
    refine ⟨?_, fun _ _ _ _ h => absurd h (Nat.not_lt_zero _),
      fun _ _ _ _ h => absurd h (Nat.not_lt_zero _)⟩
    intro v body rest h _ hlength
    obtain ⟨c, cs, rfl, -, -⟩ := h.head
    exact absurd hlength (Nat.not_succ_le_zero _)
  | succ steps ih =>
    obtain ⟨hv, hi, hf⟩ := ih
    refine ⟨?_, .succ hv hi, .succ hv hf⟩
    intro v body rest h hrest hlength
    have hskip : Json.skipSpace (body ++ rest) = body ++ rest := h.skipSpace blanks_nil
    rw [readValue, hskip]
    cases h with
    | null => rfl
    | yes => rfl
    | no => rfl
    | number h =>
      have hread := readNumeral_append h hrest
      obtain ⟨c, cs, rfl, hc⟩ := h.head
      obtain ⟨-, hn, ht, hf, hq, hl, hr, -⟩ := not_isSpace_of_digit hc
      rw [List.cons_append] at hread
      simp [hread, hn, ht, hf, hq, hl, hr]
    | text h =>
      obtain ⟨cs, hcs, hread⟩ := readText_append h rest
      rw [hcs]
      simp [hread]
    | @nil b hb =>
      have hclose : Json.skipSpace (b ++ ']' :: rest) = ']' :: rest :=
        skipSpace_append hb fun c hc => by cases hc; rfl
      simp [hclose]
    | @list items body h =>
      simp only [List.length_append, List.length_cons, List.length_nil] at hlength
      have hread := hi items body rest h (by omega)
      obtain ⟨c, cs, hopen, hne⟩ := h.head (fun _ _ => Spelt.head) (']' :: rest)
      rw [← readItems_skipSpace, hopen] at hread
      simp [hopen, hread, hne]
    | @empty b hb =>
      have hclose : Json.skipSpace (b ++ '\x7d' :: rest) = '\x7d' :: rest :=
        skipSpace_append hb fun c hc => by cases hc; rfl
      simp [hclose]
    | @record fields body h =>
      simp only [List.length_append, List.length_cons, List.length_nil] at hlength
      have hread := hf fields body rest h (by omega)
      obtain ⟨c, cs, hopen, hne⟩ := h.head (fun _ _ => FieldSpelt.head) ('\x7d' :: rest)
      rw [← readFields_skipSpace, hopen] at hread
      simp [hopen, hread, hne]

/-! ## what is read was spelt -/

theorem readText_eq_some {cs : List Char} {value : Option String} {rest : List Char}
    (h : readText cs = some (value, rest)) :
    ∃ body, '"' :: cs = body ++ rest ∧ TextSpelt value body := by
  obtain ⟨⟨us, rest'⟩, hus, h⟩ := Option.map_eq_some_iff.mp h
  cases h
  obtain ⟨body, rfl, hbody⟩ := readUnits_eq_some_iff.mp hus
  exact ⟨_, by simp, .quoted hbody⟩

/-- what is read as a value in so many steps was spelt, behind blanks -/
def ValuesAreSpelt (steps : Nat) : Prop :=
  ∀ (cs : List Char) (v : Json) (rest : List Char), readValue steps cs = some (v, rest) →
    ∃ b body, cs = b ++ body ++ rest ∧ Blanks b ∧ Spelt v body

def ItemsAreSpelt (steps : Nat) : Prop :=
  ∀ (cs : List Char) (vs : List Json) (rest : List Char), readItems steps cs = some (vs, rest) →
    ∃ body, cs = body ++ ']' :: rest ∧ Row Spelt vs body

def FieldsAreSpelt (steps : Nat) : Prop :=
  ∀ (cs : List Char) (fs : List (Option String × Json)) (rest : List Char),
    readFields steps cs = some (fs, rest) →
    ∃ body, cs = body ++ '\x7d' :: rest ∧ Row FieldSpelt fs body

theorem ItemsAreSpelt.succ {steps : Nat} (hv : ValuesAreSpelt steps) (hi : ItemsAreSpelt steps) :
    ItemsAreSpelt (steps + 1) := by
  intro cs vs rest h
  simp only [readItems, Option.bind_eq_bind, Option.bind_eq_some_iff] at h
  obtain ⟨⟨v, rest₁⟩, hread, h⟩ := h
  obtain ⟨b, body, rfl, hb, hbody⟩ := hv _ _ _ hread
  obtain ⟨b', hb', hrest⟩ := exists_skipSpace rest₁
  split at h
  · next he =>
    cases h
    rw [hrest, he]
    exact ⟨b ++ body ++ b', by simp, .last hb hbody hb'⟩
  · next he =>
    simp only [Option.bind_eq_some_iff] at h
    obtain ⟨⟨others, rest₂⟩, hothers, h⟩ := h
    cases h
    obtain ⟨body', rfl, hrow⟩ := hi _ _ _ hothers
    rw [hrest, he]
    exact ⟨b ++ body ++ b' ++ ',' :: body', by simp, .more hb hbody hb' hrow⟩
  · cases h

theorem FieldsAreSpelt.succ {steps : Nat} (hv : ValuesAreSpelt steps) (hf : FieldsAreSpelt steps) :
    FieldsAreSpelt (steps + 1) := by
  intro cs fs rest h
  obtain ⟨b, hb, hcs⟩ := exists_skipSpace cs
  rw [readFields] at h
  split at h
  · next he =>
    simp only [Option.bind_eq_bind, Option.bind_eq_some_iff] at h
    obtain ⟨⟨name, rest₁⟩, hname, h⟩ := h
    obtain ⟨text, htext, hname⟩ := readText_eq_some hname
    obtain ⟨b₁, hb₁, hrest₁⟩ := exists_skipSpace rest₁
    split at h
    · next he₁ =>
      simp only [Option.bind_eq_some_iff] at h
      obtain ⟨⟨v, rest₂⟩, hread, h⟩ := h
      obtain ⟨b₂, body, rfl, hb₂, hbody⟩ := hv _ _ _ hread
      obtain ⟨b', hb', hrest₂⟩ := exists_skipSpace rest₂
      have hfield := FieldSpelt.field hname hb₁ hb₂ hbody
      rw [hcs, he, htext, hrest₁, he₁]
      split at h
      · next he₂ =>
        cases h
        rw [hrest₂, he₂]
        exact ⟨_, by simp, .last hb hfield hb'⟩
      · next he₂ =>
        simp only [Option.bind_eq_some_iff] at h
        obtain ⟨⟨others, rest₃⟩, hothers, h⟩ := h
        cases h
        obtain ⟨body', rfl, hrow⟩ := hf _ _ _ hothers
        rw [hrest₂, he₂]
        exact ⟨_, by simp, .more hb hfield hb' hrow⟩
      · cases h
    · cases h
  · cases h

theorem ValuesAreSpelt.succ {steps : Nat} (hi : ItemsAreSpelt steps) (hf : FieldsAreSpelt steps) :
    ValuesAreSpelt (steps + 1) := by
  intro cs v rest h
  obtain ⟨b, hb, hcs⟩ := exists_skipSpace cs
  rw [readValue] at h
  rw [hcs]
  suffices hbody : ∃ body, skipSpace cs = body ++ rest ∧ Spelt v body by
    obtain ⟨body, he, hbody⟩ := hbody
    exact ⟨b, body, by rw [he, List.append_assoc], hb, hbody⟩
  split at h
  · next he =>
    cases h
    exact ⟨_, he, .null⟩
  · next he =>
    cases h
    exact ⟨_, he, .yes⟩
  · next he =>
    cases h
    exact ⟨_, he, .no⟩
  · next he =>
    obtain ⟨⟨value, rest'⟩, hread, h⟩ := Option.map_eq_some_iff.mp h
    cases h
    obtain ⟨body, hbody, htext⟩ := readText_eq_some hread
    exact ⟨body, by rw [he, hbody], .text htext⟩
  · next rest₁ he =>
    obtain ⟨b', hb', hrest₁⟩ := exists_skipSpace rest₁
    split at h
    · next he₁ =>
      cases h
      exact ⟨'[' :: b' ++ [']'], by rw [he, hrest₁, he₁]; simp, .nil hb'⟩
    · -- the blanks that were skipped belong to the row
      obtain ⟨⟨items, rest'⟩, hread, h⟩ := Option.map_eq_some_iff.mp h
      cases h
      obtain ⟨body, hbody, hrow⟩ := hi _ _ _ hread
      exact ⟨'[' :: (b' ++ body) ++ [']'], by rw [he, hrest₁, hbody]; simp, .list (hrow.blanks hb')⟩
  · next rest₁ he =>
    obtain ⟨b', hb', hrest₁⟩ := exists_skipSpace rest₁
    split at h
    · next he₁ =>
      cases h
      exact ⟨'\x7b' :: b' ++ ['\x7d'], by rw [he, hrest₁, he₁]; simp, .empty hb'⟩
    · obtain ⟨⟨fields, rest'⟩, hread, h⟩ := Option.map_eq_some_iff.mp h
      cases h
      obtain ⟨body, hbody, hrow⟩ := hf _ _ _ hread
      exact ⟨'\x7b' :: (b' ++ body) ++ ['\x7d'], by rw [he, hrest₁, hbody]; simp,
        .record (hrow.blanks hb')⟩
  · obtain ⟨⟨numeral, rest'⟩, hread, h⟩ := Option.map_eq_some_iff.mp h
    cases h
    obtain ⟨he, hnumeral⟩ := readNumeral_eq_some hread
    exact ⟨numeral, he, .number hnumeral⟩

theorem spelt_of_read (steps : Nat) :
    ValuesAreSpelt steps ∧ ItemsAreSpelt steps ∧ FieldsAreSpelt steps := by
  induction steps with
  | zero => exact ⟨nofun, nofun, nofun⟩
  | succ steps ih =>
    obtain ⟨hv, hi, hf⟩ := ih
    exact ⟨.succ hi hf, .succ hv hi, .succ hv hf⟩

/-! ## texts -/

/-- The text spells the value, with blanks around it. -/
def SpeltBy (text : String) (v : Json) : Prop :=
  ∃ b body b', text.toList = b ++ body ++ b' ∧ Blanks b ∧ Spelt v body ∧ Blanks b'

/-- A text is read as the value that it spells, and not at all if it spells none. -/
theorem parse?_eq_some_iff {text : String} {v : Json} : parse? text = some v ↔ SpeltBy text v := by
  constructor
  · intro h
    simp only [parse?] at h
    split at h
    · next v' rest hread =>
      split at h
      · next hrest =>
        cases h
        obtain ⟨b, body, he, hb, hbody⟩ := (spelt_of_read _).1 _ _ _ hread
        refine ⟨b, body, rest, he, hb, hbody, ?_⟩
        exact List.dropWhile_eq_nil_iff.mp (List.isEmpty_iff.mp hrest)
      · cases h
    · cases h
  · rintro ⟨b, body, b', he, hb, hbody, hb'⟩
    have hstop : Stops b' := by
      rw [← List.append_nil b']
      exact stops_blanks hb' nofun
    have hread := (reads_spelt (text.toList.length + 1)).1.blanks hb hbody hstop
      (by rw [he]; simp only [List.length_append]; omega)
    rw [← List.append_assoc, ← he] at hread
    simp [parse?, hread, skipSpace_blanks hb']

end DiskLayers.Json
