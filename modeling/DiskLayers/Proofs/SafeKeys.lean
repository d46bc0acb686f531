import DiskLayers.Proofs.Reading
import DiskLayers.Proofs.Scripts

/-!
# Keys are safe names

Keys become file names, whatever the references and the commands of a script are.

* `IsShortHash`   twenty hexadecimal digits in lower case

A valid name is left as it is by trimming and by what makes a name of a reference, so that the key of a
valid name is that name (`base?_of_valid`); a key that was made of a reference is one of these.
-/

namespace DiskLayers
open DiskLayers.Text

/-! ## blanks around a text -/

namespace Text

theorem trimBlank_eq_nil_iff {cs : List Char} : trimBlank cs = [] ↔ ∀ c ∈ cs, isBlank c = true := by
  constructor
  · intro h
    obtain ⟨⟨front, back, rfl, hblank⟩, -, -⟩ := trims_iff.mpr h.symm
    rwa [List.append_nil]
  · intro h
    exact (trims_iff.mp ⟨⟨cs, [], by simp, by simpa using h⟩, by simp, by simp⟩).symm

theorem trimBlank_eq_self {cs : List Char} (h : ∀ c ∈ cs, isBlank c = false) : trimBlank cs = cs :=
  (trims_iff.mp ⟨⟨[], [], by simp, nofun⟩, fun c hc => h c (List.mem_of_head? hc),
    fun c hc => h c (List.mem_of_getLast? hc)⟩).symm

theorem trimBlank_append_blanks {front back : List Char} (cs : List Char)
    (hf : ∀ c ∈ front, isBlank c = true) (hb : ∀ c ∈ back, isBlank c = true) :
    trimBlank (front ++ cs ++ back) = trimBlank cs := by
  obtain ⟨ds, hds⟩ : ∃ ds, ds = trimBlank cs := ⟨_, rfl⟩
  obtain ⟨⟨front', back', rfl, hblank⟩, hfirst, hlast⟩ := trims_iff.mpr hds
  rw [← hds]
  refine (trims_iff.mp ⟨⟨front ++ front', back' ++ back, by simp, fun c hc => ?_⟩, hfirst, hlast⟩).symm
  simp only [List.mem_append] at hc hblank
  rcases hc with (hc | hc) | hc | hc
  · exact hf c hc
  · exact hblank c (Or.inl hc)
  · exact hblank c (Or.inr hc)
  · exact hb c hc

end Text

/-! ## digits -/

def IsShortHash (name : String) : Prop :=
  name.length = 20 ∧ ∀ c ∈ name.toList, ('0' ≤ c ∧ c ≤ '9') ∨ ('a' ≤ c ∧ c ≤ 'f')

instance (name : String) : Decidable (IsShortHash name) := instDecidableAnd

theorem Identity.isDigest_iff {key : Identity} : key.isDigest = true ↔ IsShortHash key.name := by
  simp only [isDigest, IsShortHash, isLowerHex, hashLength, String.length_toList, Bool.and_eq_true,
    Bool.or_eq_true, decide_eq_true_eq, List.all_eq_true]

/-! ## keys of references -/

namespace Identity
variable {name reference : String} {key : Identity}

theorem length_nameChars (cs : List Char) : (nameChars cs).length = cs.length := by
  have hmap : (cs.map nameChar).length = cs.length := List.length_map _
  rw [← hmap, nameChars]
  split
  · next rest h => rw [h, List.length_cons, List.length_cons]
  · rfl

theorem nameChars_of_valid (h : isValidName name = true) : nameChars name.toList = name.toList := by
  have hmap : name.toList.map nameChar = name.toList :=
    (List.map_congr_left fun c hc => if_pos (isNameChar_of_valid h hc)).trans (List.map_id _)
  rw [nameChars, hmap]
  split
  · next rest hdot =>
    rw [isValidName, hdot] at h
    simp at h
  · rfl

/-- a reference that is a valid name is its own key -/
theorem base?_of_valid (h : isValidName name = true) : base? name = some ⟨name⟩ := by
  rw [base?, trimBlank_eq_self fun c hc => isBlank_of_isNameChar (isNameChar_of_valid h hc)]
  rw [if_neg (valid_ne_nil h), nameChars_of_valid h, String.ofList_toList]

theorem base?_eq_none_iff : base? reference = none ↔ isAllBlank reference = true := by
  rw [base?, isAllBlank, List.all_eq_true, ← trimBlank_eq_nil_iff]
  split
  · next h => exact iff_of_true rfl h
  · next h => exact iff_of_false (by simp) h

theorem base?_congr {reference' : String} (h : trimBlank reference.toList = trimBlank reference'.toList) :
    base? reference = base? reference' := by
  rw [base?, base?, h]

theorem length_base? (h : base? reference = some key) : key.name.length = (trim reference).length := by
  rw [base?] at h
  split at h
  · cases h
  · cases h
    rw [String.length_ofList, length_nameChars, trim, String.length_ofList]

theorem base?_trim (reference : String) : base? (trim reference) = base? reference := by
  refine base?_congr ?_
  rw [trim, String.toList_ofList]
  obtain ⟨-, hfirst, hlast⟩ := (@trims_iff reference.toList _).mpr rfl
  exact (trims_iff.mp ⟨⟨[], [], by simp, nofun⟩, hfirst, hlast⟩).symm

end Identity

/-- Only a blank reference has no key.  Any other one has a valid name for its key, as long as the reference
without the blanks around it, and equal to that if it is a valid name; blanks around a reference make no
difference, and the key of a key is that key.  The key that an operation makes above any name is twenty
hexadecimal digits.  So all keys of a plan are valid names. -/
theorem keys_are_safe_names :
    (∀ reference, (Identity.base? reference = none ↔ ∀ c ∈ reference.toList, isBlank c = true) ∧
      ∀ key, Identity.base? reference = some key → isValidName key.name = true ∧
        key.name.length = (trim reference).length ∧
        (isValidName (trim reference) = true → key.name = trim reference) ∧
        Identity.base? key.name = some key) ∧
      (∀ before reference behind, isAllBlank before = true → isAllBlank behind = true →
        Identity.base? (before ++ reference ++ behind) = Identity.base? reference) ∧
      (∀ (parent : String) (op : Operation), IsShortHash ((⟨parent⟩ : Identity).derive op).name ∧
        ((⟨parent⟩ : Identity).derive op).isDigest = true ∧
        isValidName ((⟨parent⟩ : Identity).derive op).name = true) ∧
      ∀ (s : Store) (fs : FileSystem) (ops : List Operation) (steps : List PlannedStep),
        plan s fs ops = .ok steps → ∀ p ∈ steps, isValidName p.identity.name = true := by
  refine ⟨fun reference => ⟨?_, fun key hkey => ?_⟩, fun before reference behind hbefore hbehind => ?_,
    fun parent op => ?_, fun s fs ops steps hplan p hp => ?_⟩
  · rw [Identity.base?_eq_none_iff, isAllBlank, List.all_eq_true]
  · have hv := isValidName_base? hkey
    refine ⟨hv, Identity.length_base? hkey, fun htrim => ?_, Identity.base?_of_valid hv⟩
    rw [← Identity.base?_trim, Identity.base?_of_valid htrim] at hkey
    cases hkey
    rfl
  · refine Identity.base?_congr ?_
    rw [String.toList_append, String.toList_append]
    exact trimBlank_append_blanks _ (List.all_eq_true.mp hbefore) (List.all_eq_true.mp hbehind)
  · have hdigest := Identity.isDigest_derive ⟨parent⟩ op
    exact ⟨Identity.isDigest_iff.mp hdigest, hdigest, isValidName_of_isDigest hdigest⟩
  · rw [plan_eq] at hplan
    split at hplan
    · cases hplan
    · exact isValidName_of_mem_keysFrom (keysFrom_of_planFrom hplan ▸ List.mem_map_of_mem hp)

/-- A reference that would climb out of the directory, with blanks of two kinds around it and a letter of two
bytes in it: the first dot is replaced, too, and both keys of the script are valid names. -/
theorem keys_are_safe_names_climbing :
    Identity.base? "\u3000../é:23\t" = Identity.base? "../é:23" ∧
      Identity.base? "../é:23" = some ⟨"-.---23"⟩ ∧ "-.---23".length = (trim "../é:23").length ∧
      Identity.base? "-.---23" = some ⟨"-.---23"⟩ ∧
      ∃ steps, plan ⟨⟨"/"⟩⟩ {} [.base "../é:23", .mutate "x"] = .ok steps ∧ steps.length = 2 ∧
        ∀ p ∈ steps, isValidName p.identity.name = true := by
  obtain ⟨hbase, hblanks, -, hplan⟩ := keys_are_safe_names
  have hkey : Identity.base? "../é:23" = some ⟨"-.---23"⟩ := by decide +kernel
  obtain ⟨-, hlength, -, hfixed⟩ := (hbase _).2 _ hkey
  have haround := hblanks "\u3000" "../é:23" "\t" (by decide +kernel) (by decide +kernel)
  refine ⟨haround, hkey, hlength, hfixed, ?_⟩
  cases hsteps : plan ⟨⟨"/"⟩⟩ {} [.base "../é:23", .mutate "x"] with
  | error e =>
    have hok : (plan ⟨⟨"/"⟩⟩ {} [.base "../é:23", .mutate "x"]).toBool = true := by decide +kernel
    rw [hsteps] at hok
    cases hok
  | ok steps =>
    have hlen : (plan ⟨⟨"/"⟩⟩ {} [.base "../é:23", .mutate "x"]).toOption.map List.length = some 2 := by
      decide +kernel
    rw [hsteps] at hlen
    exact ⟨steps, rfl, Option.some.inj hlen, hplan _ _ _ _ hsteps⟩

end DiskLayers
