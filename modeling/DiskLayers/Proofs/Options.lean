import DiskLayers.Tool.Toolchain
import Mathlib

/-!
# Lists of options

The tools of the host take several options in one argument.  A single comma separates them, and a doubled
one, read from left to right, is a comma of a value.

* `splitOptions`      the options of an argument, as a tool cuts them apart
* `readOption`        an option: its name, and its value if it has one
* `readOptions`       the options of an argument, one after the other
* `writeOptions`      options with their values escaped
* `IsOptionName`      a name that holds neither a comma nor an equals sign

The commas of an escaped value are read in pairs, so that the comma behind it never counts as one of
theirs, however many there are (`splitOptions_escaped`).  Hence what is written is read back
(`readOptions_writeOptions`), and with it the options of a machine.
-/

namespace DiskLayers

/-! ## reading -/

/-- characters in front of the first piece -/
def addFront (cs : List Char) : List (List Char) → List (List Char)
  | [] => [cs]
  | piece :: pieces => (cs ++ piece) :: pieces

/-- The options of an argument.  A comma behind a comma makes both of them one comma of a value, and
a comma on its own ends an option. -/
def splitOptions : List Char → List (List Char)
  | [] => [[]]
  | ',' :: ',' :: cs => addFront [','] (splitOptions cs)
  | c :: cs => if c = ',' then [] :: splitOptions cs else addFront [c] (splitOptions cs)

/-- the name of an option, and what stands behind its first equals sign -/
def readOption (piece : List Char) : String × Option String :=
  match Text.splitFirst '=' piece with
  | none => (String.ofList piece, none)
  | some (name, value) => (String.ofList name, some (String.ofList value))

def readOptions (argument : String) : List (String × Option String) :=
  (splitOptions argument.toList).map readOption

theorem addFront_addFront (cs ds : List Char) (pieces : List (List Char)) :
    addFront cs (addFront ds pieces) = addFront (cs ++ ds) pieces := by
  cases pieces with
  | nil => rfl
  | cons piece pieces => simp [addFront]

theorem splitOptions_nil : splitOptions [] = [[]] := rfl

theorem splitOptions_pair (cs : List Char) :
    splitOptions (',' :: ',' :: cs) = addFront [','] (splitOptions cs) := by rw [splitOptions]

theorem splitOptions_cons {c : Char} (hc : c ≠ ',') (cs : List Char) :
    splitOptions (c :: cs) = addFront [c] (splitOptions cs) := by
  rw [splitOptions]
  · exact if_neg hc
  · intro ds hds
    exact absurd hds hc

theorem splitOptions_comma {c : Char} (hc : c ≠ ',') (cs : List Char) :
    splitOptions (',' :: c :: cs) = [] :: splitOptions (c :: cs) := by
  rw [splitOptions]
  · exact if_pos rfl
  · intro ds _ hds
    exact hc (List.cons.inj hds).1

theorem addFront_nil_splitOptions (cs : List Char) : addFront [] (splitOptions cs) = splitOptions cs := by
  cases h : splitOptions cs with
  | cons piece pieces => rfl
  | nil =>
    unfold splitOptions addFront at h
    grind

/-! ## writing -/

def writeOptions (options : List (String × String)) : String :=
  ",".intercalate (options.map fun (name, value) => name ++ "=" ++ escapeOption value)

/-- A name that an option can have. -/
structure IsOptionName (name : String) : Prop where
  ne_nil : name.toList ≠ []
  no_comma : ',' ∉ name.toList
  no_equals : '=' ∉ name.toList

/-- the characters of a value, each comma doubled -/
def escaped (cs : List Char) : List Char := Text.replaceChar ',' [',', ','] cs

theorem escaped_comma (cs : List Char) : escaped (',' :: cs) = ',' :: ',' :: escaped cs := rfl

theorem escaped_cons {c : Char} (hc : c ≠ ',') (cs : List Char) :
    escaped (c :: cs) = c :: escaped cs := by
  unfold escaped Text.replaceChar
  rw [List.flatMap_cons, if_neg hc]
  rfl

/-- escaped characters belong to the first option, whatever follows them -/
theorem splitOptions_escaped (cs rest : List Char) :
    splitOptions (escaped cs ++ rest) = addFront cs (splitOptions rest) := by
  induction cs with
  | nil => exact (addFront_nil_splitOptions rest).symm
  | cons c cs ih =>
    by_cases hc : c = ','
    · subst hc
      show splitOptions (',' :: ',' :: (escaped cs ++ rest)) = _
      rw [splitOptions_pair, ih, addFront_addFront]
      rfl
    · rw [escaped_cons hc, List.cons_append, splitOptions_cons hc, ih, addFront_addFront]
      rfl

/-- so do characters among which there is no comma -/
theorem splitOptions_plain {cs : List Char} (h : ',' ∉ cs) (rest : List Char) :
    splitOptions (cs ++ rest) = addFront cs (splitOptions rest) := by
  have hsame : escaped cs = cs := by
    induction cs with
    | nil => rfl
    | cons c cs ih =>
      rw [escaped_cons (fun e => h (e ▸ List.mem_cons_self)), ih fun hm => h (List.mem_cons_of_mem _ hm)]
  have hread := splitOptions_escaped cs rest
  rw [hsame] at hread
  exact hread

/-! ## reading what was written -/

/-- the characters of an option, as it is written -/
def optionChars (option : String × String) : List Char :=
  option.1.toList ++ '=' :: escaped option.2.toList

section
variable {option : String × String} (h : IsOptionName option.1)
include h

theorem splitOptions_optionChars (rest : List Char) :
    splitOptions (optionChars option ++ rest) =
      addFront (option.1.toList ++ '=' :: option.2.toList) (splitOptions rest) := by
  have hequals : ',' ∉ ['='] := by decide
  unfold optionChars
  rw [List.append_assoc, splitOptions_plain h.no_comma]
  show addFront _ (splitOptions (['='] ++ (escaped option.2.toList ++ rest))) = _
  rw [splitOptions_plain hequals, splitOptions_escaped, addFront_addFront, addFront_addFront]
  simp

theorem readOption_of_name :
    readOption (option.1.toList ++ '=' :: option.2.toList) = (option.1, some option.2) := by
  unfold readOption
  rw [Text.splitFirst_append h.no_equals]
  simp

theorem splitOptions_comma_optionChars (rest : List Char) :
    splitOptions (',' :: (optionChars option ++ rest)) = [] :: splitOptions (optionChars option ++ rest) := by
  have hc := h.no_comma
  unfold optionChars
  cases hn : option.1.toList with
  | nil => exact absurd hn h.ne_nil
  | cons c cs =>
    rw [hn] at hc
    exact splitOptions_comma (fun e => hc (e ▸ List.mem_cons_self)) _

end

theorem toList_writeOptions (options : List (String × String)) :
    (writeOptions options).toList = [','].intercalate (options.map optionChars) := by
  unfold writeOptions
  rw [String.toList_intercalate, List.map_map]
  congr 1
  refine List.map_congr_left fun option _ => ?_
  simp [optionChars, escapeOption, escaped]

/-- what is written is read back, if there is an option at all -/
theorem readOptions_writeOptions {options : List (String × String)} (hne : options ≠ [])
    (h : ∀ option ∈ options, IsOptionName option.1) :
    readOptions (writeOptions options) = options.map fun (name, value) => (name, some value) := by
  unfold readOptions
  rw [toList_writeOptions]
  induction options with
  | nil => exact absurd rfl hne
  | cons option options ih =>
    have hname : IsOptionName option.1 := h _ List.mem_cons_self
    cases options with
    | nil =>
      show (splitOptions ([','].intercalate [optionChars option])).map readOption = _
      rw [List.intercalate_singleton, ← List.append_nil (optionChars option),
        splitOptions_optionChars hname]
      simp [splitOptions_nil, addFront, readOption_of_name hname]
    | cons next options =>
      have hrest := ih (List.cons_ne_nil _ _) fun o ho => h o (List.mem_cons_of_mem _ ho)
      have hnext : IsOptionName next.1 := h _ (List.mem_cons_of_mem _ List.mem_cons_self)
      -- the comma in between stands alone, since the next option begins with its name
      have hcomma : splitOptions (',' :: [','].intercalate ((next :: options).map optionChars)) =
          [] :: splitOptions ([','].intercalate ((next :: options).map optionChars)) := by
        cases options with
        | nil => simpa using splitOptions_comma_optionChars hnext []
        | cons other options =>
          simpa [List.intercalate_cons_cons] using splitOptions_comma_optionChars hnext _
      rw [List.map_cons, List.map_cons, List.intercalate_cons_cons, List.append_assoc,
        splitOptions_optionChars hname, ← List.map_cons]
      show (addFront _ (splitOptions (',' :: [','].intercalate ((next :: options).map optionChars)))).map
        readOption = _
      rw [hcomma]
      show readOption (_ ++ []) :: _ = _
      rw [List.append_nil, readOption_of_name hname, hrest]
      rfl

/-! ## the options of a machine -/

theorem diskOption_eq (disk : Path) :
    Toolchain.diskOption disk = writeOptions [("path", disk.text), ("format", diskFormat)] := by
  have hformat : escapeOption diskFormat = diskFormat := by decide
  have hpath : "path=" = "path" ++ "=" := by decide
  have hsecond : ",format=" = "," ++ ("format" ++ "=") := by decide
  show "path=" ++ escapeOption disk.text ++ ",format=" ++ diskFormat =
    "path" ++ "=" ++ escapeOption disk.text ++ "," ++ ("format" ++ "=" ++ escapeOption diskFormat)
  rw [hformat, hpath, hsecond]
  simp only [String.append_assoc]

theorem metadataOption_eq (description : String) :
    Toolchain.metadataOption description = writeOptions [("description", description)] := by
  have hname : "description=" = "description" ++ "=" := by decide
  unfold Toolchain.metadataOption writeOptions
  rw [hname]
  simp

/-- The options that a machine is created with are read as they are meant, whatever stands in the path of
its disk and in the notes about it. -/
theorem machine_options_read_back (disk : Path) (m : MachineSpec) :
    ∃ (diskArg : String) (notes : List String),
      (∀ {σ : Type} (t : Toolchain) (host : Host σ), t.perform host (.createMachine disk m) = do
        let _ ← runTool host t.virtInstall
          (["--name", m.name, "--memory", Text.showNat m.memoryMiB, "--vcpus", Text.showNat m.vcpus,
            "--disk", diskArg, "--import", "--noautoconsole", "--os-variant",
            "detect=on,require=off"] ++ notes) t.timeout) ∧
      readOptions diskArg = [("path", some disk.text), ("format", some "qcow2")] ∧
      (m.metadata = [] → notes = []) ∧
      (m.metadata ≠ [] → ∃ text notesArg, m.description = some text ∧ notes = ["--metadata", notesArg] ∧
        readOptions notesArg = [("description", some text)]) := by
  have hpath : IsOptionName "path" := ⟨by decide, by decide, by decide⟩
  have hformat : IsOptionName "format" := ⟨by decide, by decide, by decide⟩
  have hdescription : IsOptionName "description" := ⟨by decide, by decide, by decide⟩
  have hdisk : readOptions (Toolchain.diskOption disk) =
      [("path", some disk.text), ("format", some "qcow2")] := by
    rw [diskOption_eq, readOptions_writeOptions (by simp) (by simp [hpath, hformat])]
    rfl
  by_cases hm : m.metadata = []
  · have hnone : m.description = none := by
      unfold MachineSpec.description
      exact if_pos hm
    refine ⟨Toolchain.diskOption disk, [], ?_, hdisk, fun _ => rfl, fun h => absurd hm h⟩
    intro σ t host
    simp only [Toolchain.perform, Toolchain.createArgs, hnone]
  · obtain ⟨text, htext⟩ : ∃ text, m.description = some text := by
      unfold MachineSpec.description
      exact ⟨_, if_neg hm⟩
    refine ⟨Toolchain.diskOption disk, ["--metadata", Toolchain.metadataOption text], ?_, hdisk,
      fun h => absurd h hm, fun _ => ⟨text, _, htext, rfl, ?_⟩⟩
    · intro σ t host
      simp only [Toolchain.perform, Toolchain.createArgs, htext]
    · rw [metadataOption_eq, readOptions_writeOptions (by simp) (by simp [hdescription])]
      rfl

example : readOptions "path=,,a,,,,,format=qcow2" = [("path", some ",a,,"), ("format", some "qcow2")] := by
  decide

end DiskLayers
