import DiskLayers.Cli.Options
import DiskLayers.Duration.Reader
import DiskLayers.Machine.Spec
import DiskLayers.Path.Basic

/-!
# What the command line asks for

* `OutputFormat`   text or JSON
* `Verb`           what to do
* `CliRequest`     what to do, with which store, and how to tell the result
* `CliRequest.parse`
                   the request of the words of a command line
-/

namespace DiskLayers

/-- How results are told. -/
inductive OutputFormat where
  | text
  | json
  deriving DecidableEq, Repr, Inhabited

inductive Verb where
  | build (file : Path) (tag : Option String) (force strict : Bool)
      (timeout lockWait : Option Duration)
  | plan (file : Path)
  | list
  | untag (name : String)
  | run (tag : String) (machine : MachineSpec)
  | attach (name : String)
  | destroy (name : String)
  deriving DecidableEq, Repr

structure CliRequest where
  verb : Verb
  store : Option Path
  format : OutputFormat
  deriving DecidableEq, Repr

/-- the script that is read if none is named -/
def defaultScript : String := "Stratafile"

/-- the format of a word -/
def OutputFormat.ofWord? : String → Option OutputFormat
  | "text" => some .text
  | "json" => some .json
  | _ => none

/-- the greatest count of mebibytes or processors -/
def maxCount : Nat := 4294967295

/-- a count on the command line; it may bear a sign, and zero may be negative -/
def count? (word : String) : Option Nat :=
  match word.toList with
  | '-' :: cs => (Text.readDigits? cs).filter (· = 0)
  | cs => Text.readBounded? maxCount cs

/-- what a path accepts -/
def acceptsPath (word : String) : Bool := word ≠ ""

/-- options that every command takes -/
def globalOptions : List OptionSpec :=
  [⟨"verbose", some 'v', .counter, fun _ => true⟩,
   ⟨"store", none, .value, acceptsPath⟩,
   ⟨"output", some 'o', .value, fun word => (OutputFormat.ofWord? word).isSome⟩,
   ⟨"help", some 'h', .help, fun _ => true⟩]

/-- the words before the command -/
def topGrammar : Grammar :=
  { options := globalOptions ++ [⟨"version", some 'V', .version, fun _ => true⟩], verbs := true }

/-- what a span of time accepts -/
def acceptsDuration (word : String) : Bool := (Duration.parse? word).isSome

def buildGrammar : Grammar :=
  { options := globalOptions ++
      [⟨"tag", some 't', .value, fun _ => true⟩,
       ⟨"force", some 'f', .flag, fun _ => true⟩,
       ⟨"strict", none, .flag, fun _ => true⟩,
       ⟨"timeout", none, .value, acceptsDuration⟩,
       ⟨"lock-wait", none, .value, acceptsDuration⟩]
    places := [acceptsPath] }

def planGrammar : Grammar := { options := globalOptions, places := [acceptsPath] }

def listGrammar : Grammar := { options := globalOptions }

/-- a command with one name -/
def nameGrammar : Grammar := { options := globalOptions, places := [fun _ => true] }

def runGrammar : Grammar :=
  { options := globalOptions ++
      [⟨"name", none, .value, fun _ => true⟩,
       ⟨"memory", none, .value, fun word => (count? word).isSome⟩,
       ⟨"vcpus", none, .value, fun word => (count? word).isSome⟩,
       ⟨"meta", none, .values, fun word => (keyValue? word).isSome⟩]
    places := [fun _ => true] }

/-- the script of a command -/
def scriptOf (f : Found) : Path := ⟨f.places.head?.getD defaultScript⟩

def buildVerb (f : Found) : Verb :=
  .build (scriptOf f) (f.value? "tag") (f.has "force") (f.has "strict")
    ((f.value? "timeout").bind Duration.parse?) ((f.value? "lock-wait").bind Duration.parse?)

/-- the command with the only name that was found -/
def nameVerb (make : String → Verb) (f : Found) : Option Verb := f.places.head?.map make

def runVerb (f : Found) : Option Verb := do
  let tag ← f.places.head?
  let name ← f.value? "name"
  let m : MachineSpec := { name := name }
  let m :=
    { m with
      memoryMiB := ((f.value? "memory").bind count?).getD m.memoryMiB
      vcpus := ((f.value? "vcpus").bind count?).getD m.vcpus }
  return .run tag (m.withNotes ((f.values "meta").filterMap keyValue?))

/-- the words that every command line may begin with -/
def verbOf? : String → Option (Grammar × (Found → Option Verb))
  | "build" => some (buildGrammar, fun f => some (buildVerb f))
  | "plan" => some (planGrammar, fun f => some (.plan (scriptOf f)))
  | "ls" => some (listGrammar, fun _ => some .list)
  | "untag" => some (nameGrammar, nameVerb .untag)
  | "run" => some (runGrammar, runVerb)
  | "attach" => some (nameGrammar, nameVerb .attach)
  | "destroy" => some (nameGrammar, nameVerb .destroy)
  | _ => none

/-- The answer to a question for help on a command: there is help on commands only. -/
def helpOn : List String → Stop
  | [] => .help
  | [word] => if (verbOf? word).isSome || word = "help" then .help else .usage
  | _ => .usage

namespace CliRequest

/-- The request of the words of a command line.  Options behind the command win over those before
it. -/
def parse (words : List String) : Except Stop CliRequest := do
  let top ← topGrammar.scan words
  match top.rest with
  | [] => throw .usage
  | "help" :: rest => throw (helpOn rest)
  | word :: rest =>
    match verbOf? word with
    | none => throw .usage
    | some (grammar, verb) =>
      let f ← grammar.scan rest
      match verb f with
      | none => throw .usage
      | some verb =>
        let value? (name : String) : Option String := (f.value? name).or (top.value? name)
        return ⟨verb, (value? "store").map Path.mk,
          ((value? "output").bind OutputFormat.ofWord?).getD .text⟩

end CliRequest

end DiskLayers
