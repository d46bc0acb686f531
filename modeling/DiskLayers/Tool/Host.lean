import DiskLayers.FileSystem.Basic
import DiskLayers.Text.Blank
import DiskLayers.Text.Lossy
import DiskLayers.Tool.Error

/-!
# Programs of the host

* `Invocation`       a program with its arguments
* `Invocation.refusal?`
                     why it cannot be started at all, whatever the program
* `Ending`           how a program ended, or why it did not start
* `Host`             what runs programs
* `Tooling`          work with programs: it fails with a `ToolError`
* `runTool`          a program whose output is kept, within a limit of time
* `runInteractive`   a program that talks to the user

Programs whose output is kept run in the C locale, so that their messages are the same everywhere.
-/

namespace DiskLayers

structure Invocation where
  program : String
  args : List String
  /-- it talks to the user, in the user's locale -/
  interactive : Bool
  deriving DecidableEq, Repr, Inhabited

inductive Ending where
  | notStarted (cause : SystemError)
  /-- its exit code, if it was not killed, its output, and the time it took -/
  | ended (code : Option Int) (stdout stderr : ByteArray) (took : Duration)
  deriving Inhabited

/-- What runs programs.  It has a state of type `σ`, and programs may change files. -/
abbrev Host (σ : Type) := Invocation → σ → FileSystem → Ending × σ × FileSystem

abbrev Tooling (σ : Type) := ExceptT ToolError (StateM (σ × FileSystem))

/-- whether a text can be handed to a program -/
def isPassable (text : String) : Bool := !text.toList.contains '\x00'

/-- the longest argument that the operating system hands to a program, in bytes -/
def maxArgumentLength : Nat := 131071

/-- why the operating system is not even asked to start a program, or refuses at once -/
def Invocation.refusal? (i : Invocation) : Option SystemError :=
  if !(isPassable i.program && i.args.all isPassable) then some .nulInArgument
  else if i.args.any (·.utf8ByteSize > maxArgumentLength) then some .argumentsTooLong
  else none

/-- starts a program, unless its name or an argument cannot be handed over -/
def start (host : Host σ) (i : Invocation) : Tooling σ Ending :=
  match i.refusal? with
  | some cause => return .notStarted cause
  | none =>
    ExceptT.mk (fun (s, fs) =>
      let (ending, s, fs) := host i s fs
      (Except.ok ending, s, fs) : StateM (σ × FileSystem) _)

/-- the output of a program without the blanks around it -/
def outputText (bytes : ByteArray) : String := Text.trim (Text.lossyText bytes)

/-- Runs a program and keeps what it writes.  A program that needs the limit or more is stopped. -/
def runTool (host : Host σ) (program : String) (args : List String) (limit : Option Duration) :
    Tooling σ String := do
  match ← start host ⟨program, args, false⟩ with
  | .notStarted cause => throw (.spawn program cause)
  | .ended code stdout stderr took =>
    match limit with
    | some limit =>
      if took.toNanoseconds ≥ limit.toNanoseconds then throw (.timeout program limit)
    | none => pure ()
    if code ≠ some 0 then throw (.failed program code (outputText stderr))
    return outputText stdout

/-- Runs a program that talks to the user.  It may take as long as it likes. -/
def runInteractive (host : Host σ) (program : String) (args : List String) : Tooling σ Unit := do
  match ← start host ⟨program, args, true⟩ with
  | .notStarted cause => throw (.spawn program cause)
  | .ended code _ _ _ => if code ≠ some 0 then throw (.failed program code "")

end DiskLayers
