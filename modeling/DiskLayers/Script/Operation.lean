import DiskLayers.Script.Directive
import DiskLayers.Tool.Guest

/-!
# Operations

One line of a build script, with its argument exactly as written.

* `Operation`                a directive with its argument
* `Operation.of`             the operation of a directive and an argument
* `Operation.directive`, `Operation.argument`
                             its two parts
* `Operation.descriptor`     `KEYWORD:argument`, what the identity of its layer depends on
* `Operation.text`           `KEYWORD argument`, the line
* `Operation.guestCommands`  what it does inside the disk
-/

namespace DiskLayers

/-- One line of a build script.  A metadata operation may bear any directive; the parser and
`Operation.of` give it only those that are metadata. -/
inductive Operation where
  | base (reference : String)
  | mutate (command : String)
  | finalize (command : String)
  | metadata (directive : Directive) (text : String)
  deriving DecidableEq, Repr, Inhabited

namespace Operation

def of : Directive → String → Operation
  | .base, argument => .base argument
  | .mutate, argument => .mutate argument
  | .finalize, argument => .finalize argument
  | d, argument => .metadata d argument

def directive : Operation → Directive
  | .base _ => .base
  | .mutate _ => .mutate
  | .finalize _ => .finalize
  | .metadata d _ => d

def argument : Operation → String
  | .base reference => reference
  | .mutate command => command
  | .finalize command => command
  | .metadata _ text => text

/-- what the identity of the layer depends on, besides its parent -/
def descriptor (op : Operation) : String := op.directive.keyword ++ ":" ++ op.argument

/-- the line of a script -/
def text (op : Operation) : String := op.directive.keyword ++ " " ++ op.argument

/-- starts a chain -/
def isBase : Operation → Bool
  | .base _ => true
  | _ => false

/-- what the operation does inside the disk, in order -/
def guestCommands : Operation → List GuestCommand
  | .base _ => []
  | .mutate command => [.shell command]
  | .finalize command => finalizeCommands command
  | .metadata _ _ => []

theorem directive_of (d : Directive) (argument : String) : (of d argument).directive = d := by
  cases d <;> rfl

theorem argument_of (d : Directive) (argument : String) : (of d argument).argument = argument := by
  cases d <;> rfl

end Operation

end DiskLayers
