import DiskLayers.Script.Line
import DiskLayers.Script.Operation
import DiskLayers.Text.Blank
import DiskLayers.Text.Decimal

/-!
# Build scripts

* `Warning`           why a logical line was dropped
* `LineMeaning`       what a logical line says: nothing, an operation, or a warning
* `Script`            the operations and the warnings of a text, in order
* `Script.parse`      reads a text; lines that say nothing known are dropped with a warning
* `Script.render`     the text of a list of operations, one line each
-/

namespace DiskLayers

/-- What is wrong with a dropped line. -/
inductive WarningKind where
  /-- the first word is no keyword -/
  | unknownDirective (keyword : String)
  /-- no space separates keyword and argument -/
  | missingArgument (text : String)
  deriving DecidableEq, Repr, Inhabited

/-- Why a logical line was dropped, and the physical line it starts at. -/
structure Warning where
  line : Nat
  kind : WarningKind
  deriving DecidableEq, Repr, Inhabited

/-- the text of a warning -/
def Warning.message (w : Warning) : String :=
  match w.kind with
  | .unknownDirective keyword =>
    "line " ++ Text.showNat w.line ++ ": unknown directive `" ++ keyword ++ "`"
  | .missingArgument text =>
    "line " ++ Text.showNat w.line ++ ": expected `KEYWORD argument`, got `" ++ text ++ "`"

inductive LineMeaning where
  /-- blank, or a comment -/
  | nothing
  | operation (op : Operation)
  | dropped (w : Warning)
  deriving DecidableEq, Repr

namespace LineMeaning

def operation? : LineMeaning → Option Operation
  | .operation op => some op
  | _ => none

def warning? : LineMeaning → Option Warning
  | .dropped w => some w
  | _ => none

end LineMeaning

/-- what a logical line says -/
def LogicalLine.meaning (l : LogicalLine) : LineMeaning :=
  let cs := Text.trimBlank l.text
  if cs = [] ∨ cs.head? = some '#' then .nothing
  else
    match Text.splitFirst ' ' cs with
    | none => .dropped ⟨l.start, .missingArgument (String.ofList cs)⟩
    | some (word, argument) =>
      match Directive.ofKeyword? (String.ofList word) with
      | none => .dropped ⟨l.start, .unknownDirective (String.ofList word)⟩
      | some d => .operation (Operation.of d (String.ofList argument))

/-- The operations of a text and the warnings about its other lines. -/
structure Script where
  operations : List Operation
  warnings : List Warning
  deriving DecidableEq, Repr, Inhabited

namespace Script

/-- the script of what its lines say -/
def ofMeanings (ms : List LineMeaning) : Script :=
  ⟨ms.filterMap LineMeaning.operation?, ms.filterMap LineMeaning.warning?⟩

/-- the script of a text -/
def parse (text : String) : Script := ofMeanings ((logicalLines text).map LogicalLine.meaning)

def render (ops : List Operation) : String := "\n".intercalate (ops.map Operation.text)

theorem ofMeanings_nil : ofMeanings [] = ⟨[], []⟩ := rfl

theorem ofMeanings_append (a b : List LineMeaning) :
    ofMeanings (a ++ b)
      = ⟨(ofMeanings a).operations ++ (ofMeanings b).operations,
          (ofMeanings a).warnings ++ (ofMeanings b).warnings⟩ := by
  simp [ofMeanings]

end Script

end DiskLayers
