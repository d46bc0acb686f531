import DiskLayers.Text.Split

/-!
# Lines of a script

A text is cut at line feeds into PHYSICAL lines, which lose one carriage return at their end.  A
physical line that ends in a backslash goes on in the next one; physical lines that belong
together make one LOGICAL line.

* `physicalLines`       the physical lines of a text
* `continued?`          a physical line without its final backslash, if it has one
* `LogicalLine`         its first physical line, counted from 1, and its text
* `LogicalLine.join`    the logical lines of physical lines
* `logicalLines`        the logical lines of a text
-/

namespace DiskLayers

/-- the list without its last character, if that is `c` -/
def dropFinal? (c : Char) (cs : List Char) : Option (List Char) :=
  if cs.getLast? = some c then some cs.dropLast else none

/-- a line without one carriage return at its end -/
def dropReturn (cs : List Char) : List Char := (dropFinal? '\r' cs).getD cs

/-- the lines between line feeds -/
def physicalLines (text : String) : List (List Char) :=
  (Text.splitAll '\n' text.toList).map dropReturn

/-- what stands before the backslash of a line that goes on in the next one -/
def continued? (line : List Char) : Option (List Char) := dropFinal? '\\' line

/-- A logical line: the number of its first physical line and its text. -/
structure LogicalLine where
  start : Nat
  text : List Char
  deriving DecidableEq, Repr

namespace LogicalLine

/-- The logical lines of physical lines, the first of which has the number `n`.  A backslash on
the last line has nothing to join. -/
def join (n : Nat) : List (List Char) → List LogicalLine
  | [] => []
  | line :: lines =>
    match continued? line with
    | none => ⟨n, line⟩ :: join (n + 1) lines
    | some head =>
      match join (n + 1) lines with
      | [] => [⟨n, head⟩]
      | next :: rest => ⟨n, head ++ next.text⟩ :: rest

theorem join_nil (n : Nat) : join n [] = [] := rfl

theorem join_of_not_continued {line : List Char} (n : Nat) (lines : List (List Char))
    (h : continued? line = none) : join n (line :: lines) = ⟨n, line⟩ :: join (n + 1) lines := by
  simp [join, h]

end LogicalLine

def logicalLines (text : String) : List LogicalLine := LogicalLine.join 1 (physicalLines text)

end DiskLayers
