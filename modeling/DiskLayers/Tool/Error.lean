import DiskLayers.Duration.Basic
import DiskLayers.SystemError

/-!
# Failures of host tools

* `ToolError`          what can go wrong with a call of a tool
* `ToolError.message`  its text
* `ToolError.causes`   the texts of what lies behind it
-/

namespace DiskLayers

inductive ToolError where
  /-- the program could not be started -/
  | spawn (program : String) (cause : SystemError)
  /-- it ended without success; a tool that was killed has no exit code -/
  | failed (program : String) (code : Option Int) (stderr : String)
  /-- it took longer than allowed -/
  | timeout (program : String) (limit : Duration)
  deriving DecidableEq, Repr, Inhabited

namespace ToolError

/-- the text of an exit code -/
def codeText : Option Int → String
  | none => "None"
  | some code => "Some(" ++ toString code ++ ")"

/-- the text of a failure -/
def message : ToolError → String
  | .spawn program cause => "failed to spawn `" ++ program ++ "`: " ++ cause.message
  | .failed program code stderr =>
    "`" ++ program ++ "` exited with code " ++ codeText code ++ ": " ++ stderr
  | .timeout program limit => "`" ++ program ++ "` timed out after " ++ limit.exactText

/-- the texts of what lies behind a failure, the nearest first -/
def causes : ToolError → List String
  | .spawn _ cause => [cause.message]
  | _ => []

end ToolError

end DiskLayers
