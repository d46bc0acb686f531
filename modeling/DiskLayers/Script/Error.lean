import DiskLayers.Script.Basic

/-!
# Errors of build scripts

* `ScriptError`          what makes a list of operations no chain
* `ScriptError.message`  its text
* `Script.parseStrict`   reads a text and refuses it at its first warning
-/

namespace DiskLayers

/-- What is wrong with a list of operations, or with the name of its tag. -/
inductive ScriptError where
  | empty
  | missingBase (descriptor : String)
  | repeatedBase (descriptor : String)
  | emptyBaseReference (reference : String)
  | invalidTag (name : String)
  | nothingToTag
  /-- a warning, where none is allowed -/
  | strict (warning : Warning)
  deriving DecidableEq, Repr, Inhabited

/-- the text of an error -/
def ScriptError.message : ScriptError → String
  | .empty => "script contains no directives"
  | .missingBase d => "first directive must be BASE, found `" ++ d ++ "`"
  | .repeatedBase d => "BASE may only appear once, found `" ++ d ++ "` after the chain started"
  | .emptyBaseReference r => "BASE reference `" ++ r ++ "` is empty"
  | .invalidTag name =>
    "invalid tag name `" ++ name ++
      "`: use letters, digits, `.`, `_` or `-` and do not start with `.`"
  | .nothingToTag => "nothing to tag: no layers were built"
  | .strict w => w.message

namespace Script

/-- the script of a text without warnings; otherwise its first warning -/
def parseStrict (text : String) : Except ScriptError Script :=
  let script := parse text
  match script.warnings with
  | [] => .ok script
  | w :: _ => .error (.strict w)

/-- the script of a text, refused at its first warning if `strict` -/
def parseWith (strict : Bool) (text : String) : Except ScriptError Script :=
  if strict then parseStrict text else .ok (parse text)

end Script

end DiskLayers
