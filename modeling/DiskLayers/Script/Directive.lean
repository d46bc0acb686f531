/-!
# Directives

The kinds of lines a build script is made of, each with its keyword.

* `Directive`             the six kinds
* `Directive.keyword`     the word a line begins with
* `Directive.ofKeyword?`  the kind of a word; case matters
* `Directive.isMetadata`  kinds that leave no trace on the disk

`ofKeyword?_keyword` and `keyword_injective` say that keywords name the kinds.
-/

namespace DiskLayers

/-- The kinds of lines of a build script. -/
inductive Directive where
  /-- the image template that everything is built on -/
  | base
  /-- a shell command run inside the guest -/
  | mutate
  /-- a command run at every start of the guest -/
  | finalize
  | maintainer
  | label
  | description
  deriving DecidableEq, Repr, Inhabited

namespace Directive

/-- every kind -/
def all : List Directive := [.base, .mutate, .finalize, .maintainer, .label, .description]

/-- the word a line of this kind begins with -/
def keyword : Directive → String
  | .base => "BASE"
  | .mutate => "MUTATE"
  | .finalize => "FINALIZE"
  | .maintainer => "MAINTAINER"
  | .label => "LABEL"
  | .description => "DESCRIPTION"

def ofKeyword? (word : String) : Option Directive := all.find? (·.keyword = word)

/-- kinds that are part of the history but leave no trace on the disk -/
def isMetadata : Directive → Bool
  | .maintainer | .label | .description => true
  | .base | .mutate | .finalize => false

theorem mem_all (d : Directive) : d ∈ all := by cases d <;> decide

theorem ofKeyword?_keyword (d : Directive) : ofKeyword? d.keyword = some d := by
  cases d <;> decide

theorem keyword_of_ofKeyword? {word : String} {d : Directive} (h : ofKeyword? word = some d) :
    d.keyword = word := by simpa using List.find?_some h

theorem keyword_injective {d e : Directive} (h : d.keyword = e.keyword) : d = e := by
  have := ofKeyword?_keyword d
  rw [h, ofKeyword?_keyword] at this
  exact (Option.some.inj this).symm

end Directive

end DiskLayers
