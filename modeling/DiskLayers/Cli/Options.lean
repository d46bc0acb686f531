/-!
# Options and places of a command line

The words of a command line are OPTIONS, which begin with a hyphen and may take a value, and
PLACES, which are told apart by their order.

* `Kind`, `OptionSpec`   what an option takes
* `Stop`                 why reading ends early
* `Grammar`              the options and places of one command
* `Found`                the options and places that were found, in order
* `Grammar.scan`         reads the words of a command

Words are read from left to right and the first one that ends the reading decides.  A value stands
behind a long option after `=` or as the next word, and behind a short one at once, after `=`, or
as the next word.  Short options can share a hyphen.  Only a value behind `=`, or at once behind
its short option, may begin with a hyphen.  Behind a bare `--` all words are places.
-/

namespace DiskLayers

/-- What an option takes. -/
inductive Kind where
  /-- nothing, and it may be given once -/
  | flag
  /-- nothing, and it may be given often -/
  | counter
  /-- a value, and it may be given once -/
  | value
  /-- a value, and it may be given often -/
  | values
  /-- nothing: it asks for help -/
  | help
  /-- nothing: it asks for the version -/
  | version
  deriving DecidableEq, Repr

namespace Kind

def takesValue : Kind → Bool
  | .value | .values => true
  | _ => false

def isRepeatable : Kind → Bool
  | .counter | .values => true
  | _ => false

end Kind

/-- An option: its long name, its letter if it has one, and the values it accepts. -/
structure OptionSpec where
  name : String
  letter : Option Char
  kind : Kind
  accepts : String → Bool := fun _ => true

inductive Stop where
  | help
  | version
  | usage
  deriving DecidableEq, Repr

/-- The options and the places of a command.  With `verbs`, the first place ends the reading. -/
structure Grammar where
  options : List OptionSpec
  /-- what each place accepts -/
  places : List (String → Bool) := []
  verbs : Bool := false

/-- What was found, in order: options by name with their values, places, and with `verbs` the
words from the first place on. -/
structure Found where
  options : List (String × String) := []
  places : List String := []
  rest : List String := []
  deriving DecidableEq, Repr

namespace Found

/-- an option was given -/
def has (f : Found) (name : String) : Bool := f.options.any (·.1 = name)

/-- the value of an option that may be given once -/
def value? (f : Found) (name : String) : Option String := f.options.lookup name

/-- the values of an option that may be given often -/
def values (f : Found) (name : String) : List String :=
  f.options.filterMap fun (n, v) => if n = name then some v else none

end Found

namespace Grammar

/-- the option of a letter -/
def ofLetter? (g : Grammar) (c : Char) : Option OptionSpec := g.options.find? (·.letter = some c)

/-- the option of a long name -/
def ofName? (g : Grammar) (name : String) : Option OptionSpec := g.options.find? (·.name = name)

/-- one more option, if it may be given here with this value -/
def note (o : OptionSpec) (value : String) (f : Found) : Except Stop Found :=
  match o.kind with
  | .help => .error .help
  | .version => .error .version
  | kind =>
    if f.has o.name && !kind.isRepeatable then .error .usage
    else if o.accepts value then .ok { f with options := f.options ++ [(o.name, value)] }
    else .error .usage

/-- one more place, if there is one left and it accepts the word -/
def addPlace (g : Grammar) (word : String) (f : Found) : Except Stop Found :=
  match g.places[f.places.length]? with
  | none => .error .usage
  | some accepts =>
    if accepts word then .ok { f with places := f.places ++ [word] } else .error .usage

/-- Reads the letters behind a hyphen.  The last option may still wait for its value. -/
def scanLetters (g : Grammar) (f : Found) : List Char → Except Stop (Found × Option OptionSpec)
  | [] => .ok (f, none)
  | c :: cs =>
    match g.ofLetter? c with
    | none => .error .usage
    | some o =>
      if o.kind.takesValue then
        match cs with
        | [] => .ok (f, some o)
        | '=' :: value => (note o (String.ofList value) f).map (·, none)
        | value => (note o (String.ofList value) f).map (·, none)
      else
        match note o "" f with
        | .error e => .error e
        | .ok f => scanLetters g f cs

/-- reads a long option, without its hyphens -/
def scanLong (g : Grammar) (f : Found) (cs : List Char) :
    Except Stop (Found × Option OptionSpec) :=
  let name := cs.takeWhile (· ≠ '=')
  match g.ofName? (String.ofList name), cs.drop name.length with
  | none, _ => .error .usage
  | some o, [] =>
    if o.kind.takesValue then .ok (f, some o) else (note o "" f).map (·, none)
  | some o, _ :: value =>
    if o.kind.takesValue then (note o (String.ofList value) f).map (·, none) else .error .usage

/-- a word that is no value unless it stands at once behind its option -/
def looksLikeOption (word : String) : Bool :=
  match word.toList with
  | '-' :: _ :: _ => true
  | _ => false

/-- Reads words; `waiting` is an option that waits for its value. -/
def scanFrom (g : Grammar) (f : Found) (waiting : Option OptionSpec) :
    List String → Except Stop Found
  | [] => if waiting.isSome then .error .usage else .ok f
  | word :: words =>
    match waiting with
    | some o =>
      if looksLikeOption word then .error .usage
      else
        match note o word f with
        | .error e => .error e
        | .ok f => scanFrom g f none words
    | none =>
      match word.toList with
      | ['-', '-'] => words.foldlM (fun f word => g.addPlace word f) f
      | '-' :: '-' :: cs =>
        match g.scanLong f cs with
        | .error e => .error e
        | .ok (f, waiting) => scanFrom g f waiting words
      | '-' :: c :: cs =>
        match g.scanLetters f (c :: cs) with
        | .error e => .error e
        | .ok (f, waiting) => scanFrom g f waiting words
      | _ =>
        if g.verbs then .ok { f with rest := word :: words }
        else
          match g.addPlace word f with
          | .error e => .error e
          | .ok f => scanFrom g f none words

def scan (g : Grammar) (words : List String) : Except Stop Found := g.scanFrom {} none words

end Grammar

end DiskLayers
