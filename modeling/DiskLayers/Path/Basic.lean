import DiskLayers.Text.Split

/-!
# Paths

A path is a text whose NAMES stand between slashes.  Empty names and `.` mean nothing, except that
a relative path may begin with `.`; they are kept in the text all the same.

* `Path.join`           a path below another; an absolute one replaces it
* `Path.split`          the last name of a path and the pieces before it
* `Path.fileName?`, `Path.parent?`
                        the last name, if it is a proper one, and the path above it
* `Path.extension?`, `Path.stem?`
                        what stands behind and before the last dot of the last name
* `Path.withExtension`  the path with another extension
* `Path.absolute?`      the path from the root, seen from a directory
* `Path.names`          the names between slashes
* `Path.wantsDirectory`, `Path.endsInSlash`, `Path.endsInDots`
                        what the end of a path says about what it names
-/

namespace DiskLayers

/-- A path, as text. -/
structure Path where
  text : String
  deriving DecidableEq, Repr, Inhabited

namespace Path

/-- the path of a list of characters -/
def ofChars (cs : List Char) : Path := ⟨String.ofList cs⟩

/-- the characters of a path -/
def chars (p : Path) : List Char := p.text.toList

/-- a path that begins at the root -/
def isAbsolute (p : Path) : Bool := p.chars.head? = some '/'

/-- `name` below `base`, both as characters -/
def joinChars (base name : List Char) : List Char :=
  if name.head? = some '/' ∨ base = [] then name
  else if base.getLast? = some '/' then base ++ name
  else base ++ '/' :: name

def join (base : Path) (name : String) : Path := ofChars (joinChars base.chars name.toList)

/-- a piece between slashes that means nothing, unless it is the first -/
def isVoid (piece : List Char) : Bool := piece.isEmpty || piece = ['.']

/-- The last name in a list of pieces, the last piece first, and the pieces before it.  The first
piece of a path is a name even if it is `.`. -/
def lastName : List (List Char) → Option (List Char × List (List Char))
  | [] => none
  | [piece] => if piece.isEmpty then none else some (piece, [])
  | piece :: before => if isVoid piece then lastName before else some (piece, before)

def split (cs : List Char) : Option (List Char × List (List Char)) :=
  lastName (Text.splitAll '/' cs).reverse

/-- the pieces without those at the end that mean nothing -/
def dropVoid : List (List Char) → List (List Char)
  | [] => []
  | [piece] => [piece]
  | piece :: before => if isVoid piece then dropVoid before else piece :: before

/-- the last name, unless it only points at a directory -/
def properName? (cs : List Char) : Option (List Char) :=
  (split cs).bind fun (name, _) => if name = ['.'] ∨ name = ['.', '.'] then none else some name

/-- the last name of a path; `.` and `..` are none -/
def fileName? (p : Path) : Option String := (properName? p.chars).map String.ofList

/-- the path above the last name; the root has none -/
def parent? (p : Path) : Option Path :=
  (split p.chars).map fun (_, before) =>
    match dropVoid before with
    | [[]] => ⟨"/"⟩
    | pieces => ofChars (Text.joinWith '/' pieces.reverse)

/-- A name cut at its last dot.  A dot in front does not count, and `..` has none. -/
def splitName (name : List Char) : List Char × Option (List Char) :=
  if name = ['.', '.'] then (name, none)
  else
    match Text.splitLast '.' name with
    | some (stem, extension) => if stem.isEmpty then (name, none) else (stem, some extension)
    | none => (name, none)

/-- what stands behind the last dot of the last name -/
def extension? (p : Path) : Option String :=
  ((properName? p.chars).bind fun name => (splitName name).2).map String.ofList

/-- what stands before the last dot of the last name, or the whole name -/
def stem? (p : Path) : Option String :=
  (properName? p.chars).map fun name => String.ofList (splitName name).1

/-- the number of UTF-8 bytes of some characters -/
def byteCount : List Char → Nat
  | [] => 0
  | c :: cs => c.utf8Size + byteCount cs

theorem byteCount_nil : byteCount [] = 0 := rfl
theorem byteCount_cons (c : Char) (cs : List Char) :
    byteCount (c :: cs) = c.utf8Size + byteCount cs := rfl
theorem byteCount_append (cs ds : List Char) :
    byteCount (cs ++ ds) = byteCount cs + byteCount ds := by
  induction cs with
  | nil => simp [byteCount_nil]
  | cons c cs ih => simp [byteCount_cons, ih, Nat.add_assoc]

/-- the list without as many whole characters at its end as fit in `count` bytes; the list is
given and returned with its last character first -/
def dropBytes (count : Nat) : List Char → List Char
  | [] => []
  | c :: cs => if c.utf8Size ≤ count then dropBytes (count - c.utf8Size) cs else c :: cs

/-- The path with another extension.  The text first loses as many bytes at its end as the old
extension has; whatever then follows the stem of the last name makes way for the new one.  A path
without a proper last name is left as it is. -/
def withExtension (p : Path) (new : String) : Path :=
  let old := ((properName? p.chars).bind fun name => (splitName name).2).getD []
  let cut := (dropBytes (byteCount old) p.chars.reverse).reverse
  match split cut with
  | none => ofChars cut
  | some (name, before) =>
    if name = ['.'] ∨ name = ['.', '.'] then ofChars cut
    else
      ofChars (Text.joinWith '/' ((splitName name).1 :: before).reverse ++ '.' :: new.toList)

/-- the names of a path between slashes, without those that mean nothing -/
def names (cs : List Char) : List (List Char) := (Text.splitAll '/' cs).filter (!isVoid ·)

/-- The path from the root, seen from the directory `base`.  Names that mean nothing are dropped;
a slash at the end stays, and so do exactly two at the front. -/
def absolute? (p base : Path) : Option Path :=
  let cs := p.chars
  if cs = [] then none
  else
    let front :=
      match cs with
      | '/' :: '/' :: '/' :: _ => ['/']
      | '/' :: '/' :: _ => ['/', '/']
      | '/' :: _ => ['/']
      | _ => base.chars
    let whole := (names cs).foldl joinChars front
    some (ofChars (if cs.getLast? = some '/' then joinChars whole [] else whole))

/-- whether a path can only name a directory: its last piece means nothing -/
def wantsDirectory (cs : List Char) : Bool :=
  match (Text.splitAll '/' cs).getLast? with
  | some piece => isVoid piece && !cs.isEmpty
  | none => false

/-- whether a path ends in a slash -/
def endsInSlash (cs : List Char) : Bool := cs.getLast? = some '/'

/-- whether the last name of a path only points at a directory; slashes behind it do not count -/
def endsInDots (cs : List Char) : Bool :=
  match ((Text.splitAll '/' cs).filter (!·.isEmpty)).getLast? with
  | some piece => piece = ['.'] || piece = ['.', '.']
  | none => false

example : (⟨"/s/web.qcow2"⟩ : Path).withExtension "incomplete" = ⟨"/s/web.incomplete"⟩ := by decide +kernel
example : (⟨"/s/a..qcow2"⟩ : Path).withExtension "incomplete" = ⟨"/s/a..incomplete"⟩ := by decide +kernel
example : (⟨"/s/..qcow2"⟩ : Path).withExtension "incomplete" = ⟨"/s/.."⟩ := by decide +kernel
example : (⟨"/s/.hidden"⟩ : Path).withExtension "incomplete" = ⟨"/s/.hidden.incomplete"⟩ := by decide +kernel
example : (⟨"/a/./b//"⟩ : Path).parent? = some ⟨"/a"⟩ := by decide +kernel
example : Path.absolute? ⟨"./a//b/../c/"⟩ ⟨"/w"⟩ = some ⟨"/w/a/b/../c/"⟩ := by decide +kernel

end Path

end DiskLayers
