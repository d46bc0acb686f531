import DiskLayers.Hash.Segments
import DiskLayers.Script.Operation
import DiskLayers.Text.Blank

/-!
# Identities of layers

The identity of a layer is its key in the store and the stem of its file names.

* `isNameChar`, `isValidName`   what may stand in a name that is used as it is
* `Identity`                    the key of a layer
* `Identity.base?`              the key of an image template, none if its reference is blank
* `Identity.ofDescriptor`       the key below a parent, from a descriptor
* `Identity.derive`             the key below a parent, from an operation
* `Identity.isDigest`           whether a key looks like a derived one

A base key is its reference with `-` for every character that may not stand in a name.  A derived
key is a short hash of the parent's key and the operation's descriptor, so that it depends on the
whole history and on nothing else.
-/

namespace DiskLayers

/-- letters and digits of ASCII, dot, underscore and hyphen -/
def isNameChar (c : Char) : Bool := c.isAlphanum || c = '.' || c = '_' || c = '-'

/-- a name that can be used as it is: not empty, no dot in front, proper characters only -/
def isValidName (name : String) : Bool :=
  !name.toList.isEmpty && name.toList.head? ≠ some '.' && name.toList.all isNameChar

structure Identity where
  name : String
  deriving DecidableEq, Repr, Inhabited

namespace Identity

/-- a character as it stands in a key -/
def nameChar (c : Char) : Char := if isNameChar c then c else '-'

/-- the characters of a key: `-` replaces those that may not stand in a name, and a leading dot -/
def nameChars (cs : List Char) : List Char :=
  match cs.map nameChar with
  | '.' :: rest => '-' :: rest
  | name => name

def base? (reference : String) : Option Identity :=
  let cs := Text.trimBlank reference.toList
  if cs = [] then none else some ⟨String.ofList (nameChars cs)⟩

/-- the key below `parent` of the layer that `descriptor` makes -/
def ofDescriptor (parent descriptor : String) : Identity :=
  ⟨String.ofList (hashSegments [utf8Bytes parent, utf8Bytes descriptor])⟩

/-- the key below `parent` of the layer that `op` makes -/
def derive (parent : Identity) (op : Operation) : Identity :=
  ofDescriptor parent.name op.descriptor

/-- as long as a short hash, and digits of it only -/
def isDigest (identity : Identity) : Bool :=
  let cs := identity.name.toList
  cs.length = hashLength && cs.all Text.isLowerHex

theorem isDigest_ofDescriptor (parent descriptor : String) :
    (ofDescriptor parent descriptor).isDigest = true := by
  simp only [isDigest, ofDescriptor, String.toList_ofList, length_hashSegments, decide_true,
    Bool.true_and, List.all_eq_true]
  exact isLowerHex_hashSegments _

theorem isDigest_derive (parent : Identity) (op : Operation) :
    (parent.derive op).isDigest = true := isDigest_ofDescriptor _ _

end Identity

end DiskLayers
