import DiskLayers.FileSystem.Resolve
import DiskLayers.Layer.Identity

/-!
# Layers

A layer is one state of a disk, kept in a file.  While it is being made a MARKER stands next to
the file, so that a disk left unfinished is never taken for a complete one.

* `LayerKind`             base image, derived layer, or tag
* `LayerId`               the place of a layer among the layers of one build
* `Layer`                 a layer: key, parent, file, kind and what made it
* `Layer.marker`          the path of its marker
* `Layer.isComplete`      there is a file and no marker
-/

namespace DiskLayers

/-- What a layer is for. -/
inductive LayerKind where
  /-- made from an image template -/
  | base
  /-- made from another layer by an operation -/
  | derived
  /-- the end of a chain under a name of its own -/
  | tag
  deriving DecidableEq, Repr, Inhabited

/-- the word for a kind -/
def LayerKind.word : LayerKind → String
  | .base => "base"
  | .derived => "derived"
  | .tag => "tag"

structure LayerId where
  index : Nat
  deriving DecidableEq, Repr, Inhabited

/-- One state of a disk. -/
structure Layer where
  identity : Identity
  /-- the layer it was derived from, in the same build -/
  parent : Option LayerId
  /-- the file of the disk -/
  location : Path
  kind : LayerKind
  /-- the descriptor of what made it -/
  directive : String
  deriving DecidableEq, Repr, Inhabited

namespace Layer

/-- the extension of markers -/
def markerExtension : String := "incomplete"

/-- the path of the marker that stands next to an unfinished disk -/
def markerOf (disk : Path) : Path := disk.withExtension markerExtension

def marker (l : Layer) : Path := markerOf l.location

/-- the key of the layer that `op` makes from this one -/
def derivedIdentity (l : Layer) (op : Operation) : Identity := l.identity.derive op

/-- the marker is there -/
def isMarked (l : Layer) (fs : FileSystem) : Bool := fs.isPresent l.marker

/-- the disk is there and the marker is not -/
def isComplete (l : Layer) (fs : FileSystem) : Bool := fs.isFile l.location && !l.isMarked fs

end Layer

end DiskLayers
