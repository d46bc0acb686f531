import DiskLayers.Main
import DiskLayers.Script.OperationJson
import DiskLayers.Proofs.Agreement
import DiskLayers.Proofs.Identities
import DiskLayers.Proofs.Reuse
import DiskLayers.Proofs.Cache
import DiskLayers.Proofs.Tags
import DiskLayers.Proofs.Builders
import DiskLayers.Proofs.Launches
import DiskLayers.Proofs.Backing
import DiskLayers.Proofs.Reading
import DiskLayers.Proofs.Footprints
import DiskLayers.Proofs.Progress
import DiskLayers.Proofs.Kinds
import DiskLayers.Proofs.Rendering
import DiskLayers.Proofs.Pruning
import DiskLayers.Proofs.Retagging
import DiskLayers.Proofs.Contexts
import DiskLayers.Proofs.Descriptors
import DiskLayers.Proofs.Places
import DiskLayers.Proofs.Listing
import DiskLayers.Proofs.Options
import DiskLayers.Proofs.Forest
import DiskLayers.Proofs.Encoding
import DiskLayers.Proofs.Holders
