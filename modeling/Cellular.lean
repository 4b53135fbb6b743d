import Cellular.Grid.Lemmas
import Cellular.Pattern.Apgcode.Raster
import Cellular.Rule.Writer
import Cellular.Table.Cache
import Cellular.Table.Count
import Cellular.Table.Dispatch
import Cellular.Table.Odometer
import Cellular.Table.SharedBuild
import Cellular.Table.Template
import Cellular.Proofs.Packing
import Cellular.Proofs.Assignment
import Cellular.Proofs.Reading
import Cellular.Proofs.Dispatch
import Cellular.Proofs.Grid
import Cellular.Proofs.Apgcode
import Cellular.Proofs.Squeeze
import Cellular.Proofs.TableLine
import Cellular.Proofs.Core
import Cellular.Proofs.KeyLine
import Cellular.Proofs.Key
import Cellular.Proofs.Cache
import Cellular.Proofs.SharedKey
import Cellular.Proofs.KeyFaults
import Cellular.Proofs.Congruence
import Cellular.Proofs.MinimalCode
import Cellular.Proofs.Configurations
import Cellular.Proofs.Filling
import Cellular.Proofs.Gaps
import Cellular.Proofs.Invariance
import Cellular.Proofs.Token
import Cellular.Proofs.Description
import Cellular.Proofs.Transcript
import Cellular.Proofs.WrittenLine
import Cellular.Proofs.Written
import Cellular.Proofs.Span
import Cellular.Proofs.BuildFaults
import Cellular.Proofs.Provenance
import Cellular.Proofs.Queue
import Cellular.Proofs.Overlay
import Cellular.Proofs.Position
import Cellular.Proofs.Canonical
import Cellular.Proofs.Automorphism
import Cellular.Proofs.SamePattern
import Cellular.Proofs.CodeLanguage
import Cellular.Proofs.ShortestCode
import Cellular.Proofs.Arrangement
import Cellular.Proofs.Expansion
import Cellular.Proofs.Successor
import Cellular.Proofs.Keyspace
import Cellular.Proofs.Fingerprint
import Cellular.Proofs.Redeclaration
import Cellular.Proofs.GridAction
import Cellular.Proofs.Plane
import Cellular.Proofs.Layout
import Cellular.Proofs.BrokenDeclaration
import Cellular.Proofs.Bounds
import Cellular.Proofs.NormalForm
import Cellular.Proofs.Odometer
import Cellular.Proofs.Sweep
import Cellular.Proofs.Count
import Cellular.Proofs.Raster
import Cellular.Proofs.SharedBuild
import Cellular.Proofs.BuildResult
import Cellular.Proofs.SpanFaults
