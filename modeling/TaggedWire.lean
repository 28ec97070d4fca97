import TaggedWire.Binary.Basic
import TaggedWire.Binary.Decimal
import TaggedWire.Binary.Format
import TaggedWire.Binary.Scaled
import TaggedWire.Binary.Text
import TaggedWire.Catalog.Basic
import TaggedWire.Catalog.Document
import TaggedWire.Catalog.Fingerprint
import TaggedWire.Catalog.Format
import TaggedWire.Catalog.Load
import TaggedWire.Catalog.Validation
import TaggedWire.Command.Basic
import TaggedWire.Command.Option
import TaggedWire.Command.Run
import TaggedWire.Digest.Sha256
import TaggedWire.Error
import TaggedWire.Factory.Basic
import TaggedWire.Factory.Build
import TaggedWire.Factory.Decode
import TaggedWire.Factory.Encode
import TaggedWire.Factory.Slot
import TaggedWire.Files.Fault
import TaggedWire.Files.Path
import TaggedWire.Files.Script
import TaggedWire.Files.Tree
import TaggedWire.Generation.Cache
import TaggedWire.Generation.Context
import TaggedWire.Generation.Generator
import TaggedWire.Generation.Settings
import TaggedWire.Generation.Strategy
import TaggedWire.Json.Basic
import TaggedWire.Json.Layout
import TaggedWire.Json.Literal
import TaggedWire.Json.Number
import TaggedWire.Json.Record
import TaggedWire.Json.Token
import TaggedWire.Json.Tree
import TaggedWire.Main
import TaggedWire.Marshaller.Basic
import TaggedWire.Marshaller.Foreign
import TaggedWire.Marshaller.Providers
import TaggedWire.Marshaller.Scalar
import TaggedWire.Plan.Basic
import TaggedWire.Plan.Builder
import TaggedWire.Plan.Report
import TaggedWire.Plan.Source
import TaggedWire.Table
import TaggedWire.Text.Blank
import TaggedWire.Text.Quoted
import TaggedWire.Text.Sorted
import TaggedWire.Text.Unseen
import TaggedWire.Toml.Document
import TaggedWire.Toml.Scalar
import TaggedWire.Toml.Table
import TaggedWire.Toml.Text
import TaggedWire.TypeRef.Basic
import TaggedWire.TypeRef.Name
import TaggedWire.TypeRef.Primitive
import TaggedWire.TypeRef.Spelling
import TaggedWire.Value.Basic
import TaggedWire.Value.Equality
import TaggedWire.Wire.Basic
import TaggedWire.Wire.Encoding
import TaggedWire.Wire.Writer
import TaggedWire.Proofs.Json.Reading
import TaggedWire.Proofs.Catalog.Sound
import TaggedWire.Proofs.Factory.Built
import TaggedWire.Proofs.Factory.Coding
import TaggedWire.Proofs.Factory.Generated
import TaggedWire.Proofs.Factory.Readings
import TaggedWire.Proofs.Factory.Regular
import TaggedWire.Proofs.Json.Finite
import TaggedWire.Proofs.Catalog.Fingerprint
import TaggedWire.Proofs.Factory.Claims
import TaggedWire.Proofs.Files.Interrupted
import TaggedWire.Proofs.Generation.Cached
import TaggedWire.Proofs.Generation.Success
import TaggedWire.Proofs.Factory.Kept
import TaggedWire.Proofs.Factory.Extended
import TaggedWire.Proofs.Factory.Alike
import TaggedWire.Proofs.Binary.Shortest
import TaggedWire.Proofs.Binary.Reading
import TaggedWire.Proofs.Factory.Accepted
import TaggedWire.Proofs.Generation.Determined
import TaggedWire.Proofs.Plan.Calls
import TaggedWire.Proofs.Factory.Normalized
import TaggedWire.Proofs.Factory.Renamed
import TaggedWire.Proofs.Plan.Dimensions
import TaggedWire.Proofs.Factory.Rows
import TaggedWire.Proofs.Factory.Collections
import TaggedWire.Proofs.TypeRef.Grammar
import TaggedWire.Proofs.Generation.Requests
import TaggedWire.Proofs.Command.Printed
import TaggedWire.Proofs.Generation.Variables
import TaggedWire.Proofs.Value.Equivalence
import TaggedWire.Proofs.Wire.Writer
import TaggedWire.Proofs.Marshaller.Narrowed
