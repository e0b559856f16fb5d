import TypeEngine.Command
import TypeEngine.Engine.Adapter
import TypeEngine.Engine.Call
import TypeEngine.Engine.Compatibility
import TypeEngine.Engine.HostType
import TypeEngine.Engine.Inference
import TypeEngine.Engine.Member
import TypeEngine.Engine.Promotion
import TypeEngine.Engine.Ranking
import TypeEngine.Engine.Reach
import TypeEngine.Engine.Session
import TypeEngine.Engine.Supertypes
import TypeEngine.Host.Catalog
import TypeEngine.Host.Document
import TypeEngine.Host.File
import TypeEngine.Host.Ref
import TypeEngine.Main
import TypeEngine.Numeral
import TypeEngine.Options
import TypeEngine.Package.Catalog
import TypeEngine.Package.Check
import TypeEngine.Package.Constant
import TypeEngine.Package.Evaluate
import TypeEngine.Package.Load
import TypeEngine.Package.MethodSet
import TypeEngine.Package.Resolve
import TypeEngine.Package.Rounding
import TypeEngine.Package.Shape
import TypeEngine.Package.Source
import TypeEngine.Proofs.Engine.BaseChain
import TypeEngine.Proofs.Engine.Climb
import TypeEngine.Proofs.Engine.Conversion
import TypeEngine.Proofs.Engine.Ending
import TypeEngine.Proofs.Engine.Fit
import TypeEngine.Proofs.Engine.Freshness
import TypeEngine.Proofs.Engine.History
import TypeEngine.Proofs.Engine.Hygiene
import TypeEngine.Proofs.Engine.Independence
import TypeEngine.Proofs.Engine.Inference
import TypeEngine.Proofs.Engine.Inheritance
import TypeEngine.Proofs.Engine.Instance
import TypeEngine.Proofs.Engine.Limit
import TypeEngine.Proofs.Engine.Denotation
import TypeEngine.Proofs.Engine.Inverse
import TypeEngine.Proofs.Engine.Lineage
import TypeEngine.Proofs.Engine.Lockstep
import TypeEngine.Proofs.Engine.Member
import TypeEngine.Proofs.Engine.Neutral
import TypeEngine.Proofs.Engine.Nominal
import TypeEngine.Proofs.Engine.Operator
import TypeEngine.Proofs.Engine.Query
import TypeEngine.Proofs.Engine.Ranking
import TypeEngine.Proofs.Engine.Route
import TypeEngine.Proofs.Engine.Supertype
import TypeEngine.Proofs.Engine.Tracks
import TypeEngine.Proofs.Engine.Translation
import TypeEngine.Proofs.Engine.Twin
import TypeEngine.Proofs.Engine.Warning
import TypeEngine.Proofs.Firsts
import TypeEngine.Proofs.Host.Alias
import TypeEngine.Proofs.Host.Chain
import TypeEngine.Proofs.Host.File
import TypeEngine.Proofs.Host.History
import TypeEngine.Proofs.Host.Merge
import TypeEngine.Proofs.Host.Ref
import TypeEngine.Proofs.Host.RoundTrip
import TypeEngine.Proofs.Host.Search
import TypeEngine.Proofs.Host.Spelling
import TypeEngine.Proofs.Numeral
import TypeEngine.Proofs.Package.Catalog
import TypeEngine.Proofs.Package.Load
import TypeEngine.Proofs.Package.MethodSet
import TypeEngine.Proofs.Package.Outline
import TypeEngine.Proofs.Package.Promotion
import TypeEngine.Proofs.Proto.Blanks
import TypeEngine.Proofs.Proto.Catalog
import TypeEngine.Proofs.Proto.Closure
import TypeEngine.Proofs.Proto.Inquiry
import TypeEngine.Proofs.Proto.Linked
import TypeEngine.Proofs.Proto.Names
import TypeEngine.Proofs.Proto.Reach
import TypeEngine.Proofs.Proto.Sources
import TypeEngine.Proofs.Scope.Key
import TypeEngine.Proofs.Scope.Order
import TypeEngine.Proofs.Storage.Disk
import TypeEngine.Proofs.Storage.Key
import TypeEngine.Proofs.Storage.Location
import TypeEngine.Proofs.Storage.Reading
import TypeEngine.Proofs.Storage.Transparency
import TypeEngine.Proofs.Symbols.Conversion
import TypeEngine.Proofs.Symbols.Keys
import TypeEngine.Proofs.Symbols.Log
import TypeEngine.Proofs.Symbols.Nested
import TypeEngine.Proofs.Symbols.Registration
import TypeEngine.Proofs.Text.Blank
import TypeEngine.Proofs.Tree.Build
import TypeEngine.Proofs.Tree.Forest
import TypeEngine.Proofs.Tree.Links
import TypeEngine.Proofs.Tree.Ownership
import TypeEngine.Proofs.Tree.Traversal
import TypeEngine.Proofs.Ty.Canonical
import TypeEngine.Proofs.Ty.Chained
import TypeEngine.Proofs.Ty.Composition
import TypeEngine.Proofs.Ty.Congruence
import TypeEngine.Proofs.Ty.Equality
import TypeEngine.Proofs.Ty.Layers
import TypeEngine.Proofs.Ty.NormalForm
import TypeEngine.Proofs.Ty.Outcome
import TypeEngine.Proofs.Ty.Parts
import TypeEngine.Proofs.Ty.Peeling
import TypeEngine.Proofs.Ty.Reading
import TypeEngine.Proofs.Ty.Renaming
import TypeEngine.Proofs.Ty.RoundTrip
import TypeEngine.Proofs.Ty.Slots
import TypeEngine.Proofs.Ty.Substitution
import TypeEngine.Proofs.Ty.Tidy
import TypeEngine.Proofs.Ty.Unbroken
import TypeEngine.Proofs.Ty.WellFormed
import TypeEngine.Proofs.Ty.Writing
import TypeEngine.Proto.Catalog
import TypeEngine.Proto.Descriptor
import TypeEngine.Proto.Inquiry
import TypeEngine.Proto.Link
import TypeEngine.Proto.Parse
import TypeEngine.Proto.Token
import TypeEngine.Scope.Block
import TypeEngine.Scope.Path
import TypeEngine.Storage.Basic
import TypeEngine.Storage.Cache
import TypeEngine.Storage.Digest
import TypeEngine.Storage.Disk
import TypeEngine.Storage.Location
import TypeEngine.Storage.Open
import TypeEngine.Storage.Stamp
import TypeEngine.Symbols.Builtin
import TypeEngine.Symbols.Conversion
import TypeEngine.Symbols.Overload
import TypeEngine.Symbols.Table
import TypeEngine.Text.Blank
import TypeEngine.Text.Bytes
import TypeEngine.Text.Printable
import TypeEngine.Text.Quoted
import TypeEngine.Text.Uppercase
import TypeEngine.Tree.Basic
import TypeEngine.Tree.Build
import TypeEngine.Tree.Walk
import TypeEngine.Ty.Basic
import TypeEngine.Ty.Display
import TypeEngine.Ty.Fault
import TypeEngine.Ty.Parse
import TypeEngine.Ty.Shape
import TypeEngine.Ty.Subst
import TypeEngine.Ty.Text
import TypeEngine.Yaml.Node
import TypeEngine.Yaml.Printer
import TypeEngine.Yaml.Scalar
import TypeEngine.Yaml.Token
