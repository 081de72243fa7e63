import Schemata.Config.Decode
import Schemata.Descriptor.Lookup
import Schemata.Error.Encode
import Schemata.Proofs.Batch.Directory
import Schemata.Proofs.Batch.Report
import Schemata.Proofs.Batch.Union
import Schemata.Proofs.Grammar.Files
import Schemata.Proofs.Grammar.Refusals
import Schemata.Proofs.HandedOut
import Schemata.Proofs.Loading.Cycle
import Schemata.Source.Tree
import Schemata.Workspace
import Schemata.Proofs.Token.Scan
import Schemata.Proofs.Token.Segments
import Schemata.Proofs.Lowering.Structure
import Schemata.Proofs.Lowering.Nested
import Schemata.Proofs.Grammar.WellFormed
import Schemata.Proofs.Compiled
import Schemata.Proofs.Token.Layout
import Schemata.Proofs.Lowering.Bare
import Schemata.Proofs.Grammar.Placeless
import Schemata.Proofs.Layout
import Schemata.Proofs.Lowering.Flattened
import Schemata.Proofs.Lowering.Order
import Schemata.Proofs.Loading.Failure
import Schemata.Proofs.Batch.Sources
import Schemata.Proofs.Loading.Asked
import Schemata.Proofs.Resolver.Apart
import Schemata.Proofs.Batch.Spelling
import Schemata.Proofs.Batch.Limit
import Schemata.Proofs.Workspace
import Schemata.Proofs.Token.Unlexable
import Schemata.Proofs.Token.Rendered
import Schemata.Proofs.Loading.Blame
import Schemata.Proofs.Numbers
import Schemata.Proofs.Token.Lines
import Schemata.Proofs.Descriptor.Offence
import Schemata.Proofs.Grammar.Omission
import Schemata.Proofs.Path.Canonical
import Schemata.Proofs.Descriptor.Merge
import Schemata.Proofs.Descriptor.Decoding
import Schemata.Proofs.Resolver.Absolute
import Schemata.Proofs.Batch.Selected
import Schemata.Proofs.Grammar.Signs
import Schemata.Proofs.Loading.Calls
import Schemata.Proofs.Cursor.Run
