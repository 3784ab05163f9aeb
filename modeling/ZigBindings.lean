import ZigBindings.Main
import ZigBindings.Proofs.Crossing.Results
import ZigBindings.Proofs.Generate.Reachability
import ZigBindings.Proofs.Wrapper.Acceptance
import ZigBindings.Proofs.Crossing.Weave
import ZigBindings.Proofs.Crossing.Fetching
import ZigBindings.Proofs.Zig.Scoping
import ZigBindings.Proofs.Emission.Fresh
import ZigBindings.Proofs.Emission.Flow
import ZigBindings.Proofs.Emission.Plain
import ZigBindings.Proofs.Emission.Enclosing
import ZigBindings.Proofs.Emission.Weaving
import ZigBindings.Proofs.Wrapper.Locals
import ZigBindings.Proofs.Wrapper.Naming
import ZigBindings.Proofs.Generate.Contents
import ZigBindings.Proofs.Generate.Shadowing
import ZigBindings.Proofs.Name.Escaping
import ZigBindings.Proofs.World.Parsing
import ZigBindings.Proofs.Generate.Closed
import ZigBindings.Proofs.Generate.Namespaces
import ZigBindings.Proofs.Wrapper.Linkage
import ZigBindings.Proofs.Generate.Declarations
import ZigBindings.Proofs.Emission.Isolation
import ZigBindings.Proofs.CommandLine.Reports
import ZigBindings.Proofs.Crossing.Exact
import ZigBindings.Proofs.Zig.Pages
import ZigBindings.Proofs.Numeric.Plans
import ZigBindings.Proofs.Crossing.Shortcut
import ZigBindings.Proofs.Crossing.Areas
import ZigBindings.Proofs.Types.Payloads
import ZigBindings.Proofs.Types.Sizes
import ZigBindings.Proofs.World.Links
import ZigBindings.Proofs.World.Denotation
import ZigBindings.Proofs.Emission.StackEffect
import ZigBindings.Proofs.Name.Tokens
import ZigBindings.Proofs.Wrapper.Parameters
import ZigBindings.Proofs.Generate.Symbols
import ZigBindings.Proofs.CommandLine.Outputs
import ZigBindings.Proofs.Name.Spellings
import ZigBindings.Proofs.Generate.Splicing
import ZigBindings.Proofs.Emission.Requests
import ZigBindings.Proofs.Layout.Fields
