import ThreeAddress.Diagnostic
import ThreeAddress.Lowering.Journal
import ThreeAddress.Source.Assembly
import ThreeAddress.Proofs.Lowering.Advance
import ThreeAddress.Proofs.Jumps
import ThreeAddress.Proofs.Labels.Program
import ThreeAddress.Proofs.Semantics.Program
import ThreeAddress.Proofs.Scope.Collect
import ThreeAddress.Proofs.Frames.Collected
import ThreeAddress.Proofs.Frames.Layout
import ThreeAddress.Proofs.Frames.Lowered
import ThreeAddress.Proofs.Frames.Program
import ThreeAddress.Proofs.Scope.Region
import ThreeAddress.Proofs.Semantics.Machine
import ThreeAddress.Proofs.Scope.Addresses
import ThreeAddress.Proofs.Reports.Program
import ThreeAddress.Proofs.Reports.Atomic
import ThreeAddress.Proofs.Names.Program
import ThreeAddress.Proofs.Temps.Program
import ThreeAddress.Proofs.Emission.Statements
import ThreeAddress.Proofs.Typing.Brackets
import ThreeAddress.Proofs.Typing.Paths
import ThreeAddress.Proofs.Operations.Program
import ThreeAddress.Proofs.Entries.Program
import ThreeAddress.Proofs.Normal.Program
import ThreeAddress.Proofs.Lockstep.Options
import ThreeAddress.Proofs.Lockstep.Positions
import ThreeAddress.Proofs.Lockstep.Appending
import ThreeAddress.Proofs.Regions.Lowered
import ThreeAddress.Proofs.Plans.Program
import ThreeAddress.Proofs.Scope.Consistent
import ThreeAddress.Proofs.Guards.Program
import ThreeAddress.Proofs.Effects.Operands
import ThreeAddress.Proofs.Literals.Padding
import ThreeAddress.Proofs.Extents.Positions
import ThreeAddress.Proofs.Extents.Loops
import ThreeAddress.Proofs.Calls.Program
import ThreeAddress.Proofs.Headers.Program
import ThreeAddress.Proofs.Text.Suggestions
import ThreeAddress.Proofs.Scope.Members
import ThreeAddress.Proofs.Frames.Inherited
import ThreeAddress.Proofs.Lowering.Journal
import ThreeAddress.Proofs.Scope.Course
import ThreeAddress.Proofs.Scope.Calls
import ThreeAddress.Proofs.Source.Assembly
import ThreeAddress.Proofs.Literals.Odometer
