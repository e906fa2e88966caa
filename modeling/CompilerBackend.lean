import CompilerBackend.Options.Reader
import CompilerBackend.Raise.Propagation
import CompilerBackend.Tree.Builder
import CompilerBackend.Lowering.ModuleText
import CompilerBackend.Proofs.Raise.Propagation
import CompilerBackend.Proofs.Raise.Behaviour
import CompilerBackend.Proofs.Constant.Key
import CompilerBackend.Proofs.Constant.Sharing
import CompilerBackend.Proofs.Target.Creation
import CompilerBackend.Proofs.Program.Table
import CompilerBackend.Proofs.Text.Lines
import CompilerBackend.Proofs.Lowering.Linking
import CompilerBackend.Proofs.Program.Stable
import CompilerBackend.Proofs.Program.Propagated
import CompilerBackend.Proofs.Program.Declarations
import CompilerBackend.Proofs.Program.Calls
import CompilerBackend.Proofs.Tree.Edited
import CompilerBackend.Proofs.Lowering.Listed
import CompilerBackend.Proofs.Lowering.Finally
import CompilerBackend.Proofs.Raise.Printed
import CompilerBackend.Proofs.Raise.Statements
import CompilerBackend.Proofs.Tree.Slots
import CompilerBackend.Proofs.Lowering.Fetching
import CompilerBackend.Proofs.Lowering.Conditions
import CompilerBackend.Proofs.Lowering.Markers
import CompilerBackend.Proofs.Lowering.Slices
import CompilerBackend.Proofs.Lowering.Containers
import CompilerBackend.Proofs.Scopes.Numbers
import CompilerBackend.Proofs.Lowering.Kept
import CompilerBackend.Proofs.Lowering.Survey
import CompilerBackend.Proofs.Lowering.Distinct
import CompilerBackend.Proofs.Text.Literals
import CompilerBackend.Proofs.Raise.Reported
import CompilerBackend.Proofs.Raise.Passes
import CompilerBackend.Proofs.Raise.Frame
import CompilerBackend.Proofs.Target.ModuleNames
import CompilerBackend.Proofs.Lowering.TraceLiterals
import CompilerBackend.Proofs.Lowering.Trail
import CompilerBackend.Proofs.Options.Reading
import CompilerBackend.Proofs.Tree.Traversals
import CompilerBackend.Proofs.Tree.Inert
import CompilerBackend.Proofs.Lowering.Accessed
