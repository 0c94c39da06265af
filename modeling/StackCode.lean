import StackCode.Binary
import StackCode.Builtin
import StackCode.CompileError
import StackCode.Console
import StackCode.Decimal.Reader
import StackCode.Decimal.Shortest
import StackCode.Decimal.Style
import StackCode.DecodeError
import StackCode.Element
import StackCode.Emitter
import StackCode.Fault
import StackCode.Generator.Context
import StackCode.Generator.Expr
import StackCode.Generator.Stmt
import StackCode.Generator.Typing
import StackCode.Instruction
import StackCode.Instruction.Codec
import StackCode.Kind
import StackCode.Listing
import StackCode.Machine.Conversion
import StackCode.Machine.Frame
import StackCode.Machine.Operation
import StackCode.Machine.Step
import StackCode.Numeral
import StackCode.Opcode
import StackCode.Operation
import StackCode.Program
import StackCode.Scope
import StackCode.Session
import StackCode.Stream
import StackCode.Syntax.DataType
import StackCode.Syntax.Expr
import StackCode.Syntax.Stmt
import StackCode.Table
import StackCode.Text.Blank
import StackCode.Text.Hidden
import StackCode.Text.Joined
import StackCode.Text.Quoted
import StackCode.Value
import StackCode.Width
import StackCode.Proofs.Codec
import StackCode.Proofs.Framing
import StackCode.Proofs.Ensures
import StackCode.Proofs.Steps
import StackCode.Proofs.VerifiedRun
import StackCode.Proofs.Code
import StackCode.Proofs.Generated
import StackCode.Proofs.AlignedCode
import StackCode.Proofs.Meaning
import StackCode.Proofs.Simulation
import StackCode.Proofs.Instructions
import StackCode.Proofs.Carried
import StackCode.Proofs.CarriedStatements
import StackCode.Proofs.Correctness
import StackCode.Proofs.Shapes
import StackCode.Proofs.Typing
import StackCode.Proofs.Safety
import StackCode.Proofs.SafeTrees
import StackCode.Proofs.Soundness
import StackCode.Proofs.CodecInverse
import StackCode.Proofs.Moves
import StackCode.Proofs.RecursiveCalls
import StackCode.Proofs.CallIsolation
import StackCode.Proofs.Heights
import StackCode.Proofs.BalancedCode
import StackCode.Proofs.NestedCalls
import StackCode.Proofs.RaisedLimits
import StackCode.Proofs.Dispatcher
import StackCode.Proofs.DispatcherAgreement
import StackCode.Proofs.ResourceBounds
import StackCode.Proofs.FailedSteps
import StackCode.Proofs.ScopeSeparation
import StackCode.Proofs.Locality
import StackCode.Proofs.Relocation
import StackCode.Proofs.Composition
import StackCode.Proofs.Noninterference
import StackCode.Proofs.LoopFree
import StackCode.Proofs.UniqueFraming
import StackCode.Proofs.Numerals
import StackCode.Proofs.JumpAgreement
import StackCode.Proofs.EmitterUse
import StackCode.Proofs.Visits
import StackCode.Proofs.WriteOnce
import StackCode.Proofs.ElementLens
import StackCode.Proofs.FilledArrays
import StackCode.Proofs.StackEffects
import StackCode.Proofs.WrappedIntegers
import StackCode.Proofs.IntegerTrees
import StackCode.Proofs.AllocationSize
import StackCode.Proofs.ReturnedLiterals
import StackCode.Proofs.StoredKinds
import StackCode.Proofs.PaddedLiterals
import StackCode.Proofs.MovedFunctions
import StackCode.Proofs.WidthConversions
import StackCode.Proofs.IntegerTexts
import StackCode.Proofs.TextOrder
import StackCode.Proofs.FaithfulListings
