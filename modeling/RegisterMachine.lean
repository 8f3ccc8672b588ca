import RegisterMachine.Bytes.LittleEndian
import RegisterMachine.Bytes.Overwrite
import RegisterMachine.Text.Blank
import RegisterMachine.Text.Pieces
import RegisterMachine.Text.Quotation
import RegisterMachine.Text.Numeral
import RegisterMachine.Text.Utf8
import RegisterMachine.Fault
import RegisterMachine.Isa.Register
import RegisterMachine.Isa.Registers
import RegisterMachine.Isa.Opcode
import RegisterMachine.Isa.Alu
import RegisterMachine.Isa.Instruction
import RegisterMachine.Memory.Region
import RegisterMachine.Machine.Basic
import RegisterMachine.Machine.Step
import RegisterMachine.Machine.Run
import RegisterMachine.Machine.Host
import RegisterMachine.Assembly.Name
import RegisterMachine.Assembly.Error
import RegisterMachine.Assembly.Width
import RegisterMachine.Assembly.Statement
import RegisterMachine.Assembly.Operands
import RegisterMachine.Assembly.Directive
import RegisterMachine.Assembly.Assembler
import RegisterMachine.Assembly.Layout
import RegisterMachine.Proofs.Computations
import RegisterMachine.Proofs.Machine.Transition
import RegisterMachine.Proofs.Machine.Runs
import RegisterMachine.Proofs.Machine.Lockstep
import RegisterMachine.Proofs.Assembly.Placement
import RegisterMachine.Proofs.Assembly.Fields
import RegisterMachine.Proofs.Assembly.Linking
import RegisterMachine.Proofs.Assembly.Clause
import RegisterMachine.Proofs.Assembly.Reading
import RegisterMachine.Proofs.Assembly.Resolution
import RegisterMachine.Proofs.Isa.LinearDecoding
import RegisterMachine.Proofs.Text.Decimal
import RegisterMachine.Proofs.Assembly.Rendering
import RegisterMachine.Proofs.Machine.Fetching
import RegisterMachine.Proofs.Machine.Courses
import RegisterMachine.Proofs.Assembly.Operations
import RegisterMachine.Proofs.Machine.SourceExecution
import RegisterMachine.Proofs.Machine.Endings
import RegisterMachine.Proofs.Machine.Persistence
import RegisterMachine.Proofs.Machine.Recording
import RegisterMachine.Proofs.Machine.Pausing
import RegisterMachine.Proofs.Machine.Stopping
import RegisterMachine.Proofs.Machine.Confinement
import RegisterMachine.Proofs.Text.Quoting
import RegisterMachine.Proofs.Memory.Words
import RegisterMachine.Proofs.Machine.Stack
import RegisterMachine.Proofs.Assembly.Refusals
import RegisterMachine.Proofs.Assembly.Residue
import RegisterMachine.Proofs.Assembly.Representation
import RegisterMachine.Proofs.Assembly.Building
import RegisterMachine.Proofs.Assembly.Loading
import RegisterMachine.Proofs.Assembly.Limits
import RegisterMachine.Proofs.Assembly.History
import RegisterMachine.Proofs.Assembly.Relocation
import RegisterMachine.Proofs.Assembly.Composition
import RegisterMachine.Proofs.Machine.Strictness
import RegisterMachine.Proofs.Machine.ZeroExtension
import RegisterMachine.Proofs.Machine.History
import RegisterMachine.Proofs.Machine.SystemCalls
import RegisterMachine.Proofs.Machine.Skipping
import RegisterMachine.Proofs.Machine.Frame
import RegisterMachine.Proofs.Isa.Arithmetic
import RegisterMachine.Proofs.Machine.Calculation
import RegisterMachine.Proofs.Machine.Accounting
import RegisterMachine.Proofs.Assembly.OperationLines
import RegisterMachine.Proofs.Machine.ConstantLoading
import RegisterMachine.Proofs.Text.Grammar
import RegisterMachine.Proofs.Assembly.LiteralReading
import RegisterMachine.Proofs.Text.Items
import RegisterMachine.Proofs.Assembly.ConstantLines
import RegisterMachine.Proofs.Assembly.RangeDiagnosis
import RegisterMachine.Proofs.Assembly.OperandSlots
import RegisterMachine.Proofs.Assembly.Closing
import RegisterMachine.Proofs.Assembly.Substitution
import RegisterMachine.Proofs.Memory.Ranges
import RegisterMachine.Proofs.Machine.HostMemory
import RegisterMachine.Proofs.Machine.Resetting
import RegisterMachine.Proofs.Assembly.Prefixes
import RegisterMachine.Proofs.Text.Reformatting
import RegisterMachine.Proofs.Assembly.Mirroring
import RegisterMachine.Proofs.Assembly.Rewording
import RegisterMachine.Proofs.Assembly.Editing
import RegisterMachine.Proofs.Memory.Coherence
import RegisterMachine.Proofs.Machine.RegionAccess
