import ShaderIL.Assembler.Basic
import ShaderIL.Assembler.Draft
import ShaderIL.Assembler.Phase
import ShaderIL.Assembler.Program
import ShaderIL.Assembler.SlotTable
import ShaderIL.Assembler.Statement
import ShaderIL.Assembler.Target
import ShaderIL.BuildFile
import ShaderIL.Cache.Codec
import ShaderIL.Cache.Key
import ShaderIL.Cache.Store
import ShaderIL.CommandLine.Build
import ShaderIL.CommandLine.Duration
import ShaderIL.CommandLine.Flags
import ShaderIL.CommandLine.Integer
import ShaderIL.CommandLine.Request
import ShaderIL.CommandLine.Run
import ShaderIL.CommandLine.Shell
import ShaderIL.CommandLine.Style
import ShaderIL.CommandLine.Suggestion
import ShaderIL.CommandLine.Usage
import ShaderIL.CommandLine.World
import ShaderIL.Compile
import ShaderIL.Digest.Sha256
import ShaderIL.Error
import ShaderIL.Expr.Basic
import ShaderIL.Expr.Build
import ShaderIL.Expr.Emit
import ShaderIL.Expr.Store
import ShaderIL.Expr.Validate
import ShaderIL.Fault
import ShaderIL.Files.FileError
import ShaderIL.Files.Nearest
import ShaderIL.Files.Path
import ShaderIL.Files.Tree
import ShaderIL.Instruction
import ShaderIL.Kernel.MatMul
import ShaderIL.Kernel.NBody
import ShaderIL.Kernel.Registry
import ShaderIL.Kernel.Vocabulary
import ShaderIL.Lane.Swizzle
import ShaderIL.Lane.WriteMask
import ShaderIL.Literal
import ShaderIL.Main
import ShaderIL.Mnemonic
import ShaderIL.Number.FloatFormat
import ShaderIL.Number.Host
import ShaderIL.Number.Shortest
import ShaderIL.Operand
import ShaderIL.Operation.Arithmetic
import ShaderIL.Operation.BitField
import ShaderIL.Operation.Convert
import ShaderIL.Operation.Logic
import ShaderIL.Operation.Math
import ShaderIL.Operation.Opcode
import ShaderIL.Operation.Overload
import ShaderIL.Operation.Pattern
import ShaderIL.Operation.Table
import ShaderIL.Script.Cache
import ShaderIL.Script.Compile
import ShaderIL.Script.Operand
import ShaderIL.Script.Session
import ShaderIL.Script.Term
import ShaderIL.Text.Blank
import ShaderIL.Text.Bytes
import ShaderIL.Text.Case
import ShaderIL.Text.Printable
import ShaderIL.Text.Quoted
import ShaderIL.Toml.Document
import ShaderIL.Toml.Moment
import ShaderIL.Toml.Number
import ShaderIL.Toml.Quotation
import ShaderIL.Toml.Syntax
import ShaderIL.Toml.Value
import ShaderIL.ValueType
import ShaderIL.Proofs.Flow.Grammar
import ShaderIL.Proofs.Lane.Select
import ShaderIL.Proofs.Operation.Contract
import ShaderIL.Proofs.Operation.Soundness
import ShaderIL.Proofs.Draft
import ShaderIL.Proofs.Expr.Tree
import ShaderIL.Proofs.Expr.Emission
import ShaderIL.Proofs.Expr.Validation
import ShaderIL.Proofs.Machine.Basic
import ShaderIL.Proofs.Machine.Value
import ShaderIL.Proofs.Machine.Lines
import ShaderIL.Proofs.Machine.Operations
import ShaderIL.Proofs.Machine.Simulation
import ShaderIL.Proofs.Expr.Assignment
import ShaderIL.Proofs.Machine.Assign
import ShaderIL.Proofs.Expr.Definedness
import ShaderIL.Proofs.Assembler.Definedness
import ShaderIL.Proofs.Expr.Occurrence
import ShaderIL.Proofs.Expr.Places
import ShaderIL.Proofs.Text.Reading
import ShaderIL.Proofs.Assembler.Listing
import ShaderIL.Proofs.Expr.Registers
import ShaderIL.Proofs.Expr.Selection
import ShaderIL.Proofs.Expr.Context
import ShaderIL.Proofs.Number.Rounding
import ShaderIL.Proofs.Number.Lifting
import ShaderIL.Proofs.Assembler.Registers
import ShaderIL.Proofs.Assembler.Failure
import ShaderIL.Proofs.Assembler.Flow
import ShaderIL.Proofs.Expr.Renaming
import ShaderIL.Proofs.Assembler.Relocation
import ShaderIL.Proofs.Script.Trace
import ShaderIL.Proofs.Script.Independence
import ShaderIL.Proofs.Script.Provenance
import ShaderIL.Proofs.Script.Isolation
import ShaderIL.Proofs.Text.Lines
import ShaderIL.Proofs.Operation.References
import ShaderIL.Proofs.Assembler.Tables
import ShaderIL.Proofs.Expr.Uses
import ShaderIL.Proofs.Assembler.Acceptance
import ShaderIL.Proofs.Assembler.Header
import ShaderIL.Proofs.Assembler.Declarations
import ShaderIL.Proofs.Assembler.Literals
import ShaderIL.Proofs.Assembler.Counts
import ShaderIL.Proofs.Assembler.Verdict
import ShaderIL.Proofs.Machine.Retarget
import ShaderIL.Proofs.Expr.MultiplyAdd
import ShaderIL.Proofs.Machine.Merge
import ShaderIL.Proofs.Cache.Key
import ShaderIL.Proofs.Files.Tree
import ShaderIL.Proofs.Cache.Directory
import ShaderIL.Proofs.Cache.Transparency
import ShaderIL.Proofs.Text.Operand
import ShaderIL.Proofs.Expr.Names
import ShaderIL.Proofs.Expr.Field
import ShaderIL.Proofs.Expr.Address
import ShaderIL.Proofs.Expr.Cost
import ShaderIL.Proofs.Assembler.Effect
import ShaderIL.Proofs.Kernel.Vocabulary
import ShaderIL.Proofs.Kernel.MatMulCode
import ShaderIL.Proofs.Kernel.MatMul
import ShaderIL.Proofs.BuildFile
import ShaderIL.Proofs.Files.Nearest
import ShaderIL.Proofs.Operation.Lines
import ShaderIL.Proofs.Expr.Yield
import ShaderIL.Proofs.Assembler.Write
import ShaderIL.Proofs.Kernel.NBodyCode
import ShaderIL.Proofs.Kernel.NBody
