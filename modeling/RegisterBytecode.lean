import RegisterBytecode.Alloc.Frame
import RegisterBytecode.Alloc.Liveness
import RegisterBytecode.Alloc.Scan
import RegisterBytecode.Alloc.Span
import RegisterBytecode.Code.Image
import RegisterBytecode.Code.LineTable
import RegisterBytecode.Code.Listing
import RegisterBytecode.Code.Op
import RegisterBytecode.Code.Opcode
import RegisterBytecode.Code.Operand
import RegisterBytecode.Code.Stream
import RegisterBytecode.Code.Word
import RegisterBytecode.Config
import RegisterBytecode.Config.Toml
import RegisterBytecode.Error
import RegisterBytecode.Ir.Body
import RegisterBytecode.Ir.Instr
import RegisterBytecode.Ir.Operator
import RegisterBytecode.Ir.Program
import RegisterBytecode.Ir.Reg
import RegisterBytecode.Limits
import RegisterBytecode.Lowering
import RegisterBytecode.Proofs.Alloc.Apart
import RegisterBytecode.Proofs.Alloc.ControlFlow
import RegisterBytecode.Proofs.Alloc.FirstFit
import RegisterBytecode.Proofs.Alloc.Homes
import RegisterBytecode.Proofs.Alloc.Keyed
import RegisterBytecode.Proofs.Alloc.LeastSpans
import RegisterBytecode.Proofs.Alloc.Mentions
import RegisterBytecode.Proofs.Alloc.Optimal
import RegisterBytecode.Proofs.Alloc.Outcome
import RegisterBytecode.Proofs.Alloc.Renaming
import RegisterBytecode.Proofs.Alloc.Widening
import RegisterBytecode.Proofs.Code.Chunk
import RegisterBytecode.Proofs.Code.Edits
import RegisterBytecode.Proofs.Code.Encoding
import RegisterBytecode.Proofs.Code.KnownLines
import RegisterBytecode.Proofs.Code.Laying
import RegisterBytecode.Proofs.Code.Lines
import RegisterBytecode.Proofs.Code.Lowered
import RegisterBytecode.Proofs.Code.Mirror
import RegisterBytecode.Proofs.Code.Reading
import RegisterBytecode.Proofs.CompiledOnce
import RegisterBytecode.Proofs.Disassembly
import RegisterBytecode.Proofs.ErrorLines
import RegisterBytecode.Proofs.FrameBounds
import RegisterBytecode.Proofs.Inlining
import RegisterBytecode.Proofs.Landing
import RegisterBytecode.Proofs.LineRecording
import RegisterBytecode.Proofs.Meaning
import RegisterBytecode.Proofs.Names
import RegisterBytecode.Proofs.Numbering
import RegisterBytecode.Proofs.Patching
import RegisterBytecode.Proofs.Pool
import RegisterBytecode.Proofs.PoolLimit
import RegisterBytecode.Proofs.RecordedLines
import RegisterBytecode.Proofs.Retry
import RegisterBytecode.Proofs.Session.BreadthFirst
import RegisterBytecode.Proofs.Session.Calls
import RegisterBytecode.Proofs.Session.Constants
import RegisterBytecode.Proofs.Session.Emission
import RegisterBytecode.Proofs.Session.Finished
import RegisterBytecode.Proofs.Session.Growth
import RegisterBytecode.Proofs.Session.Halting
import RegisterBytecode.Proofs.Session.History
import RegisterBytecode.Proofs.Session.Layout
import RegisterBytecode.Proofs.Session.Mirror
import RegisterBytecode.Proofs.Session.Order
import RegisterBytecode.Proofs.Session.Queue
import RegisterBytecode.Proofs.SlotDiscipline
import RegisterBytecode.Proofs.SourceLines
import RegisterBytecode.Proofs.Tiling
import RegisterBytecode.Proofs.WellFormed
import RegisterBytecode.Session.Basic
import RegisterBytecode.Session.Credit
import RegisterBytecode.Session.Run
import RegisterBytecode.Text.DefaultIgnorable
import RegisterBytecode.Text.FloatText
import RegisterBytecode.Text.GraphemeExtend
import RegisterBytecode.Text.Hex
import RegisterBytecode.Text.Quoted
import RegisterBytecode.Text.Ranges
import RegisterBytecode.Text.Shortest
import RegisterBytecode.Text.Unprintable
import RegisterBytecode.Text.Utf8
import RegisterBytecode.Toml.Document
import RegisterBytecode.Toml.Layout
import RegisterBytecode.Toml.Moment
import RegisterBytecode.Toml.Node
import RegisterBytecode.Toml.Number
import RegisterBytecode.Toml.Text
import RegisterBytecode.Toml.Value
