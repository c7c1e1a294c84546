import RegisterBytecode.Ir.Operator

/-!
# Opcodes

Every encoded instruction is an opcode byte, a fixed number of two-byte register operands and
at most one immediate. `Opcode.shape` says how many registers and which immediate, and the
length of an instruction follows from it. Opcodes of one family share a block of bytes: binary
operators lie in `0x20` to `0x3f`, unary ones in `0x40` to `0x47`.
-/

namespace RegisterBytecode

/-- The operation of an encoded instruction. -/
inductive Opcode where
  | nop | move | loadInt | loadStr | loadConst | loadClosure | bindUpvalue | newTable | clear
  | binary (op : BinaryOp)
  | unary (op : UnaryOp)
  | getIndex | setIndex
  | jump | jumpIf | jumpIfNot
  | push | call | tailCall | makeContinuation | makeTailContinuation | receive | receiveEtc
  | etcLookup | fillTable
  deriving DecidableEq, Repr, Inhabited

/-- The kind of immediate that follows the register operands. -/
inductive ImmediateKind where
  | none
  /-- One byte that is zero or not. -/
  | flag
  /-- One byte that is an index into a variadic tail. -/
  | index
  /-- A two-byte pool reference. -/
  | pool
  /-- A four-byte signed integer. -/
  | int
  /-- A length byte and that many bytes of text. -/
  | text
  /-- A four-byte signed distance from the end of the instruction. -/
  | offset
  deriving DecidableEq, Repr, Inhabited

/-- The number of bytes that an immediate always has; a text has more. -/
def ImmediateKind.size : ImmediateKind → Nat
  | none => 0
  | flag => 1
  | index => 1
  | pool => 2
  | int => 4
  | text => 1
  | offset => 4

/-- The layout of an instruction behind its opcode byte. -/
structure Shape where
  /-- The number of register operands. -/
  regs : Nat
  /-- The immediate behind them. -/
  immediate : ImmediateKind := .none
  deriving DecidableEq, Repr

/-- The number of bytes that a register operand takes. -/
def Operand.width : Nat := 2

/-- The number of bytes behind the opcode byte, without those of a text. -/
def Shape.size (s : Shape) : Nat := s.regs * Operand.width + s.immediate.size

namespace BinaryOp

/-- The opcode byte of a binary operator. -/
def byte : BinaryOp → UInt8
  | add => 0x20
  | sub => 0x21
  | mul => 0x22
  | div => 0x23
  | intDiv => 0x24
  | mod => 0x25
  | pow => 0x26
  | concat => 0x27
  | eq => 0x30
  | ne => 0x31
  | lt => 0x32
  | le => 0x33
  | gt => 0x34
  | ge => 0x35
  | bitAnd => 0x38
  | bitOr => 0x39
  | bitXor => 0x3a
  | shl => 0x3b
  | shr => 0x3c

/-- The name of a binary operator in a listing, as a list of words. -/
def words : BinaryOp → List String
  | add => ["add"]
  | sub => ["sub"]
  | mul => ["mul"]
  | div => ["div"]
  | intDiv => ["int", "div"]
  | mod => ["mod"]
  | pow => ["pow"]
  | concat => ["concat"]
  | eq => ["eq"]
  | ne => ["ne"]
  | lt => ["lt"]
  | le => ["le"]
  | gt => ["gt"]
  | ge => ["ge"]
  | bitAnd => ["bit", "and"]
  | bitOr => ["bit", "or"]
  | bitXor => ["bit", "xor"]
  | shl => ["shl"]
  | shr => ["shr"]

end BinaryOp

namespace UnaryOp

/-- The opcode byte of a unary operator. -/
def byte : UnaryOp → UInt8
  | neg => 0x40
  | not => 0x41
  | len => 0x42
  | bitNot => 0x43

/-- The name of a unary operator in a listing, as a list of words. -/
def words : UnaryOp → List String
  | neg => ["neg"]
  | not => ["not"]
  | len => ["len"]
  | bitNot => ["bit", "not"]

end UnaryOp

namespace Opcode

/-- Every opcode. -/
def all : List Opcode :=
  [nop, move, loadInt, loadStr, loadConst, loadClosure, bindUpvalue, newTable, clear]
    ++ BinaryOp.all.map binary ++ UnaryOp.all.map unary
    ++ [getIndex, setIndex, jump, jumpIf, jumpIfNot, push, call, tailCall, makeContinuation,
      makeTailContinuation, receive, receiveEtc, etcLookup, fillTable]

theorem mem_all (op : Opcode) : op ∈ all := by
  cases op with
  | binary op => cases op <;> decide
  | unary op => cases op <;> decide
  | _ => decide

/-- The byte that encodes an opcode. -/
def byte : Opcode → UInt8
  | nop => 0x00
  | move => 0x01
  | loadInt => 0x10
  | loadStr => 0x11
  | loadConst => 0x12
  | loadClosure => 0x13
  | bindUpvalue => 0x14
  | newTable => 0x15
  | clear => 0x16
  | binary op => op.byte
  | unary op => op.byte
  | getIndex => 0x48
  | setIndex => 0x49
  | jump => 0x50
  | jumpIf => 0x51
  | jumpIfNot => 0x52
  | push => 0x60
  | call => 0x61
  | tailCall => 0x62
  | makeContinuation => 0x63
  | makeTailContinuation => 0x64
  | receive => 0x65
  | receiveEtc => 0x66
  | etcLookup => 0x70
  | fillTable => 0x71

/-- The opcode that a byte encodes. -/
def ofByte? (b : UInt8) : Option Opcode := all.find? fun op ↦ op.byte == b

/-- Reading back the byte of an opcode gives the opcode. -/
theorem ofByte?_byte (op : Opcode) : ofByte? op.byte = some op := by
  cases op with
  | binary op => cases op <;> decide
  | unary op => cases op <;> decide
  | _ => decide

/-- No two bytes stand for one opcode. -/
theorem byte_of_ofByte? {b : UInt8} {op : Opcode} (h : ofByte? b = some op) : op.byte = b := by
  simpa using List.find?_some h

/-- The layout of an opcode's instructions. -/
def shape : Opcode → Shape
  | nop => ⟨0, .none⟩
  | move | bindUpvalue => ⟨2, .none⟩
  | loadInt => ⟨1, .int⟩
  | loadStr => ⟨1, .text⟩
  | loadConst | loadClosure => ⟨1, .pool⟩
  | newTable | clear => ⟨1, .none⟩
  | binary _ => ⟨3, .none⟩
  | unary _ => ⟨2, .none⟩
  | getIndex | setIndex => ⟨3, .none⟩
  | jump => ⟨0, .offset⟩
  | jumpIf | jumpIfNot => ⟨1, .offset⟩
  | push => ⟨1, .flag⟩
  | call | tailCall | makeContinuation | makeTailContinuation | receive | receiveEtc =>
    ⟨1, .none⟩
  | etcLookup | fillTable => ⟨2, .index⟩

/-- The number of bytes behind the opcode byte, without those of a text. -/
def operandSize (op : Opcode) : Nat := op.shape.size

/-- Where the distance of a jump stands, counted from the opcode byte. -/
def offsetPosition? (op : Opcode) : Option Nat :=
  if op.shape.immediate = .offset then some (1 + op.shape.regs * Operand.width) else none

/-- Whether the instruction may jump. -/
def isJump : Opcode → Bool
  | jump | jumpIf | jumpIfNot => true
  | _ => false

/-- Whether the instruction calls. -/
def isCall : Opcode → Bool
  | call | tailCall => true
  | _ => false

/-- Whether the instruction applies a binary operator. -/
def isBinary : Opcode → Bool
  | binary _ => true
  | _ => false

/-- Whether the instruction applies a unary operator. -/
def isUnary : Opcode → Bool
  | unary _ => true
  | _ => false

/-! ### Names -/

/-- The name of an opcode as a list of words. -/
def words : Opcode → List String
  | nop => ["nop"]
  | move => ["move"]
  | loadInt => ["load", "int"]
  | loadStr => ["load", "str"]
  | loadConst => ["load", "const"]
  | loadClosure => ["load", "closure"]
  | bindUpvalue => ["bind", "upvalue"]
  | newTable => ["new", "table"]
  | clear => ["clear"]
  | binary op => op.words
  | unary op => op.words
  | getIndex => ["get", "index"]
  | setIndex => ["set", "index"]
  | jump => ["jump"]
  | jumpIf => ["jump", "if"]
  | jumpIfNot => ["jump", "if", "not"]
  | push => ["push"]
  | call => ["call"]
  | tailCall => ["tail", "call"]
  | makeContinuation => ["make", "continuation"]
  | makeTailContinuation => ["make", "tail", "continuation"]
  | receive => ["receive"]
  | receiveEtc => ["receive", "etc"]
  | etcLookup => ["etc", "lookup"]
  | fillTable => ["fill", "table"]

/-- The name of an opcode in a listing, such as `load_int`. -/
def mnemonic (op : Opcode) : String := "_".intercalate op.words

/-- The name of an opcode in capitalised words, such as `LoadInt`. -/
def title (op : Opcode) : String := String.join (op.words.map String.capitalize)

end Opcode

end RegisterBytecode
