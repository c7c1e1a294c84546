import RegisterBytecode.Code.Opcode
import RegisterBytecode.Ir.Instr

/-!
# Machine operations

An `Op` is one encoded instruction before it is bytes: an opcode, its register operands and its
immediate. It is generic in what a register is, so that a body is first lowered to operations on
virtual registers and storage is filled in afterwards (`Op.assign`). A jump still names its
label; the distance is known only once every body has its place.
-/

namespace RegisterBytecode

/-- What follows the register operands of an operation. -/
inductive Immediate where
  | none
  /-- A byte: a flag, or an index into a variadic tail. -/
  | byte (value : UInt8)
  /-- A reference to a pool entry. -/
  | pool (slot : UInt16)
  /-- An integer. -/
  | int (value : Int32)
  /-- A text, behind its length in bytes. -/
  | text (value : String)
  /-- The distance to a label. -/
  | target (label : Label)
  deriving DecidableEq, Repr, Inhabited

/-- An encoded instruction whose register operands are of type `ρ`. -/
structure Op (ρ : Type) where
  opcode : Opcode
  regs : List ρ
  immediate : Immediate := .none
  deriving DecidableEq, Repr

namespace Op

variable {ρ τ ε : Type}

/-- Choose storage for each register operand. -/
def assign (f : ρ → Except ε τ) (op : Op ρ) : Except ε (Op τ) :=
  match op.regs.mapM f with
  | .ok regs => .ok ⟨op.opcode, regs, op.immediate⟩
  | .error e => .error e

end Op

end RegisterBytecode
