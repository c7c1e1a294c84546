import RegisterBytecode.Ir.Operator
import RegisterBytecode.Ir.Reg

/-!
# Instructions of a body

Instructions work on virtual registers and refer to constants by their index in the program's
table and to labels by number. What an analysis needs to know of an instruction is given by
three projections: the registers it touches (`Instr.regs`), the label it may jump to
(`Instr.target?`) and the label it binds (`Instr.binds?`).
-/

namespace RegisterBytecode

/-- A jump label. Labels belong to the body in which they appear. -/
abbrev Label := Nat

/-- An index into a program's table of constants. -/
abbrev ConstIndex := Nat

/-- One instruction of a body. -/
inductive Instr where
  /-- Copy a register. -/
  | move (dst src : Reg)
  /-- Load a constant. -/
  | load (dst : Reg) (constant : ConstIndex)
  /-- Apply a binary operator. -/
  | binary (op : BinaryOp) (dst lhs rhs : Reg)
  /-- Apply a unary operator. -/
  | unary (op : UnaryOp) (dst src : Reg)
  /-- Push a call argument or list element; `spread` expands a variadic tail. -/
  | push (src : Reg) (spread : Bool)
  /-- Jump to a label. -/
  | jump (target : Label)
  /-- Jump to a label when the condition is true, or when it is false if `negate` is set. -/
  | branch (cond : Reg) (target : Label) (negate : Bool)
  /-- Bind a label at this position. -/
  | label (label : Label)
  /-- Call the value of a register, in tail position or not. -/
  | call (tail : Bool) (callee : Reg)
  /-- Make a closure of a function body, capturing registers in order. -/
  | closure (dst : Reg) (function : ConstIndex) (captures : List Reg)
  /-- Take the current continuation, in tail position or not. -/
  | continuation (tail : Bool) (dst : Reg)
  /-- Drop the value of a register. -/
  | clear (reg : Reg)
  /-- Make an empty table. -/
  | newTable (dst : Reg)
  /-- Read an element of a table. -/
  | getIndex (dst table key : Reg)
  /-- Write an element of a table. -/
  | setIndex (table key value : Reg)
  /-- Bind call results in order; the remaining ones go to `etc` if it is given. -/
  | receive (dsts : List Reg) (etc : Option Reg)
  /-- Read an element of a variadic tail. -/
  | etcLookup (dst etc : Reg) (index : Nat)
  /-- Append a variadic tail to a table, from an index on. -/
  | fillTable (table etc : Reg) (start : Nat)
  deriving DecidableEq, Repr, Inhabited

namespace Instr

/-- The registers that an instruction reads or writes, in operand order. -/
def regs : Instr → List Reg
  | move dst src => [dst, src]
  | load dst _ => [dst]
  | binary _ dst lhs rhs => [dst, lhs, rhs]
  | unary _ dst src => [dst, src]
  | push src _ => [src]
  | jump _ => []
  | branch cond _ _ => [cond]
  | label _ => []
  | call _ callee => [callee]
  | closure dst _ captures => dst :: captures
  | continuation _ dst => [dst]
  | clear reg => [reg]
  | newTable dst => [dst]
  | getIndex dst table key => [dst, table, key]
  | setIndex table key value => [table, key, value]
  | receive dsts etc => dsts ++ etc.toList
  | etcLookup dst etc _ => [dst, etc]
  | fillTable table etc _ => [table, etc]

/-- The label that an instruction may jump to. -/
def target? : Instr → Option Label
  | jump target => some target
  | branch _ target _ => some target
  | _ => none

/-- The label that an instruction binds. -/
def binds? : Instr → Option Label
  | label l => some l
  | _ => none

end Instr

end RegisterBytecode
