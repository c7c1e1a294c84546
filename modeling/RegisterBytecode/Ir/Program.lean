import RegisterBytecode.Ir.Body

/-!
# Programs

A program is a table of constants, among them the function bodies, and the index of the body
that runs first. Bodies refer to each other only by index, so a program may be cyclic.
-/

namespace RegisterBytecode

/-- A constant of a program. A float is given by its sixty-four bits. -/
inductive Constant where
  | nil
  | bool (value : Bool)
  | int (value : Int64)
  | float (bits : UInt64)
  | str (value : String)
  /-- A function body. -/
  | code (body : Body)
  deriving Inhabited

namespace Constant

/-- The short name of a constant's type. -/
def typeName : Constant → String
  | nil => "nil"
  | bool _ => "bool"
  | int _ => "int"
  | float _ => "float"
  | str _ => "string"
  | code _ => "code"

end Constant

/-- A table of constants and the index of the entry body. -/
structure Program where
  constants : Array Constant := #[]
  entry : ConstIndex := 0
  deriving Inhabited

namespace Program

/-- The constant at an index. -/
def get? (p : Program) (index : ConstIndex) : Option Constant := p.constants[index]?

/-- Append a constant; the first component is its index. -/
def addConstant (p : Program) (c : Constant) : ConstIndex × Program :=
  (p.constants.size, { p with constants := p.constants.push c })

/-- Append a function body; the first component is its index. -/
def addFunction (p : Program) (b : Body) : ConstIndex × Program :=
  p.addConstant (.code b)

/-- Append a function body and make it the entry; the first component is its index. -/
def setEntry (p : Program) (b : Body) : ConstIndex × Program :=
  let (index, p) := p.addFunction b
  (index, { p with entry := index })

end Program

end RegisterBytecode
