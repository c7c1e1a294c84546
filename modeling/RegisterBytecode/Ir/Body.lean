import RegisterBytecode.Ir.Instr

/-!
# Function bodies

A `Body` is one function: its instructions in order, the source line of each, the locals that
some nested closure captures, and the names of its own upvalues. The list of lines may be
shorter than the code; a missing line reads as `0`, which stands for an unknown line.
-/

namespace RegisterBytecode

/-- One function body. -/
structure Body where
  /-- The name used in descriptors and messages. -/
  name : String := ""
  /-- Instructions in order. -/
  code : Array Instr := #[]
  /-- Source line of each instruction. -/
  lines : Array Nat := #[]
  /-- Registers captured by at least one nested closure. -/
  captured : Std.TreeSet Reg := ∅
  /-- Names of the body's own upvalues. -/
  upvalueNames : Std.TreeMap Nat String := ∅
  deriving Inhabited

namespace Body

/-- Append an instruction that stems from `line`. -/
def push (b : Body) (line : Nat) (i : Instr) : Body :=
  { b with code := b.code.push i, lines := b.lines.push line }

/-- Declare that a nested closure captures `r`. -/
def capture (b : Body) (r : Reg) : Body :=
  { b with captured := b.captured.insert r }

/-- Name upvalue `index`; a later name replaces an earlier one. -/
def nameUpvalue (b : Body) (index : Nat) (name : String) : Body :=
  { b with upvalueNames := b.upvalueNames.insert index name }

/-- The number of instructions. -/
def size (b : Body) : Nat := b.code.size

/-- Whether the body has no instructions. -/
def isEmpty (b : Body) : Bool := b.code.isEmpty

/-- The source line of instruction `i`, and `0` where it is unknown. -/
def line (b : Body) (i : Nat) : Nat := b.lines[i]?.getD 0

/-- Instructions with their positions, in order. -/
def positioned (b : Body) : List (Instr × Nat) := b.code.toList.zipIdx

end Body

end RegisterBytecode
