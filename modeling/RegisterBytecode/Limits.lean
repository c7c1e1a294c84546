/-!
# Limits of the encoding

The four capacities that the byte encoding imposes. A tagged operand keeps fourteen bits for
its index, a pool reference is a sixteen-bit word, a text carried inside an instruction is kept
short, and an index into a variadic tail is one byte.
-/

namespace RegisterBytecode

/-- Number of registers, of cells and of upvalues that an operand can address. -/
def operandLimit : Nat := 16384

/-- Number of pool entries that a pool reference can address. -/
def poolLimit : Nat := 65536

/-- Length in bytes of the longest text carried inside an instruction. -/
def inlineTextLimit : Nat := 15

/-- Number of elements of a variadic tail that an instruction can address. -/
def tailLimit : Nat := 256

end RegisterBytecode
