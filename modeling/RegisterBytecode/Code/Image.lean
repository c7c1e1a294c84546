import RegisterBytecode.Code.LineTable
import RegisterBytecode.Code.Opcode
import RegisterBytecode.Code.Operand
import RegisterBytecode.Code.Stream
import RegisterBytecode.Code.Word

/-!
# Code images

An `Image` is a finished compilation: the instruction stream of all bodies, the constant pool in
order of first request, and the line table. The readers below take the stream apart again; each
gives `none` where the stream ends too early or holds no such thing.
-/

namespace RegisterBytecode

/-- What a machine needs to know of one compiled body. -/
structure Function where
  name : String
  /-- The place of the body in the stream. -/
  range : Range
  /-- The number of registers of a frame. -/
  registers : UInt16
  /-- The number of cells of a frame. -/
  cells : UInt16
  /-- The number of upvalues of a closure. -/
  upvalues : UInt16
  /-- Names of upvalues. -/
  upvalueNames : Std.TreeMap Nat String
  deriving Inhabited

/-- A compiled constant. -/
inductive Entry where
  | nil
  | bool (value : Bool)
  | int (value : Int64)
  | float (bits : UInt64)
  | str (value : String)
  | function (function : Function)
  deriving Inhabited

/-- The compiled body of an entry, if it is one. -/
def Entry.function? : Entry → Option Function
  | function f => some f
  | _ => none

/-- A finished compilation. -/
structure Image where
  code : Array UInt8 := #[]
  pool : Array Entry := #[]
  lines : LineTable := {}
  deriving Inhabited

namespace Image

/-- The number of bytes of the stream. -/
def size (m : Image) : Nat := m.code.size

/-- Whether the stream has no bytes. -/
def isEmpty (m : Image) : Bool := m.code.isEmpty

/-- A pool entry. -/
def entry? (m : Image) (slot : Nat) : Option Entry := m.pool[slot]?

/-- The compiled bodies, in pool order. -/
def functions (m : Image) : List Function := m.pool.toList.filterMap Entry.function?

/-- The body that runs first, which is the first pool entry. -/
def main? (m : Image) : Option Function := (m.pool[0]?).bind Entry.function?

/-! ### Readers -/

/-- The byte at an offset. -/
def byte? (m : Image) (offset : Nat) : Option UInt8 := m.code[offset]?

/-- The opcode at an offset. -/
def opcode? (m : Image) (offset : Nat) : Option Opcode := (m.byte? offset).bind Opcode.ofByte?

/-- The two-byte word at an offset. -/
def uint16? (m : Image) (offset : Nat) : Option UInt16 :=
  match m.code[offset]?, m.code[offset + 1]? with
  | some a, some b => some (readUInt16 a b)
  | _, _ => none

/-- The four-byte signed word at an offset. -/
def int32? (m : Image) (offset : Nat) : Option Int32 :=
  match m.code[offset]?, m.code[offset + 1]?, m.code[offset + 2]?, m.code[offset + 3]? with
  | some a, some b, some c, some d => some (readInt32 a b c d)
  | _, _, _, _ => none

/-- The register operand at an offset. -/
def operand? (m : Image) (offset : Nat) : Option Operand := (m.uint16? offset).bind Operand.decode

/-- The bytes from one offset up to another, if the stream has them all. -/
def slice? (m : Image) (start stop : Nat) : Option (List UInt8) :=
  if start ≤ stop ∧ stop ≤ m.code.size then some (m.code.extract start stop).toList else none

/-! ### Instructions -/

/-- The number of bytes of the instruction at an offset. -/
def lengthAt? (m : Image) (offset : Nat) : Option Nat :=
  match m.opcode? offset with
  | none => none
  | some op =>
    match op.shape.immediate with
    | .text =>
      (m.byte? (offset + 1 + op.shape.regs * Operand.width)).map fun n ↦
        1 + op.operandSize + n.toNat
    | _ => some (1 + op.operandSize)

/-- Every instruction has at least its opcode byte. -/
theorem lengthAt?_pos {m : Image} {offset n : Nat} (h : m.lengthAt? offset = some n) : 0 < n := by
  unfold lengthAt? at h
  split at h
  · cases h
  · split at h
    · simp only [Option.map_eq_some_iff] at h
      omega
    · cases h
      omega

/-- Offsets of the instructions from one offset up to another, in order. The walk stops behind
an offset at which no instruction can be read. -/
def offsets (m : Image) (start stop : Nat) : List Nat :=
  if start < stop then
    start :: match _h : m.lengthAt? start with
      | some n => m.offsets (start + n) stop
      | none => []
  else []
termination_by stop - start
decreasing_by
  have := lengthAt?_pos ‹_›
  omega

/-- The offset to which the jump at an offset leads. -/
def target? (m : Image) (offset : Nat) : Option Nat :=
  match m.opcode? offset with
  | none => none
  | some op =>
    match op.offsetPosition? with
    | none => none
    | some position =>
      match m.int32? (offset + position) with
      | none => none
      | some d =>
        let target : Int := offset + 1 + op.operandSize + d.toInt
        if 0 ≤ target then some target.toNat else none

/-- The source line at an offset. -/
def lineAt? (m : Image) (offset : Nat) : Option Nat := m.lines.lineAt? offset

end Image

end RegisterBytecode
