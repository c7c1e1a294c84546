import RegisterBytecode.Code.Image
import RegisterBytecode.Text.FloatText
import RegisterBytecode.Text.Hex
import RegisterBytecode.Text.Quoted
import RegisterBytecode.Text.Utf8

/-!
# Listings

The readable form of an image: for each compiled body its counts and its instructions, then the
pool. The text of an instruction follows from the shape of its opcode. A listing never fails:
what cannot be read is shown as `???`, and an immediate that cannot be read as zero.
-/

namespace RegisterBytecode

/-- The text of a pool entry. -/
def Entry.text : Entry → String
  | nil => "nil"
  | bool b => if b then "true" else "false"
  | int v => toString v.toInt
  | float bits => Text.FloatText.ofBits bits
  | str s => Text.Quoted.quote s
  | function f => "<fn " ++ f.name ++ ">"

namespace Image

/-- What is shown for something that cannot be read. -/
def unreadable : String := "???"

/-- The text of the operand at an offset. -/
def operandText (m : Image) (offset : Nat) : String :=
  ((m.operand? offset).map Operand.text).getD unreadable

/-- The texts of the register operands of the instruction at an offset. -/
def regTexts (m : Image) (offset count : Nat) : List String :=
  (List.range count).map fun n ↦ m.operandText (offset + 1 + n * Operand.width)

/-- The text of a pool reference: the slot, and the entry in it. -/
def poolText (m : Image) (offset : Nat) : String :=
  let slot := ((m.uint16? offset).getD 0).toNat
  "#" ++ toString slot ++ " (" ++ ((m.entry? slot).map Entry.text).getD unreadable ++ ")"

/-- The offset behind the instruction at an offset. -/
def nextOffset (m : Image) (offset : Nat) : Nat := offset + (m.lengthAt? offset).getD 1

/-- The operands of the instruction at an offset, in the order of its opcode's shape. -/
def operandsText (m : Image) (op : Opcode) (offset : Nat) : String :=
  let regs := ", ".intercalate (m.regTexts offset op.shape.regs)
  let position := offset + 1 + op.shape.regs * Operand.width
  match op.shape.immediate with
  | .none => regs
  | .flag => if (m.byte? position).getD 0 = 0 then regs else regs ++ "..."
  | .index => regs ++ ", " ++ toString ((m.byte? position).getD 0).toNat
  | .pool => regs ++ ", " ++ m.poolText position
  | .int => regs ++ ", " ++ toString ((m.int32? position).getD 0).toInt
  | .text =>
    let bytes := (m.slice? (position + 1) (m.nextOffset offset)).getD []
    regs ++ ", " ++ Text.Quoted.quote (Text.Utf8.decode bytes)
  | .offset =>
    let arrow := "-> " ++ Text.Hex.padded 4 ((m.target? offset).getD 0)
    if regs.isEmpty then arrow else regs ++ " " ++ arrow

/-- The text of the instruction at an offset, and the offset behind it. -/
def instrText (m : Image) (offset : Nat) : String × Nat :=
  match m.opcode? offset with
  | none =>
    (unreadable ++ " (0x" ++ Text.Hex.padded 2 ((m.byte? offset).getD 0).toNat ++ ")", offset + 1)
  | some op =>
    let operands := m.operandsText op offset
    let text := if operands.isEmpty then op.mnemonic else op.mnemonic ++ " " ++ operands
    (text, m.nextOffset offset)

/-- The column that shows a source line, empty where none is known. -/
def lineColumn : Option Nat → String
  | none => ""
  | some line =>
    let digits := Nat.toDigits 10 line
    String.ofList (List.replicate (4 - digits.length) ' ' ++ digits ++ [' '])

/-- Append the listing line of the instruction at an offset. -/
def appendInstr (m : Image) (out : String) (offset : Nat) : String :=
  out ++ Text.Hex.padded 4 offset ++ " " ++ lineColumn (m.lineAt? offset) ++ " "
    ++ (m.instrText offset).1 ++ "\n"

/-- Append the listing of a body. -/
def appendFunction (m : Image) (out : String) (f : Function) : String :=
  let out := out ++ "=== " ++ f.name ++ " [" ++ Text.Hex.padded 4 f.range.start ++ ".."
    ++ Text.Hex.padded 4 f.range.stop ++ ") ===\n"
  let out := out ++ "registers: " ++ toString f.registers.toNat ++ ", cells: "
    ++ toString f.cells.toNat ++ ", upvalues: " ++ toString f.upvalues.toNat ++ "\n"
  (m.offsets f.range.start f.range.stop).foldl m.appendInstr out

/-- The listing of an image. -/
def listing (m : Image) : String :=
  let out := m.functions.foldl m.appendFunction ""
  let out := out ++ "constants: " ++ toString m.pool.size ++ "\n"
  m.pool.toList.zipIdx.foldl
    (fun out (e, i) ↦ out ++ "  #" ++ toString i ++ " " ++ e.text ++ "\n") out

end Image

end RegisterBytecode
