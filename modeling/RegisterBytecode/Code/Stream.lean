import RegisterBytecode.Code.LineTable
import RegisterBytecode.Code.Op
import RegisterBytecode.Code.Operand
import RegisterBytecode.Code.Word
import RegisterBytecode.Error
import Std.Data.TreeMap

/-!
# The instruction stream

A `Stream` is the byte stream under construction, shared by all bodies. Bytes are only appended,
with one exception: a jump is written with a blank distance and noted as a patch, and
`Stream.resolve` fills in the distances once every label has its place. Labels are scoped by the
ordinal of their body, so bodies may use the same numbers.

An opcode, and nothing else, records the current line.
-/

namespace RegisterBytecode

/-- A label together with the ordinal of the body that it belongs to. -/
abbrev LabelKey := Nat × Nat

/-- Labels are kept by body, then by number. -/
def LabelKey.order : LabelKey → LabelKey → Ordering :=
  compareLex (compareOn Prod.fst) (compareOn Prod.snd)

instance : Std.TransCmp LabelKey.order :=
  inferInstanceAs (Std.TransCmp (compareLex (compareOn Prod.fst) (compareOn Prod.snd)))

/-- A half-open range of stream offsets. -/
structure Range where
  start : Nat
  stop : Nat
  deriving DecidableEq, Repr, Inhabited

/-- Whether an offset lies in a range. -/
def Range.contains (r : Range) (offset : Nat) : Bool := r.start ≤ offset && offset < r.stop

/-- A jump whose distance is still blank. -/
structure Patch where
  /-- The ordinal of the body that the jump belongs to. -/
  body : Nat
  /-- The label that it leads to. -/
  label : Label
  /-- Where the distance stands. -/
  position : Nat
  /-- The end of the jump, from which the distance counts. -/
  origin : Nat
  deriving DecidableEq, Repr, Inhabited

/-- The byte stream under construction. -/
structure Stream where
  /-- Whether opcodes record lines. -/
  recordLines : Bool
  /-- The bytes so far. -/
  code : Array UInt8 := #[]
  /-- The lines recorded so far. -/
  lines : LineTable := {}
  /-- The source line of what is emitted next. -/
  line : Nat := 0
  /-- Offsets of the labels bound so far. -/
  labels : Std.TreeMap LabelKey Nat LabelKey.order := ∅
  /-- Jumps whose distance is blank, in order of emission. -/
  patches : Array Patch := #[]
  /-- The offset of the label bound last. -/
  lastLabel : Option Nat := none

namespace Stream

/-- The number of bytes so far, which is the offset of the next one. -/
def offset (s : Stream) : Nat := s.code.size

/-- Set the source line of what is emitted next. -/
def setLine (s : Stream) (line : Nat) : Stream := { s with line }

/-- Whether the label bound last stands at the end of the stream. -/
def labelAtEnd (s : Stream) : Bool := s.lastLabel = some s.code.size

/-- The last known line recorded so far. -/
def lastLine? (s : Stream) : Option Nat := s.lines.lastLine?

/-! ### Appending -/

/-- Append bytes. -/
def pushBytes (s : Stream) (bytes : List UInt8) : Stream :=
  { s with code := s.code ++ bytes }

/-- Append one byte. -/
def pushByte (s : Stream) (b : UInt8) : Stream := { s with code := s.code.push b }

/-- Append a two-byte word. -/
def pushUInt16 (s : Stream) (w : UInt16) : Stream := s.pushBytes (uint16Bytes w)

/-- Append a four-byte signed word. -/
def pushInt32 (s : Stream) (v : Int32) : Stream := s.pushBytes (int32Bytes v)

/-- Append the bytes of a text. -/
def pushText (s : Stream) (t : String) : Stream := s.pushBytes t.toUTF8.data.toList

/-- Append a register operand. -/
def pushOperand (s : Stream) (o : Operand) : Stream := s.pushUInt16 o.encode

/-- Append register operands in order. -/
def pushOperands (s : Stream) (os : List Operand) : Stream := os.foldl pushOperand s

/-- Record the current line at the end of the stream. -/
def markLine (s : Stream) : Stream :=
  if s.recordLines then { s with lines := s.lines.record s.code.size s.line } else s

/-- Append an opcode, which records the current line. -/
def pushOpcode (s : Stream) (op : Opcode) : Stream := s.markLine.pushByte op.byte

/-- Append a blank distance to a label of `body`, to be filled in later. -/
def pushTarget (s : Stream) (body : Nat) (label : Label) : Stream :=
  let position := s.code.size
  let s := s.pushBytes [0xff, 0xff, 0xff, 0xff]
  { s with patches := s.patches.push ⟨body, label, position, position + 4⟩ }

/-- Append an immediate of an operation of `body`. -/
def pushImmediate (s : Stream) (body : Nat) : Immediate → Stream
  | .none => s
  | .byte b => s.pushByte b
  | .pool slot => s.pushUInt16 slot
  | .int v => s.pushInt32 v
  | .text t => (s.pushByte t.utf8ByteSize.toUInt8).pushText t
  | .target l => s.pushTarget body l

/-- Append an operation of `body`. -/
def emit (s : Stream) (body : Nat) (op : Op Operand) : Stream :=
  ((s.pushOpcode op.opcode).pushOperands op.regs).pushImmediate body op.immediate

/-! ### Labels -/

/-- Bind a label of `body` at the end of the stream. -/
def bind (s : Stream) (body : Nat) (label : Label) : Stream :=
  { s with
    labels := s.labels.insert (body, label) s.code.size
    lastLabel := some s.code.size }

/-- Whether a label of `body` is bound. -/
def isBound (s : Stream) (body : Nat) (label : Label) : Bool := s.labels.contains (body, label)

/-- Bind a label of `body` that is not bound yet. -/
def bindNew (s : Stream) (body : Nat) (label : Label) : Except Fault Stream :=
  if s.isBound body label then .error (.boundTwice label body) else .ok (s.bind body label)

/-- Overwrite bytes from a position on; positions behind the end are left out. -/
def writeAt : List UInt8 → Nat → Array UInt8 → Array UInt8
  | [], _, code => code
  | b :: bytes, position, code => writeAt bytes (position + 1) (code.setIfInBounds position b)

/-- Overwrite the bytes at `position`. -/
def overwrite (s : Stream) (position : Nat) (bytes : List UInt8) : Stream :=
  { s with code := writeAt bytes position s.code }

/-- The signed distance from one offset to another, if it fits its four bytes. -/
def distance? (origin target : Nat) : Option Int32 :=
  let d : Int := target - origin
  if -2147483648 ≤ d ∧ d < 2147483648 then some (Int32.ofInt d) else none

/-- Fill in the distance of one jump. A jump may only lead into its own body. -/
def patch (s : Stream) (ranges : Array Range) (p : Patch) : Outcome Stream Unit :=
  match s.labels[(p.body, p.label)]? with
  | none => .fault (.undefinedLabel p.label p.body)
  | some target =>
    if (ranges[p.body]?).any (·.contains target) then
      match distance? p.origin target with
      | some d => .done () (s.overwrite p.position (int32Bytes d))
      | none => .failed ⟨.jumpRange p.origin target, s.lines.lastLineUpTo? p.position⟩ s
    else .fault (.outsideBody p.label target p.body)

/-- Fill in the distances of jumps in order. -/
def patchAll (ranges : Array Range) : List Patch → Stream → Outcome Stream Unit
  | [], s => .done () s
  | p :: ps, s => (s.patch ranges p).bind fun _ s ↦ patchAll ranges ps s

/-- Fill in the distance of every jump, where `ranges` holds the place of each body. -/
def resolve (s : Stream) (ranges : Array Range) : Outcome Stream Unit :=
  patchAll ranges s.patches.toList { s with patches := #[] }

end Stream

end RegisterBytecode
