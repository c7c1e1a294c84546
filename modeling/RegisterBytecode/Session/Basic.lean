import RegisterBytecode.Alloc.Frame
import RegisterBytecode.Code.Image
import RegisterBytecode.Lowering

/-!
# Compilation sessions

A session compiles constants on demand. Asking for a constant reserves the next pool slot and
queues it (`Session.request`); compiling a queued body may ask for further constants. Slots are
handed out in the order of first request and filled in the same order, so reservation and pool
agree.
-/

namespace RegisterBytecode

/-- The state of a compilation. -/
structure Session where
  /-- The instruction stream of all bodies. -/
  stream : Stream
  /-- Compiled constants, in order of their slots. -/
  pool : Array Entry := #[]
  /-- The slot reserved for each constant asked for. -/
  slots : Std.TreeMap ConstIndex UInt16 := ∅
  /-- Constants with a slot that are not compiled yet, in order. -/
  pending : Array ConstIndex := #[]
  /-- The place of each body, in order of compilation. -/
  ranges : Array Range := #[]

namespace Session

/-- The session at the start of a job. -/
def start (job : Job) : Session := { stream := { recordLines := job.config.recordLines } }

/-- The last known line recorded so far. -/
def lastLine? (s : Session) : Option Nat := s.stream.lastLine?

/-- The pool slot of a constant; the first request reserves it and queues the constant. -/
def request (job : Job) (index : ConstIndex) (s : Session) : Outcome Session UInt16 :=
  match s.slots[index]? with
  | some slot => .done slot s
  | none =>
    if s.slots.size < job.config.maxConstants then
      let slot := s.slots.size.toUInt16
      .done slot
        { s with slots := s.slots.insert index slot, pending := s.pending.push index }
    else .failed ⟨.constants job.config.maxConstants, none⟩ s

/-! ### Bodies -/

/-- Set the source line of what is emitted next. -/
def setLine (s : Session) (line : Nat) : Session := { s with stream := s.stream.setLine line }

/-- Bind a label of the body with a given ordinal. -/
def bind (ordinal : Nat) (label : Label) (s : Session) : Outcome Session Unit :=
  if s.stream.isBound ordinal label then .fault (.boundTwice label ordinal)
  else .done () { s with stream := s.stream.bind ordinal label }

/-- Ask for the constant that an instruction needs in the pool. -/
def supply (job : Job) (i : Instr) (s : Session) : Outcome Session Unit :=
  match job.demand i with
  | .error f => .fault f
  | .ok none => .done () s
  | .ok (some index) => (s.request job index).bind fun _ s ↦ .done () s

/-- Append operations of the body with a given ordinal. -/
def emitOps (ordinal : Nat) (ops : List (Op Operand)) (s : Session) : Session :=
  { s with stream := ops.foldl (fun st op ↦ st.emit ordinal op) s.stream }

/-- Append the operations of an instruction, whose constant has its slot. -/
def emitLowered (job : Job) (frame : Frame) (ordinal : Nat) (i : Instr) (s : Session) :
    Outcome Session Unit :=
  let slots := s.slots
  match (job.lower (fun index ↦ slots.getD index 0) i).mapM (Op.assign frame.operand) with
  | .error f => .fault f
  | .ok ops => .done () (s.emitOps ordinal ops)

/-- Compile one instruction that stems from `line`. -/
def emitInstr (job : Job) (frame : Frame) (ordinal line : Nat) (i : Instr) (s : Session) :
    Outcome Session Unit :=
  let s := s.setLine line
  match i.binds? with
  | some l => s.bind ordinal l
  | none => (s.supply job i).bind fun _ s ↦ s.emitLowered job frame ordinal i

/-- Compile instructions in order, each paired with its line. -/
def emitAll (job : Job) (frame : Frame) (ordinal : Nat) :
    List (Instr × Nat) → Session → Outcome Session Unit
  | [], s => .done () s
  | (i, line) :: rest, s =>
    (s.emitInstr job frame ordinal line i).bind fun _ s ↦ emitAll job frame ordinal rest s

/-- A label at the end of the stream still needs an instruction of its body behind it. -/
def padLabel (s : Session) : Session :=
  if s.stream.labelAtEnd then { s with stream := s.stream.pushOpcode .nop } else s

/-- Compile a body for which storage is chosen. Its place is noted before its first instruction,
as an empty range, and completed behind the last one. -/
def compileBody (job : Job) (body : Body) (frame : Frame) (s : Session) :
    Outcome Session Function :=
  let ordinal := s.ranges.size
  let start := s.stream.offset
  let s := { s with ranges := s.ranges.push ⟨start, start⟩ }
  let lined := body.positioned.map fun (i, pos) ↦ (i, body.line pos)
  (s.emitAll job frame ordinal lined).bind fun _ s ↦
    let s := s.padLabel
    let range : Range := ⟨start, s.stream.offset⟩
    .done
      { name := body.name
        range
        registers := frame.registers
        cells := frame.cells
        upvalues := frame.upvalues
        upvalueNames := body.upvalueNames }
      { s with ranges := s.ranges.setIfInBounds ordinal range }

/-! ### Constants -/

/-- Compile a constant into a pool entry. -/
def compileConstant (job : Job) (index : ConstIndex) (s : Session) : Outcome Session Entry :=
  match job.program.get? index with
  | none => .fault (.missingConstant index)
  | some .nil => .done .nil s
  | some (.bool b) => .done (.bool b) s
  | some (.int n) => .done (.int n) s
  | some (.float bits) => .done (.float bits) s
  | some (.str t) => .done (.str t) s
  | some (.code body) =>
    match Frame.allocate body with
    | .error stop => .ofStop s stop
    | .ok frame => (s.compileBody job body frame).bind fun f s ↦ .done (.function f) s

/-- Append an entry to the pool, at the slot that is reserved for its constant. -/
def fill (index : ConstIndex) (reserved : Option UInt16) (entry : Entry) (s : Session) :
    Outcome Session Unit :=
  if reserved = some s.pool.size.toUInt16 then .done () { s with pool := s.pool.push entry }
  else .fault (.slotMismatch index reserved s.pool.size)

/-- Compile constants in order. Those behind one that fails are not compiled. -/
def compileBatch (job : Job) : List ConstIndex → Session → Outcome Session Unit
  | [], s => .done () s
  | index :: rest, s =>
    let reserved := s.slots[index]?
    (s.compileConstant job index).bind fun entry s ↦
      (s.fill index reserved entry).bind fun _ s ↦ compileBatch job rest s

end Session

end RegisterBytecode
