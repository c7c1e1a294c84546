import RegisterBytecode.Alloc.Liveness
import RegisterBytecode.Alloc.Scan
import RegisterBytecode.Error

/-!
# Frames

A frame says where each register of a body lives. Captured locals live in heap cells, numbered in
ascending order of the locals, because a closure may outlive the frame; upvalues live in the
closure; every other local that the body mentions gets a register by linear scan. Each kind of
storage is limited to `operandLimit`. A captured upvalue is a fault and takes precedence over
every limit; of the limits, cells come first, then upvalues, then registers.
-/

namespace RegisterBytecode

/-- Storage chosen for the registers of one body. -/
structure Frame where
  /-- Storage of each local. -/
  homes : Std.TreeMap Nat Operand
  /-- The number of registers in use. -/
  registers : UInt16
  /-- The number of cells. -/
  cells : UInt16
  /-- The number of upvalues that the closure must hold. -/
  upvalues : UInt16

namespace Body

/-- Cells for the captured locals, in ascending order. -/
def cellHomes (b : Body) : Std.TreeMap Nat Operand :=
  b.captured.toList.zipIdx.foldl (fun t (r, i) ↦
    match r with
    | .loc n => t.insert n (.cell i.toUInt16)
    | .upval _ => t) ∅

/-- One more than the greatest upvalue index that is named or mentioned, or `0`. -/
def upvalueCount (b : Body) : Nat :=
  let named := b.upvalueNames.foldl (fun n k _ ↦ max n (k + 1)) 0
  b.regs.foldl (fun n r ↦
    match r with
    | .loc _ => n
    | .upval k => max n (k + 1)) named

end Body

namespace Frame

/-- Choose storage for the registers of a body. -/
def allocate (b : Body) : Except Stop Frame :=
  match b.captured.toList.find? Reg.isUpval with
  | some r => .error (.fault (.capturedUpvalue r b.name))
  | none =>
    if operandLimit < b.captured.size then
      .error (.error ⟨.cells b.name operandLimit, none⟩)
    else
      let upvalues := b.upvalueCount
      if operandLimit < upvalues then
        .error (.error ⟨.upvalues b.name operandLimit, none⟩)
      else
        match Scan.run b.liveSpans b.cellHomes with
        | none => .error (.error ⟨.registers b.name operandLimit, none⟩)
        | some (registers, homes) =>
          .ok ⟨homes, registers.toUInt16, b.captured.size.toUInt16, upvalues.toUInt16⟩

/-- The storage of a register. A local that the body never mentions has none. -/
def operand (f : Frame) : Reg → Except Fault Operand
  | .upval k => .ok (.upvalue k.toUInt16)
  | .loc n =>
    match f.homes[n]? with
    | some o => .ok o
    | none => .error (.undeclared (.loc n))

end Frame

end RegisterBytecode
