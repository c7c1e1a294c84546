import RegisterBytecode.Proofs.Code.Chunk

/-!
# Operations as chunks

What `Stream.emit` appends, stated once: the chunks of an operation (`Op.chunks`), which are its
bytes (`Op.bytes`) with a hole for the distance of a jump. Nothing here looks at the shape of an
opcode; that the bytes have the layout that a reader expects is a property of operations
(`Op.Fits`, next module), not of the stream.
-/

namespace RegisterBytecode

/-- The bytes of register operands. -/
def operandBytes (os : List Operand) : List UInt8 := os.flatMap fun o ↦ uint16Bytes o.encode

theorem length_operandBytes (os : List Operand) : (operandBytes os).length = 2 * os.length := by
  induction os with
  | nil => rfl
  | cons o os ih =>
    rw [operandBytes, List.flatMap_cons, List.length_append, length_uint16Bytes,
      ← operandBytes, ih, List.length_cons]
    omega

namespace Immediate

/-- The chunks of an immediate of a body's operation. -/
def chunks (body : Nat) : Immediate → List Chunk
  | .none => []
  | .byte b => [.raw [b]]
  | .pool slot => [.raw (uint16Bytes slot)]
  | .int v => [.raw (int32Bytes v)]
  | .text t => [.raw (t.utf8ByteSize.toUInt8 :: t.toUTF8.data.toList)]
  | .target l => [.hole body l]

/-- The bytes of an immediate, where a target is `d` bytes away. -/
def bytes (d : Int32) : Immediate → List UInt8
  | .none => []
  | .byte b => [b]
  | .pool slot => uint16Bytes slot
  | .int v => int32Bytes v
  | .text t => t.utf8ByteSize.toUInt8 :: t.toUTF8.data.toList
  | .target _ => int32Bytes d

/-- The label of a target. -/
def target? : Immediate → Option Label
  | .target l => some l
  | _ => Option.none

end Immediate

namespace Op

/-- The opcode and the register operands of an operation, as bytes. -/
def head (op : Op Operand) : List UInt8 := op.opcode.byte :: operandBytes op.regs

/-- The chunks of an operation of a body. -/
def chunks (body : Nat) (op : Op Operand) : List Chunk :=
  .raw op.head :: op.immediate.chunks body

/-- The bytes of an operation, where its target is `d` bytes away. -/
def bytes (d : Int32) (op : Op Operand) : List UInt8 := op.head ++ op.immediate.bytes d

/-- The number of bytes of an operation. -/
def size (op : Op Operand) : Nat := (op.bytes 0).length

/-- The distance that `dist` gives an operation of a body that ends at `stop`. -/
def distance (dist : Nat → Nat → Label → Int32) (stop body : Nat) (op : Op Operand) : Int32 :=
  match op.immediate.target? with
  | some l => dist stop body l
  | none => 0

theorem length_head (op : Op Operand) : op.head.length = 1 + 2 * op.regs.length := by
  rw [head, List.length_cons, length_operandBytes, Nat.add_comm]

/-- The number of bytes of an operation does not depend on the distance in it. -/
theorem length_bytes (d : Int32) (op : Op Operand) : (op.bytes d).length = op.size := by
  cases hi : op.immediate <;> simp [size, bytes, hi, Immediate.bytes, length_int32Bytes]

/-- Every operation has at least its opcode. -/
theorem size_pos (op : Op Operand) : 0 < op.size := by
  rw [size, bytes, List.length_append, length_head]
  omega

theorem total_chunks (body : Nat) (op : Op Operand) : Chunk.total (op.chunks body) = op.size := by
  cases hi : op.immediate <;>
    simp [chunks, size, bytes, hi, Immediate.bytes, Immediate.chunks, Chunk.size,
      length_int32Bytes]

/-- An operation renders as its bytes, with the distance from its end. -/
theorem render_chunks (dist : Nat → Nat → Label → Int32) (pos body : Nat) (op : Op Operand) :
    Chunk.render dist pos (op.chunks body) =
      op.bytes (op.distance dist (pos + op.size) body) := by
  rw [chunks, Chunk.render]
  cases hi : op.immediate with
  | target l =>
    have hsize : pos + op.head.length + 4 = pos + op.size := by
      rw [size, bytes, hi, Immediate.bytes, List.length_append, length_int32Bytes, Nat.add_assoc]
    simp [hi, bytes, Immediate.chunks, Immediate.bytes, Chunk.render, distance,
      Immediate.target?, hsize]
  | _ => simp [hi, bytes, Immediate.chunks, Immediate.bytes, Chunk.render]

end Op

namespace Stream

/-! ### Appending -/

/-- Appended bytes are one more raw chunk, as long as no patch is added. -/
theorem Lays.raw {s t : Stream} {cs : List Chunk} (h : s.Lays cs) {bytes : List UInt8}
    (hcode : t.code.toList = s.code.toList ++ bytes) (hpatches : t.patches = s.patches) :
    t.Lays (cs ++ [.raw bytes]) where
  code := by
    rw [hcode, h.code, Chunk.render_append, Chunk.render, Chunk.render, List.append_nil]
  patches := by
    rw [hpatches, h.patches, Chunk.patches_append, Chunk.patches, Chunk.patches, List.append_nil]

/-- A blank distance is one more hole, and its patch the last one. -/
theorem Lays.pushTarget {s : Stream} {cs : List Chunk} (h : s.Lays cs) (body : Nat)
    (label : Label) : (s.pushTarget body label).Lays (cs ++ [.hole body label]) where
  code := by
    have hblank : int32Bytes (Chunk.blank (0 + Chunk.total cs + 4) body label) =
        [0xff, 0xff, 0xff, 0xff] := by
      show int32Bytes (-1) = _
      decide
    rw [Chunk.render_append, Chunk.render, Chunk.render, List.append_nil, hblank, ← h.code]
    simp [Stream.pushTarget, pushBytes]
  patches := by
    rw [Chunk.patches_append, Chunk.patches, Chunk.patches, ← h.patches, Nat.zero_add, ← h.size]
    simp [Stream.pushTarget, pushBytes]

/-- Operands are appended as their bytes. -/
theorem pushOperands_eq (s : Stream) (os : List Operand) :
    s.pushOperands os = s.pushBytes (operandBytes os) := by
  induction os generalizing s with
  | nil => simp [pushOperands, pushBytes, operandBytes]
  | cons o os ih =>
    have hstep : s.pushOperands (o :: os) = (s.pushOperand o).pushOperands os := rfl
    have hcode : s.code ++ uint16Bytes o.encode ++ operandBytes os =
        s.code ++ operandBytes (o :: os) := Array.toList_inj.1 (by simp [operandBytes])
    rw [hstep, ih, pushOperand, pushUInt16, pushBytes, pushBytes, pushBytes, hcode]

/-- An immediate appends its chunks, whichever kind it is of. -/
theorem Lays.pushImmediate {s : Stream} {cs : List Chunk} (h : s.Lays cs) (body : Nat)
    (i : Immediate) : (s.pushImmediate body i).Lays (cs ++ i.chunks body) := by
  cases i with
  | none =>
    rw [Immediate.chunks, List.append_nil]
    exact h
  | byte b => exact h.raw (by simp [Stream.pushImmediate, pushByte]) rfl
  | pool slot => exact h.raw (by simp [Stream.pushImmediate, pushUInt16, pushBytes]) rfl
  | int v => exact h.raw (by simp [Stream.pushImmediate, pushInt32, pushBytes]) rfl
  | text t => exact h.raw (by simp [Stream.pushImmediate, pushText, pushByte, pushBytes]) rfl
  | target l => exact h.pushTarget body l

/-- **Emitting an operation appends its chunks.** -/
theorem Lays.emit {s : Stream} {cs : List Chunk} (h : s.Lays cs) (body : Nat)
    (op : Op Operand) : (s.emit body op).Lays (cs ++ op.chunks body) := by
  have hhead : ((s.pushOpcode op.opcode).pushOperands op.regs).Lays (cs ++ [.raw op.head]) := by
    refine h.raw ?_ ?_
    · rw [pushOperands_eq]
      unfold pushOpcode markLine
      split <;> simp [pushBytes, pushByte, Op.head]
    · rw [pushOperands_eq]
      unfold pushOpcode markLine
      split <;> rfl
  have := hhead.pushImmediate body op.immediate
  rwa [List.append_assoc] at this

end Stream

end RegisterBytecode
