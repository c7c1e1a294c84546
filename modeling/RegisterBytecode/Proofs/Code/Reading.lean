import RegisterBytecode.Code.Image
import RegisterBytecode.Proofs.Code.Encoding

/-!
# Reading operations back

A reader of an image knows the bytes and the shapes of opcodes, nothing else. `Image.read?` is
what it finds at an offset: an opcode, as many register operands as the opcode's shape asks for,
and the field that the shape announces behind them, as a number or as the bytes of a text. The
distance of a jump is left out of a `Reading`; where a jump leads is a matter of the layout of a
body.

The writer, for its part, never consults a shape. What ties the two together is `Op.Fits`: an
operation has the registers and the kind of immediate that its opcode announces. For such
operations, one after another, the walk over offsets stops exactly at each of them
(`Image.offsets_of_has`) and reads each of them (`Image.map_read?_of_has`).
-/

namespace RegisterBytecode

/-- What a reader finds behind the register operands of an instruction. -/
inductive Field where
  | none
  /-- A byte: a flag, or an index into a variadic tail. -/
  | byte (value : Nat)
  /-- A reference to a pool entry. -/
  | pool (slot : Nat)
  /-- An integer. -/
  | int (value : Int)
  /-- The bytes of a text. -/
  | text (bytes : List UInt8)
  /-- Some distance. -/
  | distance
  deriving DecidableEq, Repr

/-- An instruction as a reader finds it. -/
structure Reading where
  opcode : Opcode
  regs : List Operand
  field : Field := .none
  deriving DecidableEq, Repr

namespace Image

/-- Consecutive register operands from an offset on. -/
def operands? (m : Image) (offset : Nat) : Nat → Option (List Operand)
  | 0 => some []
  | n + 1 =>
    (m.operand? offset).bind fun o ↦
      (m.operands? (offset + Operand.width) n).map fun os ↦ o :: os

/-- The field of a kind of immediate at an offset. -/
def field? (m : Image) (offset : Nat) : ImmediateKind → Option Field
  | .none => some .none
  | .flag => (m.byte? offset).map fun b ↦ .byte b.toNat
  | .index => (m.byte? offset).map fun b ↦ .byte b.toNat
  | .pool => (m.uint16? offset).map fun w ↦ .pool w.toNat
  | .int => (m.int32? offset).map fun v ↦ .int v.toInt
  | .text =>
    (m.byte? offset).bind fun n ↦
      (m.slice? (offset + 1) (offset + 1 + n.toNat)).map .text
  | .offset => (m.int32? offset).map fun _ ↦ .distance

/-- The instruction at an offset. -/
def read? (m : Image) (offset : Nat) : Option Reading :=
  (m.opcode? offset).bind fun opcode ↦
    (m.operands? (offset + 1) opcode.shape.regs).bind fun regs ↦
      (m.field? (offset + 1 + opcode.shape.regs * Operand.width) opcode.shape.immediate).map
        fun field ↦ ⟨opcode, regs, field⟩

/-! ### Bytes at an offset -/

/-- An image holds bytes at an offset. -/
def Has (m : Image) (offset : Nat) (bytes : List UInt8) : Prop :=
  ∃ pre post, m.code.toList = pre ++ (bytes ++ post) ∧ pre.length = offset

/-- The first part of bytes stands where all of them do. -/
theorem Has.left {m : Image} {offset : Nat} {as bs : List UInt8} (h : m.Has offset (as ++ bs)) :
    m.Has offset as := by
  obtain ⟨pre, post, hcode, hlen⟩ := h
  exact ⟨pre, bs ++ post, by rw [hcode, List.append_assoc], hlen⟩

/-- The second part of bytes stands behind the first. -/
theorem Has.right {m : Image} {offset : Nat} {as bs : List UInt8} (h : m.Has offset (as ++ bs)) :
    m.Has (offset + as.length) bs := by
  obtain ⟨pre, post, hcode, hlen⟩ := h
  refine ⟨pre ++ as, post, by rw [hcode]; simp only [List.append_assoc], ?_⟩
  rw [List.length_append, hlen]

theorem Has.getElem? {m : Image} {offset : Nat} {bytes : List UInt8} (h : m.Has offset bytes)
    {j : Nat} (hj : j < bytes.length) : m.code[offset + j]? = bytes[j]? := by
  obtain ⟨pre, post, hcode, rfl⟩ := h
  rw [← Array.getElem?_toList, hcode, List.getElem?_append_right (Nat.le_add_right _ _),
    Nat.add_sub_cancel_left, List.getElem?_append_left hj]

theorem Has.byte? {m : Image} {offset : Nat} {b : UInt8} {bytes : List UInt8}
    (h : m.Has offset (b :: bytes)) : m.byte? offset = some b :=
  h.getElem? (Nat.zero_lt_succ _)

theorem Has.opcode? {m : Image} {offset : Nat} {op : Opcode} {bytes : List UInt8}
    (h : m.Has offset (op.byte :: bytes)) : m.opcode? offset = some op := by
  rw [Image.opcode?, h.byte?, Option.bind_some, Opcode.ofByte?_byte]

theorem Has.uint16? {m : Image} {offset : Nat} {w : UInt16} (h : m.Has offset (uint16Bytes w)) :
    m.uint16? offset = some w := by
  have h₀ := h.getElem? (j := 0) (by simp [length_uint16Bytes])
  have h₁ := h.getElem? (j := 1) (by simp [length_uint16Bytes])
  rw [Nat.add_zero] at h₀
  rw [Image.uint16?, h₀, h₁]
  exact congrArg some (readUInt16_uint16Bytes w)

theorem Has.int32? {m : Image} {offset : Nat} {v : Int32} (h : m.Has offset (int32Bytes v)) :
    m.int32? offset = some v := by
  have h₀ := h.getElem? (j := 0) (by simp [length_int32Bytes])
  have h₁ := h.getElem? (j := 1) (by simp [length_int32Bytes])
  have h₂ := h.getElem? (j := 2) (by simp [length_int32Bytes])
  have h₃ := h.getElem? (j := 3) (by simp [length_int32Bytes])
  rw [Nat.add_zero] at h₀
  rw [Image.int32?, h₀, h₁, h₂, h₃]
  exact congrArg some (readInt32_int32Bytes v)

theorem Has.slice? {m : Image} {offset : Nat} {bytes : List UInt8} (h : m.Has offset bytes) :
    m.slice? offset (offset + bytes.length) = some bytes := by
  obtain ⟨pre, post, hcode, rfl⟩ := h
  have hsize : pre.length + bytes.length ≤ m.code.size := by
    rw [← Array.length_toList, hcode, List.length_append, List.length_append]
    omega
  rw [Image.slice?, if_pos ⟨Nat.le_add_right _ _, hsize⟩, Array.toList_extract, hcode]
  simp

/-- Operands are read back, since every index is within the limit of its encoding. -/
theorem Has.operands? {m : Image} {offset : Nat} {os : List Operand}
    (h : m.Has offset (operandBytes os)) (ho : ∀ o ∈ os, o.index.toNat < operandLimit) :
    m.operands? offset os.length = some os := by
  induction os generalizing offset with
  | nil => rfl
  | cons o os ih =>
    have hword : m.Has offset (uint16Bytes o.encode ++ operandBytes os) := h
    have hfirst : m.operand? offset = some o := by
      rw [Image.operand?, hword.left.uint16?, Option.bind_some,
        Operand.decode_encode (ho o List.mem_cons_self)]
    have hrest := ih hword.right fun p hp ↦ ho p (List.mem_cons_of_mem _ hp)
    rw [length_uint16Bytes] at hrest
    rw [List.length_cons, Image.operands?, hfirst, Option.bind_some, Operand.width, hrest,
      Option.map_some]

end Image

/-! ### Operations that fit their opcode -/

/-- An immediate is of a kind. The length of a text fits its byte. -/
def Immediate.Fits : Immediate → ImmediateKind → Prop
  | .none, kind => kind = .none
  | .byte _, kind => kind = .flag ∨ kind = .index
  | .pool _, kind => kind = .pool
  | .int _, kind => kind = .int
  | .text t, kind => kind = .text ∧ t.utf8ByteSize < 256
  | .target _, kind => kind = .offset

/-- The number of bytes of an immediate that do not follow from its kind. -/
def Immediate.extra : Immediate → Nat
  | .text t => t.utf8ByteSize
  | _ => 0

/-- An immediate takes the bytes of its kind, and a text those of its characters in addition. -/
theorem Immediate.Fits.length_bytes {i : Immediate} {kind : ImmediateKind} (h : i.Fits kind)
    (d : Int32) : (i.bytes d).length = kind.size + i.extra := by
  cases i with
  | byte b => rcases h with rfl | rfl <;> rfl
  | text t =>
    obtain ⟨rfl, -⟩ := h
    exact Nat.add_comm _ _
  | _ =>
    rw [show kind = _ from h]
    rfl

theorem Immediate.Fits.exists_text {i : Immediate} {kind : ImmediateKind} (h : i.Fits kind)
    (hk : kind = .text) : ∃ t, i = .text t ∧ t.utf8ByteSize < 256 := by
  subst hk
  cases i with
  | text t => exact ⟨t, rfl, h.2⟩
  | byte b => rcases h with h | h <;> cases h
  | _ => cases h

theorem Immediate.Fits.extra_eq_zero {i : Immediate} {kind : ImmediateKind} (h : i.Fits kind)
    (hk : kind ≠ .text) : i.extra = 0 := by
  cases i with
  | text t => exact absurd h.1 hk
  | _ => rfl

/-- What a reader finds for an immediate. -/
def Immediate.field : Immediate → Field
  | .none => .none
  | .byte b => .byte b.toNat
  | .pool slot => .pool slot.toNat
  | .int v => .int v.toInt
  | .text t => .text t.toUTF8.data.toList
  | .target _ => .distance

namespace Op

/-- An operation has the registers and the immediate that its opcode announces. -/
structure Fits {ρ : Type} (op : Op ρ) : Prop where
  regs : op.regs.length = op.opcode.shape.regs
  immediate : op.immediate.Fits op.opcode.shape.immediate

/-- The operands of an operation fit their words. -/
def InLimits (op : Op Operand) : Prop := ∀ o ∈ op.regs, o.index.toNat < operandLimit

/-- What a reader finds for an operation. -/
def reading (op : Op Operand) : Reading := ⟨op.opcode, op.regs, op.immediate.field⟩

/-- An operation has as many operands as its opcode asks for. -/
theorem Fits.length_head {op : Op Operand} (hf : op.Fits) :
    op.head.length = 1 + op.opcode.shape.regs * Operand.width := by
  rw [Op.length_head, hf.regs, Operand.width, Nat.mul_comm]

/-- The size of an operation, as far as it follows from the opcode. -/
theorem Fits.size_eq {op : Op Operand} (hf : op.Fits) :
    op.size = 1 + op.opcode.operandSize + op.immediate.extra := by
  rw [size, bytes, List.length_append, hf.length_head, hf.immediate.length_bytes,
    Opcode.operandSize, Shape.size]
  omega

/-- The number of bytes of operations. -/
def total : List (Op Operand) → Nat
  | [] => 0
  | op :: ops => op.size + total ops

@[simp] theorem total_nil : total [] = 0 := rfl

@[simp] theorem total_cons (op : Op Operand) (ops : List (Op Operand)) :
    total (op :: ops) = op.size + total ops :=
  rfl

@[simp] theorem total_append (ops ops' : List (Op Operand)) :
    total (ops ++ ops') = total ops + total ops' := by
  induction ops with
  | nil => rw [List.nil_append, total_nil, Nat.zero_add]
  | cons op ops ih => rw [List.cons_append, total_cons, total_cons, ih, Nat.add_assoc]

theorem total_pos {ops : List (Op Operand)} (h : ops ≠ []) : 0 < total ops := by
  cases ops with
  | nil => exact absurd rfl h
  | cons op ops =>
    have := op.size_pos
    rw [total_cons]
    omega

theorem total_flatMap_chunks (body : Nat) (ops : List (Op Operand)) :
    Chunk.total (ops.flatMap (chunks body)) = total ops := by
  induction ops with
  | nil => rfl
  | cons op ops ih =>
    rw [List.flatMap_cons, Chunk.total_append, total_chunks, ih, total_cons]

/-- The offsets of operations, the first of which stands at `offset`. -/
def starts : Nat → List (Op Operand) → List Nat
  | _, [] => []
  | offset, op :: ops => offset :: starts (offset + op.size) ops

/-- An operation starts behind those before it. -/
theorem getElem?_starts_append {ops rest : List (Op Operand)} (h : rest ≠ []) (offset : Nat) :
    (starts offset (ops ++ rest))[ops.length]? = some (offset + total ops) := by
  induction ops generalizing offset with
  | nil =>
    cases rest with
    | nil => exact absurd rfl h
    | cons op rest => rfl
  | cons op ops ih =>
    rw [List.cons_append, starts, List.length_cons, List.getElem?_cons_succ, ih, total_cons,
      Nat.add_assoc]

end Op

/-- The length byte of a text counts its bytes. -/
theorem toNat_toUInt8_utf8ByteSize {t : String} (h : t.utf8ByteSize < 256) :
    t.utf8ByteSize.toUInt8.toNat = t.toUTF8.data.toList.length :=
  UInt8.toNat_ofNat_of_lt' h

namespace Image

/-- **An immediate is read back** by the kind that the opcode gives it. -/
theorem Has.field? {m : Image} {offset : Nat} {d : Int32} {i : Immediate} {kind : ImmediateKind}
    (h : m.Has offset (i.bytes d)) (hi : i.Fits kind) : m.field? offset kind = some i.field := by
  cases i with
  | none =>
    rw [show kind = .none from hi]
    rfl
  | byte b =>
    rcases hi with rfl | rfl
    · exact congrArg (Option.map fun b ↦ Field.byte b.toNat) h.byte?
    · exact congrArg (Option.map fun b ↦ Field.byte b.toNat) h.byte?
  | pool slot =>
    rw [show kind = .pool from hi]
    exact congrArg (Option.map fun w ↦ Field.pool w.toNat) h.uint16?
  | int v =>
    rw [show kind = .int from hi]
    exact congrArg (Option.map fun v ↦ Field.int v.toInt) h.int32?
  | text t =>
    obtain ⟨rfl, hlen⟩ := hi
    -- the byte in front gives the length of the slice, as it is not cut off
    have hcons : m.Has offset ([t.utf8ByteSize.toUInt8] ++ t.toUTF8.data.toList) := h
    have hslice := hcons.right.slice?
    rw [← toNat_toUInt8_utf8ByteSize hlen] at hslice
    rw [Image.field?, h.byte?, Option.bind_some]
    exact congrArg (Option.map Field.text) hslice
  | target l =>
    rw [show kind = .offset from hi]
    exact congrArg (Option.map fun _ ↦ Field.distance) h.int32?

/-- **An operation that fits is read back** where its bytes stand. -/
theorem Has.read? {m : Image} {offset : Nat} {d : Int32} {op : Op Operand}
    (h : m.Has offset (op.bytes d)) (hf : op.Fits) (hl : op.InLimits) :
    m.read? offset = some op.reading := by
  have hopcode : m.opcode? offset = some op.opcode := h.left.opcode?
  have hregs : m.operands? (offset + 1) op.opcode.shape.regs = some op.regs := by
    have hcons : m.Has offset ([op.opcode.byte] ++ operandBytes op.regs) := h.left
    rw [← hf.regs]
    exact hcons.right.operands? hl
  have hfield : m.field? (offset + 1 + op.opcode.shape.regs * Operand.width)
      op.opcode.shape.immediate = some op.immediate.field := by
    rw [Nat.add_assoc, ← hf.length_head]
    exact h.right.field? hf.immediate
  rw [Image.read?, hopcode, Option.bind_some, hregs, Option.bind_some, hfield, Option.map_some]
  rfl

/-- The walk over instructions steps over an operation that fits. Only for a text does the length
depend on more than the opcode. -/
theorem Has.lengthAt? {m : Image} {offset : Nat} {d : Int32} {op : Op Operand}
    (h : m.Has offset (op.bytes d)) (hf : op.Fits) : m.lengthAt? offset = some op.size := by
  have hopcode : m.opcode? offset = some op.opcode := h.left.opcode?
  rw [Image.lengthAt?, hopcode, hf.size_eq]
  dsimp only
  split
  · next hkind =>
    obtain ⟨t, ht, hlen⟩ := hf.immediate.exists_text hkind
    have hbyte : m.byte? (offset + 1 + op.opcode.shape.regs * Operand.width) =
        some t.utf8ByteSize.toUInt8 := by
      have hright := h.right
      rw [ht, hf.length_head, ← Nat.add_assoc] at hright
      exact hright.byte?
    rw [hbyte, Option.map_some, toNat_toUInt8_utf8ByteSize hlen, ht]
    rfl
  · next hkind => rw [hf.immediate.extra_eq_zero hkind, Nat.add_zero]

/-! ### Operations in a row -/

/-- Operations of a body that stand in a row, each with the distance that `dist` gives it. -/
theorem Has.cons_ops {m : Image} {dist : Nat → Nat → Label → Int32} {body offset : Nat}
    {op : Op Operand} {ops : List (Op Operand)}
    (h : m.Has offset (Chunk.render dist offset ((op :: ops).flatMap (Op.chunks body)))) :
    m.Has offset (op.bytes (op.distance dist (offset + op.size) body)) ∧
      m.Has (offset + op.size)
        (Chunk.render dist (offset + op.size) (ops.flatMap (Op.chunks body))) := by
  rw [List.flatMap_cons, Chunk.render_append, Op.total_chunks, Op.render_chunks] at h
  refine ⟨h.left, ?_⟩
  have hright := h.right
  rwa [Op.length_bytes] at hright

theorem offsets_self (m : Image) (offset : Nat) : m.offsets offset offset = [] := by
  rw [offsets, if_neg (Nat.lt_irrefl offset)]

/-- **A walk over operations that stand in a row** finds each of them, and then goes on behind the
last. -/
theorem offsets_append_of_has {m : Image} {dist : Nat → Nat → Label → Int32}
    {body offset stop : Nat} {ops : List (Op Operand)}
    (h : m.Has offset (Chunk.render dist offset (ops.flatMap (Op.chunks body))))
    (hf : ∀ op ∈ ops, op.Fits) (hstop : offset + Op.total ops ≤ stop) :
    m.offsets offset stop = Op.starts offset ops ++ m.offsets (offset + Op.total ops) stop := by
  induction ops generalizing offset with
  | nil => rfl
  | cons op ops ih =>
    obtain ⟨hop, hops⟩ := h.cons_ops
    have hlen := hop.lengthAt? (hf op List.mem_cons_self)
    have hpos := op.size_pos
    rw [Op.total_cons, ← Nat.add_assoc] at hstop ⊢
    have hrest := ih hops (fun x hx ↦ hf x (List.mem_cons_of_mem _ hx)) hstop
    rw [Op.starts, List.cons_append, ← hrest, offsets.eq_def m offset, if_pos (by omega)]
    congr 1
    split
    · next n hn => rw [Option.some.inj (hlen.symm.trans hn)]
    · next hn =>
      rw [hlen] at hn
      cases hn

/-- **The walk finds exactly the operations** that stand in a row. -/
theorem offsets_of_has {m : Image} {dist : Nat → Nat → Label → Int32} {body offset : Nat}
    {ops : List (Op Operand)}
    (h : m.Has offset (Chunk.render dist offset (ops.flatMap (Op.chunks body))))
    (hf : ∀ op ∈ ops, op.Fits) :
    m.offsets offset (offset + Op.total ops) = Op.starts offset ops := by
  rw [offsets_append_of_has h hf (Nat.le_refl _), offsets_self, List.append_nil]

/-- **Every operation in a row is read back.** -/
theorem map_read?_of_has {m : Image} {dist : Nat → Nat → Label → Int32} {body offset : Nat}
    {ops : List (Op Operand)}
    (h : m.Has offset (Chunk.render dist offset (ops.flatMap (Op.chunks body))))
    (hf : ∀ op ∈ ops, op.Fits) (hl : ∀ op ∈ ops, op.InLimits) :
    (Op.starts offset ops).map m.read? = ops.map fun op ↦ some op.reading := by
  induction ops generalizing offset with
  | nil => rfl
  | cons op ops ih =>
    obtain ⟨hop, hops⟩ := h.cons_ops
    have hread := hop.read? (hf op List.mem_cons_self) (hl op List.mem_cons_self)
    have hrest := ih hops (fun x hx ↦ hf x (List.mem_cons_of_mem _ hx))
      fun x hx ↦ hl x (List.mem_cons_of_mem _ hx)
    rw [Op.starts, List.map_cons, List.map_cons, hread, hrest]

end Image

end RegisterBytecode
