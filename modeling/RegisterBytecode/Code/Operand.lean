import RegisterBytecode.Ir.Reg
import RegisterBytecode.Limits

/-!
# Operands

An operand names storage of the running machine: a register of the frame, a cell of the frame,
or an upvalue of the closure. It is encoded in one sixteen-bit word, the index above a two-bit
tag; the fourth tag is unused. Decoding undoes encoding for indices below `operandLimit`
(`Operand.decode_encode`), which are those that fourteen bits can hold.
-/

namespace RegisterBytecode

/-- Storage that an encoded instruction refers to. -/
inductive Operand where
  /-- A register of the current frame. -/
  | register (index : UInt16)
  /-- A cell of the current frame. -/
  | cell (index : UInt16)
  /-- An upvalue of the running closure. -/
  | upvalue (index : UInt16)
  deriving DecidableEq, Repr, Inhabited

namespace Operand

/-- The operand of an upvalue register. A local has none until storage is chosen for it. -/
def ofUpvalue? : Reg → Option Operand
  | .loc _ => none
  | .upval k => some (upvalue k.toUInt16)

/-- The index of an operand within its kind of storage. -/
def index : Operand → UInt16
  | register i => i
  | cell i => i
  | upvalue i => i

/-- The two-bit tag of an operand's kind of storage. -/
def tag : Operand → Nat
  | register _ => 0
  | cell _ => 1
  | upvalue _ => 2

/-- The word that encodes an operand. -/
def encode (o : Operand) : UInt16 := (o.index.toNat * 4 + o.tag).toUInt16

/-- The operand that a word encodes. -/
def decode (w : UInt16) : Option Operand :=
  let index := (w.toNat / 4).toUInt16
  match w.toNat % 4 with
  | 0 => some (register index)
  | 1 => some (cell index)
  | 2 => some (upvalue index)
  | _ => none

theorem tag_lt (o : Operand) : o.tag < 4 := by
  cases o <;> simp [tag]

/-- Within its limit an index and a tag share a word without overlapping. -/
theorem toNat_encode {o : Operand} (h : o.index.toNat < operandLimit) :
    o.encode.toNat = o.index.toNat * 4 + o.tag := by
  have ht := o.tag_lt
  unfold operandLimit at h
  simp only [encode, Nat.toUInt16, UInt16.toNat_ofNat']
  omega

/-- An operand whose index fits is read back from its word. -/
theorem decode_encode {o : Operand} (h : o.index.toNat < operandLimit) :
    decode o.encode = some o := by
  have ht := o.tag_lt
  have hq : (o.index.toNat * 4 + o.tag) / 4 = o.index.toNat := by omega
  have hr : (o.index.toNat * 4 + o.tag) % 4 = o.tag := by omega
  have hi : o.index.toNat.toUInt16 = o.index := by simp
  unfold decode
  rw [toNat_encode h, hq, hr, hi]
  cases o <;> rfl

/-- Registers are written `r3`, cells `c3` and upvalues `u3`. -/
def text : Operand → String
  | register i => "r" ++ toString i.toNat
  | cell i => "c" ++ toString i.toNat
  | upvalue i => "u" ++ toString i.toNat

end Operand

end RegisterBytecode
