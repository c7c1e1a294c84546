/-!
# Big-endian words

Words of two and four bytes, most significant byte first. Signed words are written in two's
complement. Reading a word that was written gives the word back (`readUInt16_uint16Bytes`,
`readInt32_int32Bytes`).
-/

namespace RegisterBytecode

/-- The two bytes of a word. -/
def uint16Bytes (w : UInt16) : List UInt8 := [(w.toNat / 256).toUInt8, w.toNat.toUInt8]

/-- The word that two bytes form. -/
def readUInt16 (a b : UInt8) : UInt16 := (a.toNat * 256 + b.toNat).toUInt16

/-- The four bytes of a signed word. -/
def int32Bytes (v : Int32) : List UInt8 :=
  let n := v.toUInt32.toNat
  [(n / 16777216).toUInt8, (n / 65536).toUInt8, (n / 256).toUInt8, n.toUInt8]

/-- The signed word that four bytes form. -/
def readInt32 (a b c d : UInt8) : Int32 :=
  (a.toNat * 16777216 + b.toNat * 65536 + c.toNat * 256 + d.toNat).toUInt32.toInt32

theorem length_uint16Bytes (w : UInt16) : (uint16Bytes w).length = 2 := rfl

theorem length_int32Bytes (v : Int32) : (int32Bytes v).length = 4 := rfl

/-- Two bytes are read back as the word that they were written from. -/
theorem readUInt16_uint16Bytes (w : UInt16) :
    readUInt16 (w.toNat / 256).toUInt8 w.toNat.toUInt8 = w := by
  have h := w.toNat_lt
  apply UInt16.toNat_inj.1
  simp only [readUInt16, Nat.toUInt16, Nat.toUInt8, UInt16.toNat_ofNat', UInt8.toNat_ofNat']
  omega

/-- Four bytes are read back as the word that they were written from, with its sign. -/
theorem readInt32_int32Bytes (v : Int32) :
    readInt32 (v.toUInt32.toNat / 16777216).toUInt8 (v.toUInt32.toNat / 65536).toUInt8
      (v.toUInt32.toNat / 256).toUInt8 v.toUInt32.toNat.toUInt8 = v := by
  have h := v.toUInt32.toNat_lt
  have h' : (v.toUInt32.toNat / 16777216).toUInt8.toNat * 16777216
      + (v.toUInt32.toNat / 65536).toUInt8.toNat * 65536
      + (v.toUInt32.toNat / 256).toUInt8.toNat * 256 + v.toUInt32.toNat.toUInt8.toNat
        = v.toUInt32.toNat := by
    simp only [Nat.toUInt8, UInt8.toNat_ofNat']
    omega
  rw [readInt32, h']
  simp [Nat.toUInt32]

end RegisterBytecode
