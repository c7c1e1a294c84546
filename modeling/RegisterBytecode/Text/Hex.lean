/-!
# Hexadecimal text

Numbers and byte strings in lower-case hexadecimal digits.
-/

namespace RegisterBytecode.Text.Hex

/-- The lower-case digits of a number, without leading zeros. -/
def digits (n : Nat) : String := String.ofList (Nat.toDigits 16 n)

/-- The digits of a number, with zeros in front up to a given width. -/
def padded (width n : Nat) : String :=
  let ds := Nat.toDigits 16 n
  String.ofList (List.replicate (width - ds.length) '0' ++ ds)

/-- The digits of a number behind `0x`. -/
def literal (n : Nat) : String := "0x" ++ digits n

/-- Append the two digits of a byte. -/
def pushByte (s : String) (b : UInt8) : String :=
  (s.push (Nat.digitChar (b.toNat / 16))).push (Nat.digitChar (b.toNat % 16))

/-- The digits of a byte string, two for each byte. -/
def ofBytes (bytes : Array UInt8) : String := bytes.foldl pushByte ""

end RegisterBytecode.Text.Hex
