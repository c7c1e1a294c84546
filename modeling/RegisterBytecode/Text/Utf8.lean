/-!
# Reading UTF-8

`Utf8.decode` reads bytes as UTF-8 and never fails. Bytes that begin a character but are cut
short, as far as they could still have become one, are read as one replacement character, and so
is every byte that cannot begin a character. The decoder is a fold over the bytes; its state is
the character that has begun and is not complete.
-/

namespace RegisterBytecode.Text.Utf8

/-- A character of which some bytes are read. -/
structure Begun where
  /-- The bits read so far. -/
  bits : Nat
  /-- The number of bytes that are missing. -/
  missing : Nat
  /-- The least value that the next byte may have. -/
  low : Nat
  /-- The greatest value that the next byte may have. -/
  high : Nat

/-- What is read so far, last character first, and the character that has begun. -/
structure State where
  done : List Char := []
  begun : Option Begun := none

/-- The character that stands for bytes that are none. -/
def replacement : Char := '\ufffd'

/-- Read a byte at which no character has begun. -/
def first (done : List Char) (b : UInt8) : State :=
  let n := b.toNat
  if n < 0x80 then ⟨Char.ofNat n :: done, none⟩
  else if 0xc2 ≤ n ∧ n ≤ 0xdf then ⟨done, some ⟨n % 32, 1, 0x80, 0xbf⟩⟩
  else if n = 0xe0 then ⟨done, some ⟨0, 2, 0xa0, 0xbf⟩⟩
  else if n = 0xed then ⟨done, some ⟨13, 2, 0x80, 0x9f⟩⟩
  else if 0xe1 ≤ n ∧ n ≤ 0xef then ⟨done, some ⟨n % 16, 2, 0x80, 0xbf⟩⟩
  else if n = 0xf0 then ⟨done, some ⟨0, 3, 0x90, 0xbf⟩⟩
  else if 0xf1 ≤ n ∧ n ≤ 0xf3 then ⟨done, some ⟨n % 8, 3, 0x80, 0xbf⟩⟩
  else if n = 0xf4 then ⟨done, some ⟨4, 3, 0x80, 0x8f⟩⟩
  else ⟨replacement :: done, none⟩

/-- Read a byte. One that cannot continue the character that has begun starts anew. -/
def step (s : State) (b : UInt8) : State :=
  match s.begun with
  | none => first s.done b
  | some c =>
    if c.low ≤ b.toNat ∧ b.toNat ≤ c.high then
      let bits := c.bits * 64 + b.toNat % 64
      if c.missing = 1 then ⟨Char.ofNat bits :: s.done, none⟩
      else ⟨s.done, some ⟨bits, c.missing - 1, 0x80, 0xbf⟩⟩
    else first (replacement :: s.done) b

/-- Close the text; a character that is cut short is replaced. -/
def finish (s : State) : String :=
  match s.begun with
  | none => String.ofList s.done.reverse
  | some _ => String.ofList (replacement :: s.done).reverse

/-- The text that bytes stand for. -/
def decode (bytes : List UInt8) : String := finish (bytes.foldl step {})

end RegisterBytecode.Text.Utf8
