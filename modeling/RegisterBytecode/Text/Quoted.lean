import RegisterBytecode.Text.DefaultIgnorable
import RegisterBytecode.Text.GraphemeExtend
import RegisterBytecode.Text.Hex
import RegisterBytecode.Text.Unprintable

/-!
# Quoted text

Text between double quotes. Quotes, backslashes and a few control characters are escaped by one
letter; a character that has no visible form, or that would merge with the one before it, is
written as its code point in braces.
-/

namespace RegisterBytecode.Text.Quoted

/-- The code point of a character in braces, behind `\u`. -/
def codePoint (c : Char) : String := "\\u\x7b" ++ Hex.digits c.toNat ++ "\x7d"

/-- The halfwidth sound marks, voiced and semi-voiced. They extend a grapheme, yet each is a letter
with a place of its own. -/
def isHalfwidthSoundMark (c : Char) : Bool := c == '\uff9e' || c == '\uff9f'

/-- Whether a character cannot be seen, or not apart from the one before it. -/
def isHidden (c : Char) : Bool :=
  (extendsGrapheme c && !isHalfwidthSoundMark c) || isDefaultIgnorable c || isUnprintable c

/-- The written form of one character. -/
def escape (c : Char) : String :=
  match c with
  | '\x00' => "\\0"
  | '\t' => "\\t"
  | '\n' => "\\n"
  | '\r' => "\\r"
  | '"' => "\\\""
  | '\\' => "\\\\"
  | c => if isHidden c then codePoint c else c.toString

/-- A text in quotes. -/
def quote (s : String) : String :=
  (s.foldl (fun out c ↦ out ++ escape c) "\"").push '"'

end RegisterBytecode.Text.Quoted
