/-!
# Layout of TOML documents

Blanks, line ends and comments. A reader takes something off the front of a text and gives the
rest; it gives `none` where the text does not begin as required.
-/

namespace RegisterBytecode.Toml

/-- Take a value off the front of a text. -/
abbrev Reader (α : Type) := List Char → Option (α × List Char)

/-- Whether a character is a blank within a line. -/
def isBlank (c : Char) : Bool := c = ' ' || c = '\t'

/-- Whether a character may stand in a comment: anything but control characters, and a tab. -/
def isPlain (c : Char) : Bool := c = '\t' || (32 ≤ c.toNat && c.toNat ≠ 127)

/-- Skip blanks within a line. -/
def skipBlanks (s : List Char) : List Char := s.dropWhile isBlank

/-- Take a line end, which is a line feed with or without a carriage return before it. -/
def newline? : List Char → Option (List Char)
  | '\n' :: r => some r
  | '\r' :: '\n' :: r => some r
  | _ => none

/-- Skip a comment up to its line end. -/
def skipComment : List Char → List Char
  | '#' :: r => r.dropWhile isPlain
  | s => s

/-- Take what may stand behind the last item of a line, with the line end. The end of the text
ends a line as well. -/
def closeLine (s : List Char) : Option (List Char) :=
  match skipComment (skipBlanks s) with
  | [] => some []
  | s => newline? s

/-- Skip blanks, line ends and comments; `inComment` says whether a comment has begun. -/
def skipLayoutFrom (inComment : Bool) : List Char → List Char
  | [] => []
  | '\n' :: r => skipLayoutFrom false r
  | '\r' :: '\n' :: r => skipLayoutFrom false r
  | c :: r =>
    if inComment then
      if isPlain c then skipLayoutFrom true r else c :: r
    else if isBlank c then skipLayoutFrom false r
    else if c = '#' then skipLayoutFrom true r
    else c :: r

/-- Skip blanks, line ends and comments. -/
def skipLayout (s : List Char) : List Char := skipLayoutFrom false s

/-- Take a given text. -/
def exactly? : List Char → List Char → Option (List Char)
  | [], s => some s
  | _ :: _, [] => none
  | c :: cs, d :: s => if c = d then exactly? cs s else none

end RegisterBytecode.Toml
