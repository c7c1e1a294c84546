import RegisterBytecode.Toml.Text

/-!
# Numbers of TOML documents

Integers are decimal with an optional sign, or hexadecimal, octal or binary without one, and fit
sixty-four signed bits. Underscores may stand between digits. A float has a fraction or an
exponent, or is `inf` or `nan`; its value is only needed to refuse one that is too large.
-/

namespace RegisterBytecode.Toml

/-- Take further digits, each possibly behind one underscore. -/
def moreDigits (p : Char → Bool) : Reader (List Char)
  | [] => some ([], [])
  | [c] => if p c then some ([c], []) else if c = '_' then none else some ([], [c])
  | c :: d :: r =>
    if p c then (moreDigits p (d :: r)).map fun (cs, r) ↦ (c :: cs, r)
    else if c = '_' then
      if p d then (moreDigits p r).map fun (cs, r) ↦ (d :: cs, r) else none
    else some ([], c :: d :: r)

/-- Take digits, with underscores between them. -/
def digits (p : Char → Bool) : Reader (List Char)
  | c :: r => if p c then (moreDigits p r).map fun (cs, r) ↦ (c :: cs, r) else none
  | [] => none

/-- Take an optional sign; the value says whether it is a minus. -/
def sign : List Char → Bool × List Char
  | '+' :: r => (false, r)
  | '-' :: r => (true, r)
  | s => (false, s)

/-- Take the digits of a decimal number that has no leading zeros. -/
def wholeDigits : Reader (List Char)
  | '0' :: r => some (['0'], r)
  | s => digits Char.isDigit s

/-- The number that digits in a base stand for. -/
def natOf (base : Nat) (cs : List Char) : Nat :=
  cs.foldl (fun n c ↦ n * base + (hexValue? c).getD 0) 0

/-- An integer that fits sixty-four signed bits. -/
def fit64? (i : Int) : Option Int :=
  if -9223372036854775808 ≤ i ∧ i < 9223372036854775808 then some i else none

/-- Whether a character is a digit in a base of at most sixteen. -/
def isDigitIn (base : Nat) (c : Char) : Bool := (hexValue? c).any (· < base)

/-- Take the digits of an integer in a given base, behind its mark. -/
def based (base : Nat) (s : List Char) : Option (Int × List Char) :=
  match digits (isDigitIn base) s with
  | none => none
  | some (cs, r) => (fit64? (natOf base cs)).map (·, r)

/-- Take an integer. -/
def integer : Reader Int
  | '0' :: 'x' :: r => based 16 r
  | '0' :: 'o' :: r => based 8 r
  | '0' :: 'b' :: r => based 2 r
  | s =>
    let (negative, r) := sign s
    match wholeDigits r with
    | none => none
    | some (cs, r) =>
      let n : Int := natOf 10 cs
      (fit64? (if negative then -n else n)).map (·, r)

/-! ### Floats -/

/-- Whether a decimal is too large for a float: it lies half a step above the largest one or
higher. -/
def overflows (digits : List Char) (exponent : Int) : Bool :=
  let n := natOf 10 digits
  let magnitude := exponent + digits.length
  if n = 0 ∨ magnitude < 300 then false
  else if 310 + digits.length < magnitude then true
  else (Nat.pow 2 1024 - Nat.pow 2 970) * Nat.pow 10 (-exponent).toNat ≤
    n * Nat.pow 10 exponent.toNat

/-- Take an exponent behind its mark. -/
def exponentTail (s : List Char) : Option (Int × List Char) :=
  let (negative, r) := sign s
  (digits Char.isDigit r).map fun (cs, r) ↦
    let n : Int := natOf 10 cs
    (if negative then -n else n, r)

/-- Take an exponent with its mark. -/
def exponent : Reader Int
  | 'e' :: r => exponentTail r
  | 'E' :: r => exponentTail r
  | _ => none

/-- Take what makes a decimal number a float: a fraction with an optional exponent, or an
exponent. The value is the fraction's digits and the exponent. -/
def floatTail : Reader (List Char × Int)
  | '.' :: r =>
    match digits Char.isDigit r with
    | none => none
    | some (fraction, r) =>
      match r with
      | 'e' :: t => (exponentTail t).map fun (e, r) ↦ ((fraction, e), r)
      | 'E' :: t => (exponentTail t).map fun (e, r) ↦ ((fraction, e), r)
      | r => some ((fraction, 0), r)
  | s => (exponent s).map fun (e, r) ↦ (([], e), r)

/-- Take a float that is written as a word. -/
def specialFloat (s : List Char) : Option (List Char) :=
  match exactly? "inf".toList s with
  | some r => some r
  | none => exactly? "nan".toList s

/-- Take a float. A positive one may not be too large. -/
def float (s : List Char) : Option (List Char) :=
  let (negative, r) := sign s
  match wholeDigits r with
  | none => specialFloat r
  | some (whole, r) =>
    match floatTail r with
    | none => none
    | some ((fraction, e), r) =>
      if !negative && overflows (whole ++ fraction) (e - fraction.length) then none else some r

end RegisterBytecode.Toml
