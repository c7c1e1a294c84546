import RegisterBytecode.Toml.Layout

/-!
# Dates and times of TOML documents

A moment is a date, a time of day, or a date and a time with an optional offset. Only its form is
checked: months have their days, hours go up to 23, minutes up to 59 and seconds up to 60.
-/

namespace RegisterBytecode.Toml

/-- Take a number of exactly `n` digits. -/
def fixedDigits : Nat → Nat → Reader Nat
  | 0, acc, s => some (acc, s)
  | n + 1, acc, c :: r => if c.isDigit then fixedDigits n (acc * 10 + (c.toNat - 48)) r else none
  | _ + 1, _, [] => none

/-- Take a number of two digits within bounds. -/
def twoDigits (low high : Nat) (s : List Char) : Option (Nat × List Char) :=
  match fixedDigits 2 0 s with
  | some (n, r) => if low ≤ n ∧ n ≤ high then some (n, r) else none
  | none => none

/-- Whether a year has a leap day. -/
def isLeap (year : Nat) : Bool := year % 4 = 0 && (year % 100 ≠ 0 || year % 400 = 0)

/-- The number of days of a month. -/
def daysIn (year month : Nat) : Nat :=
  if month = 2 then if isLeap year then 29 else 28
  else if month = 4 ∨ month = 6 ∨ month = 9 ∨ month = 11 then 30
  else 31

/-- Take a date. -/
def date (s : List Char) : Option (List Char) := do
  let (year, s) ← fixedDigits 4 0 s
  let s ← exactly? ['-'] s
  let (month, s) ← twoDigits 1 12 s
  let s ← exactly? ['-'] s
  let (day, s) ← twoDigits 1 31 s
  if day ≤ daysIn year month then some s else none

/-- Take the fraction of a second, if there is one. -/
def secondFraction : List Char → Option (List Char)
  | '.' :: c :: r => if c.isDigit then some (r.dropWhile Char.isDigit) else none
  | ['.'] => none
  | s => some s

/-- Take a time of day. -/
def time (s : List Char) : Option (List Char) := do
  let (_, s) ← twoDigits 0 23 s
  let s ← exactly? [':'] s
  let (_, s) ← twoDigits 0 59 s
  let s ← exactly? [':'] s
  let (_, s) ← twoDigits 0 60 s
  secondFraction s

/-- Take an offset in hours and minutes, behind its sign. -/
def offsetTail (s : List Char) : Option (List Char) := do
  let (_, s) ← twoDigits 0 23 s
  let s ← exactly? [':'] s
  let (_, s) ← twoDigits 0 59 s
  some s

/-- Take the offset of a time, if there is one. -/
def offset : List Char → Option (List Char)
  | 'Z' :: r => some r
  | 'z' :: r => some r
  | '+' :: r => offsetTail r
  | '-' :: r => offsetTail r
  | s => some s

/-- Whether a character may stand between a date and a time. -/
def isTimeMark (c : Char) : Bool := c = 'T' || c = 't' || c = ' '

/-- Take a date or a time or both. A date may be followed by something that is no time. -/
def moment (s : List Char) : Option (List Char) :=
  match date s with
  | none => time s
  | some r =>
    match r with
    | [] => some []
    | c :: t =>
      if isTimeMark c then
        match time t with
        | some t => offset t
        | none => some (c :: t)
      else some (c :: t)

end RegisterBytecode.Toml
