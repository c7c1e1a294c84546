/-!
# Shortest decimals

A binary number `m · 2^q` stands for all reals that round to it. `Shortest.decimal` gives the
decimal with the fewest digits among them. For each number of digits it looks at the value's two
neighbours on that decimal grid, in exact arithmetic: the first grid with a neighbour inside the
rounding interval wins, of two neighbours the nearer is taken, and of two equally near ones the
upper.
-/

namespace RegisterBytecode.Text

/-- The number `digits · 10^exponent`. -/
structure Decimal where
  digits : Nat
  exponent : Int
  deriving DecidableEq, Repr, Inhabited

namespace Shortest

/-- A positive binary number `m · 2^q` with the interval that rounds to it. -/
structure Binary where
  m : Nat
  q : Int
  /-- Whether the gap below is half the gap above. -/
  narrowBelow : Bool

/-- A positive number and the ends of its rounding interval, over a common denominator. -/
structure Bounds where
  low : Nat
  value : Nat
  high : Nat
  den : Nat
  /-- Whether the ends belong to the interval. -/
  closed : Bool

/-- The bounds of a binary number. The ends lie half a gap away and belong to the interval when
the significand is even. -/
def Binary.bounds (b : Binary) : Bounds :=
  let below := if b.narrowBelow then 1 else 2
  let scale := Nat.pow 2 (b.q - 2).toNat
  { low := (4 * b.m - below) * scale
    value := 4 * b.m * scale
    high := (4 * b.m + 2) * scale
    den := Nat.pow 2 (2 - b.q).toNat
    closed := b.m % 2 = 0 }

/-- The number of decimal digits of a positive number. -/
def digitCount (n : Nat) : Nat := (Nat.toDigits 10 n).length

/-- The exponent of the leading decimal digit. -/
def magnitude (b : Bounds) : Int :=
  if b.den ≤ b.value then (digitCount (b.value / b.den) : Int) - 1
  else
    let n := digitCount (b.den / b.value)
    if b.den ≤ b.value * Nat.pow 10 (n - 1) then 1 - (n : Int) else -(n : Int)

/-- Measure the bounds in units of `10^unit`. -/
def Bounds.inUnits (b : Bounds) (unit : Int) : Bounds :=
  let up := Nat.pow 10 (-unit).toNat
  { b with
    low := b.low * up
    value := b.value * up
    high := b.high * up
    den := b.den * Nat.pow 10 unit.toNat }

/-- The whole number inside the interval that is nearest to the value, if one of its two
neighbours is inside; a tie goes up. -/
def nearest? (b : Bounds) : Option Nat :=
  let below := b.value / b.den
  let above := below + 1
  let belowIn := if b.closed then b.low ≤ below * b.den else b.low < below * b.den
  let aboveIn := if b.closed then above * b.den ≤ b.high else above * b.den < b.high
  if belowIn ∧ aboveIn then
    some (if b.value - below * b.den < above * b.den - b.value then below else above)
  else if belowIn then some below
  else if aboveIn then some above
  else none

/-- Move trailing zeros of the digits into the exponent. -/
def trim : Nat → Decimal → Decimal
  | 0, d => d
  | fuel + 1, d =>
    if d.digits % 10 = 0 then trim fuel ⟨d.digits / 10, d.exponent + 1⟩ else d

/-- The shortest decimal that rounds to a binary number. Seventeen digits always suffice for
significands of fifty-three bits. -/
def decimal (b : Binary) : Decimal :=
  let bounds := b.bounds
  let top := magnitude bounds
  let found := (List.range 17).findSome? fun (n : Nat) ↦
    let unit := top - n
    (nearest? (bounds.inUnits unit)).map fun digits ↦ (⟨digits, unit⟩ : Decimal)
  trim 18 (found.getD ⟨0, 0⟩)

end Shortest

end RegisterBytecode.Text
