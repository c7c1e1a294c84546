import RegisterBytecode.Text.Shortest

/-!
# The text of a float

A float is given by its sixty-four bits and written with the fewest digits that read back. The
text is positional from `0.0001` up to `10^16` and then always has a point; outside that range
it is a significand and an exponent of ten.
-/

namespace RegisterBytecode.Text.FloatText

/-- The text of digits at a decimal exponent. -/
def render (d : Decimal) : String :=
  let digits := Nat.toDigits 10 d.digits
  let count : Int := digits.length
  -- The point stands behind this many digits.
  let point : Int := count + d.exponent
  if -3 ≤ point ∧ point ≤ 16 then
    if point ≤ 0 then String.ofList ("0.".toList ++ List.replicate (-point).toNat '0' ++ digits)
    else if count ≤ point then
      String.ofList (digits ++ List.replicate (point - count).toNat '0' ++ ".0".toList)
    else String.ofList (digits.take point.toNat ++ '.' :: digits.drop point.toNat)
  else
    let significand := match digits with
      | [] => []
      | [c] => [c]
      | c :: rest => c :: '.' :: rest
    String.ofList significand ++ "e" ++ toString (point - 1)

/-- The text of a float without its sign. -/
def magnitudeText (exponent fraction : Nat) : String :=
  if exponent = 2047 then "inf"
  else if exponent = 0 then
    if fraction = 0 then "0.0" else render (Shortest.decimal ⟨fraction, -1074, false⟩)
  else
    render (Shortest.decimal ⟨fraction + Nat.pow 2 52, (exponent : Int) - 1075, fraction = 0⟩)

/-- The text of a float. -/
def ofBits (bits : UInt64) : String :=
  let n := bits.toNat
  let exponent := n / Nat.pow 2 52 % 2048
  let fraction := n % Nat.pow 2 52
  if exponent = 2047 ∧ fraction ≠ 0 then "NaN"
  else if n / Nat.pow 2 63 = 1 then "-" ++ magnitudeText exponent fraction
  else magnitudeText exponent fraction

end RegisterBytecode.Text.FloatText
