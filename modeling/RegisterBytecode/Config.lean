import RegisterBytecode.Limits

/-!
# Compiler configuration

A `Config` is what a caller asks for. Its two limits may exceed what the encoding can hold;
`Config.clamped` lowers them to the encoding's capacities rather than rejecting them, and
clamping twice is clamping once (`Config.clamped_clamped`).
-/

namespace RegisterBytecode

/-- What a caller may choose about a compilation. -/
structure Config where
  /-- Carry small integers and short texts inside the instruction that loads them. -/
  inlineLiterals : Bool := true
  /-- Length in bytes of the longest text carried inside an instruction. -/
  maxInlineText : Nat := inlineTextLimit
  /-- Keep the table from stream offsets to source lines. -/
  recordLines : Bool := true
  /-- Number of pool entries that the compilation may use. -/
  maxConstants : Nat := poolLimit
  deriving DecidableEq, Repr, Inhabited

namespace Config

/-- The configuration with its limits lowered to what the encoding can hold. -/
def clamped (c : Config) : Config :=
  { c with
    maxInlineText := min c.maxInlineText inlineTextLimit
    maxConstants := min c.maxConstants poolLimit }

@[simp] theorem clamped_inlineLiterals (c : Config) :
    c.clamped.inlineLiterals = c.inlineLiterals := rfl

@[simp] theorem clamped_recordLines (c : Config) : c.clamped.recordLines = c.recordLines := rfl

@[simp] theorem clamped_maxInlineText (c : Config) :
    c.clamped.maxInlineText = min c.maxInlineText inlineTextLimit := rfl

@[simp] theorem clamped_maxConstants (c : Config) :
    c.clamped.maxConstants = min c.maxConstants poolLimit := rfl

/-- Clamping twice is clamping once. -/
@[simp] theorem clamped_clamped (c : Config) : c.clamped.clamped = c.clamped := by
  simp [clamped]

end Config

end RegisterBytecode
