import RegisterBytecode.Config
import RegisterBytecode.Toml.Document

/-!
# Configurations as TOML documents

Each of the four fields of a configuration may be given at the top of a document; a field that is
not given has its default, and other fields are ignored. A field of the wrong type, and a limit
that is negative, make the document unusable. Limits are clamped.
-/

namespace RegisterBytecode.Config

/-- The value of a switch. -/
def boolField (t : Toml.Fields) (key : String) (default : Bool) : Option Bool :=
  match t.get? key with
  | none => some default
  | some (.bool b) => some b
  | some _ => none

/-- The value of a limit. -/
def natField (t : Toml.Fields) (key : String) (default : Nat) : Option Nat :=
  match t.get? key with
  | none => some default
  | some (.int i) => if 0 ≤ i then some i.toNat else none
  | some _ => none

/-- The configuration that the fields of a document give. -/
def ofFields? (t : Toml.Fields) : Option Config := do
  let d : Config := {}
  let inlineLiterals ← boolField t "inline_literals" d.inlineLiterals
  let maxInlineText ← natField t "max_inline_string_len" d.maxInlineText
  let recordLines ← boolField t "record_line_info" d.recordLines
  let maxConstants ← natField t "max_constants" d.maxConstants
  some { inlineLiterals, maxInlineText, recordLines, maxConstants }

/-- The configuration that a document gives, with limits that the encoding can hold. -/
def ofToml? (source : String) : Option Config :=
  ((Toml.parse? source).bind ofFields?).map clamped

end RegisterBytecode.Config
