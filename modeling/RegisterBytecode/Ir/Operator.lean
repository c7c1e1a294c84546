/-!
# Operators

The binary and unary operators that a body may apply, with the spellings under which a reader
of bodies may ask for them. Most operators have a word and a symbol; `-`, `~` and their like
stay with the binary operator, so three of the unary operators have a word only.
-/

namespace RegisterBytecode

/-- An operator on two values. -/
inductive BinaryOp where
  | add | sub | mul | div | intDiv | mod | pow | concat
  | eq | ne | lt | le | gt | ge
  | bitAnd | bitOr | bitXor | shl | shr
  deriving DecidableEq, Repr, Inhabited

/-- An operator on one value. -/
inductive UnaryOp where
  | neg | not | len | bitNot
  deriving DecidableEq, Repr, Inhabited

/-- A name under which no operator is known. -/
structure UnknownOperator where
  name : String
  deriving DecidableEq, Repr

/-- The text shown for an unknown operator. -/
def UnknownOperator.message (e : UnknownOperator) : String :=
  "Unknown operator: " ++ e.name

namespace BinaryOp

/-- Every binary operator, arithmetic first, then comparisons, then bitwise operators. -/
def all : List BinaryOp :=
  [add, sub, mul, div, intDiv, mod, pow, concat, eq, ne, lt, le, gt, ge,
    bitAnd, bitOr, bitXor, shl, shr]

theorem mem_all (op : BinaryOp) : op ∈ all := by cases op <;> decide

/-- The names of an operator: its word, then its symbol. -/
def spellings : BinaryOp → List String
  | add => ["add", "+"]
  | sub => ["sub", "-"]
  | mul => ["mul", "*"]
  | div => ["div", "/"]
  | intDiv => ["idiv", "//"]
  | mod => ["mod", "%"]
  | pow => ["pow", "^"]
  | concat => ["concat", ".."]
  | eq => ["eq", "=="]
  | ne => ["ne", "!="]
  | lt => ["lt", "<"]
  | le => ["le", "<="]
  | gt => ["gt", ">"]
  | ge => ["ge", ">="]
  | bitAnd => ["band", "&"]
  | bitOr => ["bor", "|"]
  | bitXor => ["bxor", "~"]
  | shl => ["shl", "<<"]
  | shr => ["shr", ">>"]

/-- The operator of a given name. -/
def ofName (name : String) : Except UnknownOperator BinaryOp :=
  match all.find? fun op ↦ op.spellings.contains name with
  | some op => .ok op
  | none => .error ⟨name⟩

end BinaryOp

namespace UnaryOp

/-- Every unary operator. -/
def all : List UnaryOp := [neg, not, len, bitNot]

theorem mem_all (op : UnaryOp) : op ∈ all := by cases op <;> decide

/-- The names of an operator: its word, then its symbol where it has one. -/
def spellings : UnaryOp → List String
  | neg => ["neg"]
  | not => ["not"]
  | len => ["len", "#"]
  | bitNot => ["bnot"]

/-- The operator of a given name. -/
def ofName (name : String) : Except UnknownOperator UnaryOp :=
  match all.find? fun op ↦ op.spellings.contains name with
  | some op => .ok op
  | none => .error ⟨name⟩

end UnaryOp

end RegisterBytecode
