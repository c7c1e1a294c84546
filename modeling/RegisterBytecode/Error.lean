import RegisterBytecode.Ir.Reg
import RegisterBytecode.Text.Hex

/-!
# Errors and faults

A compilation that stops early stops for one of two reasons. A `CompileError` is a capacity of
the encoding that the program exceeds; it carries a source line where one is known, and the
compiler's state outlives it. A `Fault` is a defect of the program itself, such as a label
bound twice; nothing outlives it. `Outcome` has one constructor for each way to end.
-/

namespace RegisterBytecode

/-- What a program asked for that cannot be encoded. -/
inductive ErrorKind where
  /-- A body keeps more values in registers at one time than an operand can address. -/
  | registers (function : String) (limit : Nat)
  /-- A body has more captured locals than an operand can address. -/
  | cells (function : String) (limit : Nat)
  /-- A body uses more upvalues than an operand can address. -/
  | upvalues (function : String) (limit : Nat)
  /-- The compilation needs more pool entries than it may use. -/
  | constants (limit : Nat)
  /-- A jump is too far for its offset. -/
  | jumpRange (source target : Nat)
  /-- The entry index does not name a function body. -/
  | entryNotCode (index : Nat)
  deriving DecidableEq, Repr

/-- The text shown for an error, without a line. -/
def ErrorKind.message : ErrorKind → String
  | registers function limit => s!"Too many registers in {function} (max {limit})"
  | cells function limit => s!"Too many captured variables in {function} (max {limit})"
  | upvalues function limit => s!"Too many upvalues in {function} (max {limit})"
  | constants limit => s!"Too many constants (max {limit})"
  | jumpRange source target =>
    "Jump from " ++ Text.Hex.literal source ++ " to " ++ Text.Hex.literal target
      ++ " is out of range"
  | entryNotCode index => s!"Entry constant {index} is not a function body"

/-- A capacity error with the source line that it is attributed to, where one is known. -/
structure CompileError where
  kind : ErrorKind
  line : Option Nat := none
  deriving DecidableEq, Repr

namespace CompileError

/-- Attach a line unless one is already known. -/
def orLine (e : CompileError) (line : Option Nat) : CompileError :=
  { e with line := e.line.or line }

/-- The text shown for an error; a known line stands at its end. -/
def message (e : CompileError) : String :=
  match e.line with
  | some line => s!"{e.kind.message} (line {line})"
  | none => e.kind.message

end CompileError

/-- A defect of the program under compilation. -/
inductive Fault where
  /-- An upvalue is declared as a captured local. -/
  | capturedUpvalue (reg : Reg) (function : String)
  /-- A local is used that the body never mentions. -/
  | undeclared (reg : Reg)
  /-- A constant is used that the table does not hold. -/
  | missingConstant (index : Nat)
  /-- A closure is made of a constant that is not a function body. -/
  | notCode (index : Nat) (typeName : String)
  /-- An index into a variadic tail does not fit its byte. -/
  | tailIndex (index limit : Nat)
  /-- A label is bound a second time. -/
  | boundTwice (label body : Nat)
  /-- A jump leads to a label that is not bound. -/
  | undefinedLabel (label body : Nat)
  /-- A jump leads out of its body. -/
  | outsideBody (label target body : Nat)
  /-- A constant is about to enter the pool at another slot than the one reserved for it. -/
  | slotMismatch (index : Nat) (reserved : Option UInt16) (actual : Nat)
  /-- An upvalue index is too large to be numbered as a register. -/
  | noRegisterId (index : Nat)
  deriving DecidableEq, Repr

namespace Fault

private def labelText (l : Nat) : String := s!"Label({l})"

private def slotText : Option UInt16 → String
  | some slot => s!"Some({slot.toNat})"
  | none => "None"

/-- What went wrong, without the heading that marks a defect of the program. -/
private def detail : Fault → String
  | capturedUpvalue reg function =>
    s!"upvalue reference {reg.text} declared as captured local in {function}"
  | undeclared reg => s!"register {reg.text} was never declared"
  | missingConstant index => s!"constant {index} is not in the constant table"
  | notCode index typeName =>
    s!"closure over constant {index} which is a {typeName}, not a function body"
  | tailIndex index limit => s!"variadic index {index} out of range [0, {limit})"
  | boundTwice label body => s!"label {labelText label} bound twice in body {body}"
  | undefinedLabel label body => s!"jump to undefined label {labelText label} in body {body}"
  | outsideBody label target body =>
    s!"label {labelText label} resolves to {Text.Hex.literal target}, outside body {body}"
  | slotMismatch index reserved actual =>
    s!"constant {index} reserved pool slot {slotText reserved} but compiled into {actual}"
  | noRegisterId index => s!"upvalue index {index} has no register id"

/-- The text shown for a fault. -/
def message : Fault → String
  | noRegisterId index => detail (noRegisterId index)
  | f => "internal compiler error: " ++ detail f

end Fault

/-- Why a computation without state stops. -/
inductive Stop where
  | error (error : CompileError)
  | fault (fault : Fault)
  deriving DecidableEq, Repr

/-- How a step on a state ends. -/
inductive Outcome (σ α : Type) where
  /-- The step ends with a value. -/
  | done (value : α) (state : σ)
  /-- The step runs into a capacity limit; the state reached so far stays. -/
  | failed (error : CompileError) (state : σ)
  /-- The step finds a defect of the program; no state stays. -/
  | fault (fault : Fault)
  deriving Repr

namespace Outcome

variable {σ α β : Type}

/-- Continue with a further step, unless this one did not end with a value. -/
@[inline] def bind (r : Outcome σ α) (k : α → σ → Outcome σ β) : Outcome σ β :=
  match r with
  | done a s => k a s
  | failed e s => failed e s
  | fault f => fault f

/-- A stop without state, seen from a state. -/
def ofStop (s : σ) : Stop → Outcome σ α
  | .error e => failed e s
  | .fault f => fault f

@[simp] theorem bind_done (a : α) (s : σ) (k : α → σ → Outcome σ β) :
    (done a s).bind k = k a s := rfl

@[simp] theorem bind_failed (e : CompileError) (s : σ) (k : α → σ → Outcome σ β) :
    (failed e s : Outcome σ α).bind k = failed e s := rfl

@[simp] theorem bind_fault (f : Fault) (k : α → σ → Outcome σ β) :
    (fault f : Outcome σ α).bind k = fault f := rfl

/-- A step that ends with a value did so, and so did the one before it. -/
theorem bind_eq_done {r : Outcome σ α} {k : α → σ → Outcome σ β} {b : β} {t : σ}
    (h : r.bind k = done b t) : ∃ a s, r = done a s ∧ k a s = done b t := by
  cases r with
  | done a s => exact ⟨a, s, rfl, h⟩
  | failed e s => cases h
  | fault f => cases h

/-- Two steps are no fault if the first is none and the second is none on what the first leaves. -/
theorem bind_ne_fault {r : Outcome σ α} {k : α → σ → Outcome σ β} (hr : ∀ f, r ≠ fault f)
    (hk : ∀ a s, r = done a s → ∀ f, k a s ≠ fault f) (f : Fault) : r.bind k ≠ fault f := by
  cases r with
  | done a s => exact hk a s rfl f
  | failed e s => nofun
  | fault g => exact absurd rfl (hr g)

/-! ### What holds of the state left behind -/

/-- The state that an outcome leaves behind, if any, satisfies `P`. -/
def Leaves (P : σ → Prop) : Outcome σ α → Prop
  | done _ s => P s
  | failed _ s => P s
  | fault _ => True

/-- What each of two steps leaves true is true behind both. -/
theorem Leaves.bind {P : σ → Prop} {r : Outcome σ α} {k : α → σ → Outcome σ β}
    (h : r.Leaves P) (hk : ∀ a s, P s → (k a s).Leaves P) : (r.bind k).Leaves P := by
  cases r with
  | done a s => exact hk a s h
  | failed e s => exact h
  | fault f => exact trivial

theorem Leaves.ofStop {P : σ → Prop} {s : σ} (h : P s) (stop : Stop) :
    (ofStop s stop : Outcome σ α).Leaves P := by
  cases stop with
  | error e => exact h
  | fault f => exact trivial

end Outcome

/-! ### Registers by number -/

/-- The register that names upvalue `index`, if its number fits thirty-two signed bits. -/
def Reg.ofUpvalue (index : Nat) : Except Fault Reg :=
  if index < 2147483648 then .ok (.upval index) else .error (.noRegisterId index)

end RegisterBytecode
