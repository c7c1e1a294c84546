import RegisterBytecode.Code.Op
import RegisterBytecode.Config
import RegisterBytecode.Error
import RegisterBytecode.Ir.Program

/-!
# Lowering of instructions

A `Job` is a program with the configuration under which it is compiled. Two questions about an
instruction are answered here, apart from any state: which constant it needs in the pool
(`Job.demand`), and which machine operations it stands for once the pool slots of constants are
known (`Job.lower`). A constant is needed in the pool exactly when a load cannot carry it
itself (`Config.inline?`).
-/

namespace RegisterBytecode

/-- A program and its configuration, with limits that the encoding can hold. -/
structure Job where
  program : Program
  config : Config
  clamped : config.clamped = config

namespace Job

/-- Compile a program under a configuration, whose limits are clamped. -/
def new (program : Program) (config : Config) : Job :=
  ⟨program, config.clamped, Config.clamped_clamped config⟩

end Job

/-- The signed thirty-two-bit form of an integer, if it has one. -/
def narrow? (v : Int64) : Option Int32 :=
  if -2147483648 ≤ v.toInt ∧ v.toInt < 2147483648 then some v.toInt32 else none

/-- The operation that carries a constant inside itself, if the configuration allows it and the
constant fits. -/
def Config.inline? (c : Config) : Constant → Option (Opcode × Immediate)
  | .int v => if c.inlineLiterals then (narrow? v).map fun n ↦ (.loadInt, .int n) else none
  | .str t =>
    if c.inlineLiterals && t.utf8ByteSize ≤ c.maxInlineText then some (.loadStr, .text t)
    else none
  | _ => none

namespace Job

/-- Whether an index fits the byte of an operation on a variadic tail. -/
def checkTail (index : Nat) : Except Fault (Option ConstIndex) :=
  if index < tailLimit then .ok none else .error (.tailIndex index tailLimit)

/-- The constant that an instruction needs in the pool. An instruction that refers to a constant
the table does not hold, makes a closure of something else than a body, or reaches too far into
a variadic tail is a fault. -/
def demand (job : Job) : Instr → Except Fault (Option ConstIndex)
  | .load _ index =>
    match job.program.get? index with
    | none => .error (.missingConstant index)
    | some c => .ok (if (job.config.inline? c).isSome then none else some index)
  | .closure _ index _ =>
    match job.program.get? index with
    | none => .error (.missingConstant index)
    | some (.code _) => .ok (some index)
    | some c => .error (.notCode index c.typeName)
  | .etcLookup _ _ index => checkTail index
  | .fillTable _ _ start => checkTail start
  | _ => .ok none

/-- The machine operations of an instruction, where `slot` gives the pool slots of constants. A
label has none. -/
def lower (job : Job) (slot : ConstIndex → UInt16) : Instr → List (Op Reg)
  | .move dst src => [⟨.move, [dst, src], .none⟩]
  | .load dst index =>
    match (job.program.get? index).bind job.config.inline? with
    | some (opcode, immediate) => [⟨opcode, [dst], immediate⟩]
    | none => [⟨.loadConst, [dst], .pool (slot index)⟩]
  | .binary op dst lhs rhs => [⟨.binary op, [dst, lhs, rhs], .none⟩]
  | .unary op dst src => [⟨.unary op, [dst, src], .none⟩]
  | .push src spread => [⟨.push, [src], .byte (if spread then 1 else 0)⟩]
  | .jump target => [⟨.jump, [], .target target⟩]
  | .branch cond target negate =>
    [⟨if negate then .jumpIfNot else .jumpIf, [cond], .target target⟩]
  | .label _ => []
  | .call tail callee => [⟨if tail then .tailCall else .call, [callee], .none⟩]
  | .closure dst index captures =>
    ⟨.loadClosure, [dst], .pool (slot index)⟩
      :: captures.map fun src ↦ ⟨.bindUpvalue, [dst, src], .none⟩
  | .continuation tail dst =>
    [⟨if tail then .makeTailContinuation else .makeContinuation, [dst], .none⟩]
  | .clear reg => [⟨.clear, [reg], .none⟩]
  | .newTable dst => [⟨.newTable, [dst], .none⟩]
  | .getIndex dst table key => [⟨.getIndex, [dst, table, key], .none⟩]
  | .setIndex table key value => [⟨.setIndex, [table, key, value], .none⟩]
  | .receive dsts etc =>
    dsts.map (fun dst ↦ ⟨.receive, [dst], .none⟩)
      ++ etc.toList.map fun dst ↦ ⟨.receiveEtc, [dst], .none⟩
  | .etcLookup dst etc index => [⟨.etcLookup, [dst, etc], .byte index.toUInt8⟩]
  | .fillTable table etc start => [⟨.fillTable, [table, etc], .byte start.toUInt8⟩]

end Job

end RegisterBytecode
