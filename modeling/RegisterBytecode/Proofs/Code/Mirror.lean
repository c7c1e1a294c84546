import RegisterBytecode.Proofs.Alloc.Renaming
import RegisterBytecode.Proofs.Code.Laying

/-!
# A stream and its mirror image

Two compilations are followed side by side. The second one works on the same program under other
names: its constants are numbered differently, the labels and locals of each body have names of
their own, and it may be **quiet**, which means that it keeps no lines. `Mirror` says how the one is
found in the other.

Of the stream nothing but the names of labels and the lines can tell the two apart
(`Stream.Mirrors`). Whose names a label is given depends on the body that it belongs to, so a stream
is mirrored with respect to its `owners`, the constants whose bodies it holds, in order. Appending
keeps the two streams alike (`Stream.Mirrors.emit`), and so does binding a label, provided that
labels which differ keep different names (`Stream.Mirrors.bind`). Filling in the jumps goes the same
way for both, since every jump finds its label where the other finds it
(`Stream.Mirrors.resolve`).

How a step may end for the two is said once for all steps (`Outcome.Mirrors`), and steps that mirror
each other compose (`Outcome.Mirrors.bind`).
-/

namespace RegisterBytecode

/-- How a program is found in another one. -/
structure Mirror where
  /-- The constants that have a mirror image. -/
  known : Set ConstIndex := Set.univ
  /-- The index of a constant in the other program. -/
  index : ConstIndex → ConstIndex := id
  /-- The names that a body has for its labels and locals in the other program. -/
  names : ConstIndex → Naming := fun _ ↦ {}
  /-- Whether the other compilation keeps no lines. -/
  quiet : Bool := false

namespace Mirror

variable (μ : Mirror)

/-- What the other compilation has of a line table. -/
def lines (t : LineTable) : LineTable := if μ.quiet then {} else t

/-- What the other compilation has of a line. -/
def line (l : Option Nat) : Option Nat := if μ.quiet then none else l

@[simp] theorem line_none : μ.line none = none := by
  rw [line, ite_self]

theorem line_or (l m : Option Nat) : μ.line (l.or m) = (μ.line l).or (μ.line m) := by
  unfold line
  split <;> rfl

theorem lastLine?_lines (t : LineTable) : (μ.lines t).lastLine? = μ.line t.lastLine? := by
  unfold lines line
  split <;> rfl

theorem lastLineUpTo?_lines (t : LineTable) (offset : Nat) :
    (μ.lines t).lastLineUpTo? offset = μ.line (t.lastLineUpTo? offset) := by
  unfold lines line
  split
  · simp [LineTable.lastLineUpTo?]
  · rfl

end Mirror

/-! ### How a step ends -/

/-- An error under other indices of constants. -/
def ErrorKind.renumber (ρ : ConstIndex → ConstIndex) : ErrorKind → ErrorKind
  | entryNotCode index => entryNotCode (ρ index)
  | kind => kind

/-- A fault under other indices of constants and other names. -/
def Fault.rename (ρ : ConstIndex → ConstIndex) (ν : Naming) : Fault → Fault
  | undeclared reg => undeclared (reg.rename ν)
  | missingConstant index => missingConstant (ρ index)
  | notCode index typeName => notCode (ρ index) typeName
  | boundTwice label body => boundTwice (ν.label label) body
  | undefinedLabel label body => undefinedLabel (ν.label label) body
  | outsideBody label target body => outsideBody (ν.label label) target body
  | slotMismatch index reserved actual => slotMismatch (ρ index) reserved actual
  | fault => fault

/-- A step ends in the same way for both: with the same value in states that are related by `D`, in
the same error up to its line, or in the same fault of some body. The lines that an error leaves
behind are those of the one, or none. -/
inductive Outcome.Mirrors {σ α : Type} (μ : Mirror) (lines : σ → LineTable) (D : σ → σ → Prop) :
    Outcome σ α → Outcome σ α → Prop
  | done {a : α} {s t : σ} (h : D s t) : Mirrors μ lines D (.done a s) (.done a t)
  | failed {e : CompileError} {s t : σ} (h : lines t = μ.lines (lines s)) :
    Mirrors μ lines D (.failed e s) (.failed ⟨e.kind.renumber μ.index, μ.line e.line⟩ t)
  | fault {f : Fault} (c : ConstIndex) :
    Mirrors μ lines D (.fault f) (.fault (f.rename μ.index (μ.names c)))

namespace Outcome.Mirrors

variable {σ α β : Type} {μ : Mirror} {lines : σ → LineTable} {D D' : σ → σ → Prop}

/-- An error that carries no line yet. -/
theorem limit {kind : ErrorKind} {s t : σ} (h : lines t = μ.lines (lines s)) :
    Mirrors (α := α) μ lines D (.failed ⟨kind, none⟩ s)
      (.failed ⟨kind.renumber μ.index, none⟩ t) := by
  have hfailed := failed (α := α) (e := ⟨kind, none⟩) (D := D) h
  rwa [μ.line_none] at hfailed

/-- **Steps that mirror each other compose.** -/
theorem bind {r r' : Outcome σ α} {k k' : α → σ → Outcome σ β} (h : r.Mirrors μ lines D r')
    (hk : ∀ a s t, r = .done a s → D s t → (k a s).Mirrors μ lines D' (k' a t)) :
    (r.bind k).Mirrors μ lines D' (r'.bind k') := by
  cases h with
  | done h => exact hk _ _ _ rfl h
  | failed h => exact .failed h
  | fault c => exact .fault c

end Outcome.Mirrors

/-! ### Operations -/

/-- An immediate with another label. -/
def Immediate.relabel (f : Label → Label) : Immediate → Immediate
  | target l => target (f l)
  | i => i

/-- An operation with another label. -/
def Op.relabel {ρ : Type} (f : Label → Label) (op : Op ρ) : Op ρ :=
  { op with immediate := op.immediate.relabel f }

/-- The jump `q` is the mirror image of `p`: its label has the name that the owner of the body gives
it. -/
def Patch.Mirrors (μ : Mirror) (owners : List ConstIndex) (p q : Patch) : Prop :=
  ∃ c, owners[p.body]? = some c ∧ q = { p with label := (μ.names c).label p.label }

namespace Stream

/-- The stream `t` is the mirror image of `s`, where `owners` are the constants whose bodies stand
in it. -/
structure Mirrors (μ : Mirror) (owners : List ConstIndex) (s t : Stream) : Prop where
  code : t.code = s.code
  line : t.line = s.line
  lastLabel : t.lastLabel = s.lastLabel
  recordLines : t.recordLines = (!μ.quiet && s.recordLines)
  lines : t.lines = μ.lines s.lines
  /-- A label is bound where it is bound under its other name. -/
  labels : ∀ (n : Nat) (c : ConstIndex), owners[n]? = some c → ∀ l : Label,
    t.labels[(n, (μ.names c).label l)]? = s.labels[(n, l)]?
  /-- Only bodies that have been started have labels. -/
  fresh : ∀ n : Nat, owners.length ≤ n → ∀ l : Label,
    s.labels[(n, l)]? = none ∧ t.labels[(n, l)]? = none
  patches : List.Forall₂ (Patch.Mirrors μ owners) s.patches.toList t.patches.toList

/-- Recording a line changes the table at most, whether lines are recorded or not. -/
theorem markLine_eq (s : Stream) : s.markLine =
    { s with lines := if s.recordLines then s.lines.record s.code.size s.line else s.lines } := by
  unfold markLine
  split <;> rfl

namespace Mirrors

variable {μ : Mirror} {owners : List ConstIndex} {s t : Stream}

theorem setLine (h : s.Mirrors μ owners t) (line : Nat) :
    (s.setLine line).Mirrors μ owners (t.setLine line) :=
  { h with line := rfl }

theorem pushBytes (h : s.Mirrors μ owners t) (bytes : List UInt8) :
    (s.pushBytes bytes).Mirrors μ owners (t.pushBytes bytes) :=
  { h with code := congrArg (fun code : Array UInt8 ↦ code ++ bytes) h.code }

theorem pushByte (h : s.Mirrors μ owners t) (b : UInt8) :
    (s.pushByte b).Mirrors μ owners (t.pushByte b) :=
  { h with code := congrArg (·.push b) h.code }

/-- A quiet stream marks nothing, and otherwise both mark the same line. -/
theorem markLine (h : s.Mirrors μ owners t) : s.markLine.Mirrors μ owners t.markLine := by
  rw [markLine_eq, markLine_eq]
  refine { h with lines := ?_ }
  dsimp only
  rw [h.recordLines, h.lines, h.code, h.line, Mirror.lines, Mirror.lines]
  cases μ.quiet with
  | true => rfl
  | false => rfl

/-- An opcode is appended on both sides, and so is its line if both sides record it. -/
theorem pushOpcode (h : s.Mirrors μ owners t) (op : Opcode) :
    (s.pushOpcode op).Mirrors μ owners (t.pushOpcode op) :=
  h.markLine.pushByte op.byte

theorem pushOperands (h : s.Mirrors μ owners t) (os : List Operand) :
    (s.pushOperands os).Mirrors μ owners (t.pushOperands os) := by
  rw [pushOperands_eq, pushOperands_eq]
  exact h.pushBytes _

/-- A blank distance is noted under the label's other name. -/
theorem pushTarget (h : s.Mirrors μ owners t) {n : Nat} {c : ConstIndex}
    (hc : owners[n]? = some c) (l : Label) :
    (s.pushTarget n l).Mirrors μ owners (t.pushTarget n ((μ.names c).label l)) where
  __ := h.pushBytes [0xff, 0xff, 0xff, 0xff]
  patches := by
    simp only [Stream.pushTarget, Array.toList_push, Stream.pushBytes]
    refine List.rel_append h.patches (.cons ⟨c, hc, ?_⟩ .nil)
    rw [h.code]

/-- An immediate is appended on both sides, under the name that its label has on each. -/
theorem pushImmediate (h : s.Mirrors μ owners t) {n : Nat} {c : ConstIndex}
    (hc : owners[n]? = some c) (i : Immediate) :
    (s.pushImmediate n i).Mirrors μ owners (t.pushImmediate n (i.relabel (μ.names c).label)) := by
  cases i with
  | none => exact h
  | byte b => exact h.pushByte b
  | pool slot => exact h.pushBytes _
  | int v => exact h.pushBytes _
  | text x => exact (h.pushByte _).pushBytes _
  | target l => exact h.pushTarget hc l

/-- **Appending an operation**, and the same operation with its label under the other name. -/
theorem emit (h : s.Mirrors μ owners t) {n : Nat} {c : ConstIndex} (hc : owners[n]? = some c)
    (op : Op Operand) :
    (s.emit n op).Mirrors μ owners (t.emit n (op.relabel (μ.names c).label)) :=
  ((h.pushOpcode op.opcode).pushOperands op.regs).pushImmediate hc op.immediate

theorem emitAll (h : s.Mirrors μ owners t) {n : Nat} {c : ConstIndex} (hc : owners[n]? = some c)
    (ops : List (Op Operand)) :
    (s.emitAll n ops).Mirrors μ owners
      (t.emitAll n (ops.map (Op.relabel (μ.names c).label))) := by
  induction ops generalizing s t with
  | nil => exact h
  | cons op ops ih => exact ih (h.emit hc op)

/-- Both sides are padded or neither is: the last label stands at the same offset. -/
theorem pad (h : s.Mirrors μ owners t) : s.pad.Mirrors μ owners t.pad := by
  have hend : t.labelAtEnd = s.labelAtEnd := by
    rw [labelAtEnd, labelAtEnd, h.lastLabel, h.code]
  rw [Stream.pad, Stream.pad, hend]
  split
  · exact h.pushOpcode .nop
  · exact h

/-! ### Labels -/

/-- A label is bound on both sides or on neither. -/
theorem isBound_eq (h : s.Mirrors μ owners t) {n : Nat} {c : ConstIndex}
    (hc : owners[n]? = some c) (l : Label) :
    t.isBound n ((μ.names c).label l) = s.isBound n l := by
  rw [isBound, isBound, Std.TreeMap.contains_eq_isSome_getElem?,
    Std.TreeMap.contains_eq_isSome_getElem?, h.labels n c hc]

/-- **Binding a label** under either name. Two labels of one body are told apart under the other
names, and labels of different bodies are by their bodies. -/
theorem bind (h : s.Mirrors μ owners t) {n : Nat} {c : ConstIndex} (hc : owners[n]? = some c)
    (hinj : Function.Injective (μ.names c).label) (l : Label) :
    (s.bind n l).Mirrors μ owners (t.bind n ((μ.names c).label l)) where
  __ := h
  lastLabel := congrArg (fun code : Array UInt8 ↦ some code.size) h.code
  labels := by
    intro m d hd k
    have hkey : (n, (μ.names c).label l) = (m, (μ.names d).label k) ↔ (n, l) = (m, k) := by
      rw [Prod.mk.injEq, Prod.mk.injEq]
      refine and_congr_right ?_
      rintro rfl
      obtain rfl := Option.some.inj (hc.symm.trans hd)
      exact hinj.eq_iff
    simp only [Stream.bind, Std.TreeMap.getElem?_insert, LabelKey.order_eq_eq, hkey,
      h.labels m d hd, h.code]
  fresh := by
    intro m hm k
    have hn : n < owners.length := (List.getElem?_eq_some_iff.1 hc).1
    have hne : ∀ x : Label, (n, x) ≠ (m, k) := by
      intro x heq
      have := (Prod.mk.inj heq).1
      omega
    simp only [Stream.bind, Std.TreeMap.getElem?_insert, LabelKey.order_eq_eq, hne, if_false]
    exact h.fresh m hm k

/-- A further body starts without labels. -/
theorem start (h : s.Mirrors μ owners t) (c : ConstIndex) : s.Mirrors μ (owners ++ [c]) t where
  __ := h
  labels := by
    intro n d hd l
    rcases Nat.lt_or_ge n owners.length with hn | hn
    · rw [List.getElem?_append_left hn] at hd
      exact h.labels n d hd l
    · rw [(h.fresh n hn _).1, (h.fresh n hn _).2]
  fresh := by
    intro n hn l
    rw [List.length_append] at hn
    exact h.fresh n (Nat.le_trans (Nat.le_add_right _ _) hn) l
  patches := by
    refine h.patches.imp ?_
    rintro p q ⟨d, hd, hq⟩
    have hlt := (List.getElem?_eq_some_iff.1 hd).1
    exact ⟨d, by rw [List.getElem?_append_left hlt, hd], hq⟩

/-! ### Jumps -/

theorem overwrite (h : s.Mirrors μ owners t) (position : Nat) (bytes : List UInt8) :
    (s.overwrite position bytes).Mirrors μ owners (t.overwrite position bytes) :=
  { h with code := congrArg (writeAt bytes position) h.code }

/-- **One jump**: it leads to the same offset, and is refused for the same reason. -/
theorem patch (h : s.Mirrors μ owners t) (ranges : Array Range) (p : Patch) {c : ConstIndex}
    (hc : owners[p.body]? = some c) :
    (s.patch ranges p).Mirrors μ Stream.lines (Mirrors μ owners)
      (t.patch ranges { p with label := (μ.names c).label p.label }) := by
  unfold Stream.patch
  dsimp only
  rw [h.labels p.body c hc]
  split
  · exact .fault c
  · split
    · split
      · exact .done (h.overwrite _ _)
      · rw [h.lines, μ.lastLineUpTo?_lines]
        exact .failed h.lines
    · exact .fault c

/-- Patches that mirror each other end alike, one after another. -/
theorem patchAll (h : s.Mirrors μ owners t) (ranges : Array Range) {ps qs : List Patch}
    (hps : List.Forall₂ (Patch.Mirrors μ owners) ps qs) :
    (patchAll ranges ps s).Mirrors μ Stream.lines (Mirrors μ owners) (patchAll ranges qs t) := by
  induction hps generalizing s t with
  | nil => exact .done h
  | cons hp _ ih =>
    obtain ⟨c, hc, rfl⟩ := hp
    exact (h.patch ranges _ hc).bind fun _ s' t' _ h' ↦ ih h'

/-- **All jumps.** -/
theorem resolve (h : s.Mirrors μ owners t) (ranges : Array Range) :
    (s.resolve ranges).Mirrors μ Stream.lines (Mirrors μ owners) (t.resolve ranges) := by
  refine patchAll ?_ ranges h.patches
  exact { h with patches := .nil }

end Mirrors

end Stream

end RegisterBytecode
