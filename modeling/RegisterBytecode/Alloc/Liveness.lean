import RegisterBytecode.Alloc.Span
import RegisterBytecode.Ir.Body

/-!
# Live spans of locals

A local that no closure captures has to keep its register from its first to its last mention.
A backward jump lets values flow from later positions to earlier ones, so a span that overlaps
the region between such a jump and its label is widened to the whole region, again and again
until nothing changes.
-/

namespace RegisterBytecode.Body

/-- Every register mention of a body, in order. -/
def regs (b : Body) : List Reg := b.code.toList.flatMap Instr.regs

/-- Whether a register is a local that needs a register of the frame. -/
def needsRegister (b : Body) : Reg → Bool
  | .loc n => !b.captured.contains (.loc n)
  | .upval _ => false

/-- Mentions of locals that need a register, with their positions, in order. -/
def mentions (b : Body) : List (Nat × Nat) :=
  b.positioned.flatMap fun (i, pos) ↦
    (i.regs.filter b.needsRegister).filterMap fun r ↦ r.loc?.map fun n ↦ (n, pos)

/-- Extend the span of a local to a further mention. -/
def touch (spans : Std.TreeMap Nat Span) : Nat × Nat → Std.TreeMap Nat Span
  | (n, pos) => spans.alter n fun
    | none => some ⟨pos, pos⟩
    | some s => some { s with stop := pos }

/-- The span from the first to the last mention of each local that needs a register. -/
def mentionSpans (b : Body) : Std.TreeMap Nat Span := b.mentions.foldl touch ∅

/-- The position at which each label is bound; the last one where it is bound again. -/
def labelPositions (b : Body) : Std.TreeMap Label Nat :=
  b.positioned.foldl (fun t (i, pos) ↦
    match i.binds? with
    | some l => t.insert l pos
    | none => t) ∅

/-- The regions between a backward jump and the label that it leads to. -/
def loops (b : Body) : List Span :=
  let labels := b.labelPositions
  b.positioned.filterMap fun (i, pos) ↦
    match i.target? with
    | none => none
    | some l =>
      match labels[l]? with
      | none => none
      | some start => if start ≤ pos then some ⟨start, pos⟩ else none

/-- The span over which each local that needs a register has to stay intact. The loops are tried
in both directions, so that a chain of loops, each overlapping the next, is absorbed at once
from either end. -/
def liveSpans (b : Body) : Std.TreeMap Nat Span :=
  let loops := b.loops
  let regions := loops ++ loops.reverse
  b.mentionSpans.map fun _ s ↦ s.widen regions

end RegisterBytecode.Body
