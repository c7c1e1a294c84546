import RegisterBytecode.Alloc.Span
import RegisterBytecode.Code.Operand
import Std.Data.TreeMap
import Std.Data.TreeSet

/-!
# Linear scan

Registers are handed out in one pass over the live spans, by ascending start and then by
ascending local. Before a span is served, every register whose span has ended is released; the
span then takes the least released register, or a fresh one when there is none. The pass fails
only when a fresh register is needed and `operandLimit` of them are in use.
-/

namespace RegisterBytecode

/-- The least element of a set. The walk over the set stops at the first element. -/
def least? {α : Type} {cmp : α → α → Ordering} (t : Std.TreeSet α cmp) : Option α :=
  match t.foldlM (fun _ a ↦ (.error a : Except α Unit)) () with
  | .ok _ => none
  | .error a => some a

theorem least?_eq_min? {α : Type} {cmp : α → α → Ordering} [Std.TransCmp cmp]
    (t : Std.TreeSet α cmp) : least? t = t.min? := by
  rw [Std.TreeSet.min?_eq_head?_toList, least?, Std.TreeSet.foldlM_eq_foldlM_toList]
  cases t.toList with
  | nil => rfl
  | cons a l => rfl

/-- A local and the span over which it has to stay intact. -/
structure Live where
  id : Nat
  span : Span
  deriving DecidableEq, Repr, Inhabited

/-- By start, then by local. The stop only keeps the order faithful. -/
def Live.order : Live → Live → Ordering :=
  compareLex (compareOn fun l ↦ l.span.start)
    (compareLex (compareOn Live.id) (compareOn fun l ↦ l.span.stop))

instance : Std.TransCmp Live.order :=
  inferInstanceAs (Std.TransCmp (compareLex (compareOn fun l : Live ↦ l.span.start)
    (compareLex (compareOn Live.id) (compareOn fun l ↦ l.span.stop))))

/-- A register in use and the last position at which it is. -/
structure Held where
  stop : Nat
  slot : Nat
  deriving DecidableEq, Repr, Inhabited

/-- By stop, then by register. -/
def Held.order : Held → Held → Ordering :=
  compareLex (compareOn Held.stop) (compareOn Held.slot)

instance : Std.TransCmp Held.order :=
  inferInstanceAs (Std.TransCmp (compareLex (compareOn Held.stop) (compareOn Held.slot)))

/-- The state of the pass. -/
structure Scan where
  /-- Registers in use. -/
  active : Std.TreeSet Held Held.order := ∅
  /-- Registers released and not taken again. -/
  free : Std.TreeSet Nat := ∅
  /-- The number of registers taken at least once. -/
  next : Nat := 0

namespace Scan

/-- Taking out the least element leaves a smaller set. -/
theorem size_erase_least?_lt {t : Std.TreeSet Held Held.order} {h : Held}
    (hm : least? t = some h) : (t.erase h).size < t.size := by
  rw [least?_eq_min?] at hm
  have hc : t.contains h = true := Std.TreeSet.contains_min? hm
  have hp : t.size ≠ 0 := by
    intro h0
    have : t.isEmpty = true := by rw [Std.TreeSet.isEmpty_eq_size_eq_zero]; simp [h0]
    rw [Std.TreeSet.min?_of_isEmpty this] at hm
    cases hm
  rw [Std.TreeSet.size_erase, if_pos hc]
  omega

/-- Release every register whose span ends before a position. -/
def expire (s : Scan) (start : Nat) : Scan :=
  match _hm : least? s.active with
  | none => s
  | some held =>
    if held.stop < start then
      expire { s with active := s.active.erase held, free := s.free.insert held.slot } start
    else s
termination_by s.active.size
decreasing_by exact size_erase_least?_lt ‹_›

/-- Take the least released register, or a fresh one. -/
def take (s : Scan) : Option (Nat × Scan) :=
  match least? s.free with
  | some slot => some (slot, { s with free := s.free.erase slot })
  | none => if s.next < operandLimit then some (s.next, { s with next := s.next + 1 }) else none

/-- Serve one span: the register that it gets, and the state behind it. -/
def serve (s : Scan) (span : Span) : Option (Nat × Scan) :=
  match (s.expire span.start).take with
  | some (slot, s) => some (slot, { s with active := s.active.insert ⟨span.stop, slot⟩ })
  | none => none

/-- Serve spans in order, noting the register of each local. -/
def serveAll : List Live → Scan → Std.TreeMap Nat Operand →
    Option (Scan × Std.TreeMap Nat Operand)
  | [], s, homes => some (s, homes)
  | l :: ls, s, homes =>
    match s.serve l.span with
    | some (slot, s) => serveAll ls s (homes.insert l.id (.register slot.toUInt16))
    | none => none

/-- Spans in the order in which they are served. -/
def queue (spans : Std.TreeMap Nat Span) : List Live :=
  (Std.TreeSet.ofList (spans.toList.map fun (id, span) ↦ ⟨id, span⟩) Live.order).toList

/-- Give every local of `spans` a register, beside the storage already chosen in `homes`. The
first component is the number of registers. -/
def run (spans : Std.TreeMap Nat Span) (homes : Std.TreeMap Nat Operand) :
    Option (Nat × Std.TreeMap Nat Operand) :=
  match serveAll (queue spans) {} homes with
  | some (s, homes) => some (s.next, homes)
  | none => none

end Scan

end RegisterBytecode
