/-!
# Line tables

A line table maps stream offsets to source lines. It holds an entry only where the line changes:
`LineTable.record` drops an entry that repeats the line before it, and the line at an offset is
that of the last entry at or before it (`LineTable.lineAt?`). Offsets are recorded in ascending
order, so the last such entry is found by halving. Line `0` stands for an unknown line.
-/

namespace RegisterBytecode

/-- An offset from which on a source line holds. -/
structure LineMark where
  offset : Nat
  line : Nat
  deriving DecidableEq, Repr, Inhabited

/-- Marks in ascending order of their offsets. -/
structure LineTable where
  marks : Array LineMark := #[]
  deriving DecidableEq, Repr, Inhabited

namespace LineTable

/-- Note that `line` holds from `offset` on. A mark that repeats the last line adds nothing, and
a second mark at one offset replaces the first. -/
def record (t : LineTable) (offset line : Nat) : LineTable :=
  match t.marks.back? with
  | none => ⟨t.marks.push ⟨offset, line⟩⟩
  | some last =>
    if last.line = line then t
    else if last.offset = offset then ⟨t.marks.pop.push ⟨offset, line⟩⟩
    else ⟨t.marks.push ⟨offset, line⟩⟩

/-- The number of marks among `lo` to `hi` that stand at or before `offset`, plus `lo`, by
halving; it expects ascending offsets. -/
def countFrom (t : LineTable) (offset lo hi : Nat) : Nat :=
  if lo < hi then
    let mid := (lo + hi) / 2
    match t.marks[mid]? with
    | some m =>
      if m.offset ≤ offset then countFrom t offset (mid + 1) hi else countFrom t offset lo mid
    | none => countFrom t offset lo mid
  else lo
termination_by hi - lo

/-- The source line at an offset, if a mark stands at or before it. -/
def lineAt? (t : LineTable) (offset : Nat) : Option Nat :=
  match t.countFrom offset 0 t.marks.size with
  | 0 => none
  | n + 1 => t.marks[n]?.map LineMark.line

/-- The last known line. -/
def lastLine? (t : LineTable) : Option Nat :=
  (t.marks.findRev? fun m ↦ 0 < m.line).map LineMark.line

/-- The last known line at or before an offset. -/
def lastLineUpTo? (t : LineTable) (offset : Nat) : Option Nat :=
  (t.marks.findRev? fun m ↦ m.offset ≤ offset && 0 < m.line).map LineMark.line

end LineTable

end RegisterBytecode
