import RegisterBytecode.Toml.Value

/-!
# TOML documents

A document is a sequence of lines. A header opens a section, and the assignments up to the next
header belong to it; those before the first header belong to the document itself. Each section is
built as a whole and attached to the tree at its header's path, so no table stays open from one
line to the next.
-/

namespace RegisterBytecode.Toml

/-- What opens a section. -/
inductive Header where
  /-- The beginning of the document. -/
  | top
  /-- The header of a table. -/
  | table (path : List String)
  /-- The header of a further element of an array of tables. -/
  | element (path : List String)

/-- A line that says something. -/
inductive Line where
  | header (header : Header)
  | assign (key : List String) (value : Node)

/-- Take a line that says something. -/
def line (s : List Char) : Option (Line × List Char) :=
  match s with
  | '[' :: '[' :: r =>
    match key r with
    | some (path, ']' :: ']' :: r) => (closeLine r).map (.header (.element path), ·)
    | _ => none
  | '[' :: r =>
    match key r with
    | some (path, ']' :: r) => (closeLine r).map (.header (.table path), ·)
    | _ => none
  | s =>
    match pair (value (depthLimit - 1)) s with
    | some ((k, v), r) => (closeLine r).map (.assign k v, ·)
    | none => none

/-- Whether a line that begins with a character says nothing. -/
def beginsIdle (c : Char) : Bool := c = '#' || c = '\n' || c = '\r'

/-- Take at most `n` lines, up to the end of the text. -/
def lines : Nat → List Char → Option (List Line)
  | 0, _ => none
  | n + 1, s =>
    match skipBlanks s with
    | [] => some []
    | c :: r =>
      if beginsIdle c then (closeLine (c :: r)).bind (lines n)
      else
        match line (c :: r) with
        | some (l, r) => (lines n r).map (l :: ·)
        | none => none

/-- Attach a section to the tree. A table may have one header, which may come after headers that
imply it. -/
def attach (root : Fields) (pairs : List (List String × Node)) : Header → Option Fields
  | .top => root.assignAll pairs
  | .table path =>
    match path.getLast? with
    | none => none
    | some last =>
      Fields.update (fun _ t ↦
        match t.get? last with
        | none => (Fields.assignAll [] pairs).map fun u ↦ t.set last (.table .header u)
        | some (.table .implied u) =>
          (Fields.assignAll u pairs).map fun u ↦ t.set last (.table .header u)
        | some _ => none) false path.dropLast .header root
  | .element path =>
    match path.getLast? with
    | none => none
    | some last =>
      Fields.update (fun _ t ↦
        match t.get? last with
        | none => (Fields.assignAll [] pairs).map fun u ↦ t.set last (.tables [u])
        | some (.tables us) =>
          (Fields.assignAll [] pairs).map fun u ↦ t.set last (.tables (us ++ [u]))
        | some _ => none) false path.dropLast .header root

/-- Attach the sections of a document in order; `header` and `pairs` are the section that is
open, last assignment first. -/
def assemble (root : Fields) (header : Header) (pairs : List (List String × Node)) :
    List Line → Option Fields
  | [] => attach root pairs.reverse header
  | .assign k v :: ls => assemble root header ((k, v) :: pairs) ls
  | .header next :: ls =>
    match attach root pairs.reverse header with
    | some root => assemble root next [] ls
    | none => none

/-- Skip a byte order mark. -/
def skipMark : List Char → List Char
  | '\ufeff' :: s => s
  | s => s

/-- The tree of a document, if it is well formed. -/
def parse? (source : String) : Option Fields :=
  let s := skipMark source.toList
  (lines (s.length + 1) s).bind (assemble [] .top [])

end RegisterBytecode.Toml
