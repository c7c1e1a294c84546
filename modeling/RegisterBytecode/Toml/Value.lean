import RegisterBytecode.Toml.Moment
import RegisterBytecode.Toml.Node
import RegisterBytecode.Toml.Number
import RegisterBytecode.Toml.Text

/-!
# Values of TOML documents

Values nest: an array may run over several lines and end in a comma, an inline table may do
neither. Nesting stays below `depthLimit`, so the reader recurs on the number of levels that are
left.
-/

namespace RegisterBytecode.Toml

/-- Take a number or moment, which begin alike. -/
def numeric (s : List Char) : Option (Node × List Char) :=
  match moment s with
  | some r => some (.moment, r)
  | none =>
    match float s with
    | some r => some (.float, r)
    | none => (integer s).map fun (i, r) ↦ (.int i, r)

/-- Take a value that holds no others. -/
def scalar (s : List Char) : Option (Node × List Char) :=
  match s with
  | [] => none
  | c :: _ =>
    if c = '"' ∨ c = '\'' then (text s).map fun (t, r) ↦ (.text t, r)
    else if c = 't' then (exactly? "true".toList s).map (Node.bool true, ·)
    else if c = 'f' then (exactly? "false".toList s).map (Node.bool false, ·)
    else if c = 'i' ∨ c = 'n' then (specialFloat s).map (Node.float, ·)
    else if c = '+' ∨ c = '-' ∨ c.isDigit then numeric s
    else none

/-- Take at most `n` array items up to the closing bracket. -/
def arrayItems (item : Reader Node) : Nat → Reader (List Node)
  | 0, _ => none
  | n + 1, s =>
    match skipLayout s with
    | ']' :: r => some ([], r)
    | s =>
      match item s with
      | none => none
      | some (v, r) =>
        match skipLayout r with
        | ',' :: r => (arrayItems item n r).map fun (vs, r) ↦ (v :: vs, r)
        | ']' :: r => some ([v], r)
        | _ => none

/-- Take a key, an equals sign and a value. -/
def pair (item : Reader Node) (s : List Char) : Option ((List String × Node) × List Char) :=
  match key s with
  | some (k, '=' :: r) => (item (skipBlanks r)).map fun (v, r) ↦ ((k, v), r)
  | _ => none

/-- Take at least one and at most `n` fields of an inline table, up to the closing brace. -/
def inlineFields (item : Reader Node) : Nat → Reader (List (List String × Node))
  | 0, _ => none
  | n + 1, s =>
    match pair item s with
    | none => none
    | some (p, r) =>
      match skipBlanks r with
      | ',' :: r => (inlineFields item n r).map fun (ps, r) ↦ (p :: ps, r)
      | '}' :: r => some ([p], r)
      | _ => none

/-- Take the rest of an inline table, behind its opening brace. -/
def inlineTail (item : Reader Node) (s : List Char) : Option (Node × List Char) :=
  match skipBlanks s with
  | '}' :: r => some (.inline [], r)
  | s =>
    match inlineFields item (s.length + 1) s with
    | none => none
    | some (pairs, r) => (Fields.assignAll [] pairs).map fun t ↦ (.inline t, r)

/-- Take a value that nests at most `depth` levels deep. -/
def value : Nat → Reader Node
  | 0, s => scalar s
  | depth + 1, s =>
    match s with
    | '[' :: r => (arrayItems (value depth) (r.length + 1) r).map fun (vs, r) ↦ (.list vs, r)
    | '{' :: r => inlineTail (value depth) r
    | s => scalar s

end RegisterBytecode.Toml
