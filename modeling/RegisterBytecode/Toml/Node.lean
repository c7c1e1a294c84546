/-!
# The tree of a TOML document

A table is a list of fields without repeated keys. What may be added to a table depends on how it
came about (`Origin`): a table with a header is complete once its section ends, a table that is
only implied by a longer header may still get a header of its own, and a table made by a dotted
key may only be extended by further dotted keys. Inline tables and arrays are values and may not
be extended at all.
-/

namespace RegisterBytecode.Toml

/-- How a table came about. -/
inductive Origin where
  /-- By a header, or as the document itself. -/
  | header
  /-- By a longer header that leads through it. -/
  | implied
  /-- By a dotted key that leads through it. -/
  | dotted
  deriving DecidableEq, Repr

/-- A value or table. Of floats and moments only the form matters. -/
inductive Node where
  | bool (value : Bool)
  | int (value : Int)
  | float
  | text (value : String)
  | moment
  | list (items : List Node)
  /-- A table within a value. -/
  | inline (fields : List (String × Node))
  | table (origin : Origin) (fields : List (String × Node))
  /-- The tables of one array header, in order. -/
  | tables (elements : List (List (String × Node)))
  deriving Inhabited

/-- The fields of a table. -/
abbrev Fields := List (String × Node)

namespace Fields

/-- The value of a key. -/
def get? (t : Fields) (k : String) : Option Node := t.lookup k

/-- Set the value of a key, at its place or else at the end. -/
def set (t : Fields) (k : String) (v : Node) : Fields :=
  match t with
  | [] => [(k, v)]
  | (k', v') :: t => if k' = k then (k, v) :: t else (k', v') :: set t k v

/-- Change the table to which a path leads. A path goes through the last table of an array, and
makes the tables that are missing. A dotted key does not lead into a table with a header. -/
def update (f : Origin → Fields → Option Fields) (dotted : Bool) :
    List String → Origin → Fields → Option Fields
  | [], origin, t => f origin t
  | k :: path, _, t =>
    match t.get? k with
    | none =>
      let origin := if dotted then .dotted else .implied
      (update f dotted path origin []).map fun u ↦ t.set k (.table origin u)
    | some (.table origin u) =>
      if dotted ∧ origin = .header then none
      else (update f dotted path origin u).map fun u ↦ t.set k (.table origin u)
    | some (.tables elements) =>
      match elements.getLast? with
      | none => none
      | some u =>
        (update f dotted path .header u).map fun u ↦ t.set k (.tables (elements.dropLast ++ [u]))
    | some _ => none

/-- Add a value under a dotted key to a table that is under construction. -/
def assign (t : Fields) (key : List String) (v : Node) : Option Fields :=
  match key.getLast? with
  | none => none
  | some last =>
    let path := key.dropLast
    update (fun origin u ↦
      if (origin = .dotted) = path.isEmpty then none
      else if (u.get? last).isSome then none
      else some (u.set last v)) true path .header t

/-- Add values under dotted keys, in order. -/
def assignAll (t : Fields) (pairs : List (List String × Node)) : Option Fields :=
  pairs.foldlM (fun t (k, v) ↦ t.assign k v) t

end Fields

end RegisterBytecode.Toml
