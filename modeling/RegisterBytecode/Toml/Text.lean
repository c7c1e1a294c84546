import RegisterBytecode.Toml.Layout

/-!
# Strings and keys of TOML documents

Strings come in four forms: basic strings in double quotes, which know escapes, literal strings
in single quotes, which do not, and both over several lines in tripled quotes. Up to two quotes
may stand inside a tripled form, also right before its end. A key is a dotted sequence of bare
words and strings of the two short forms.
-/

namespace RegisterBytecode.Toml

/-! ### Escapes -/

/-- The value of a hexadecimal digit. -/
def hexValue? (c : Char) : Option Nat :=
  if '0' ≤ c ∧ c ≤ '9' then some (c.toNat - 48)
  else if 'a' ≤ c ∧ c ≤ 'f' then some (c.toNat - 87)
  else if 'A' ≤ c ∧ c ≤ 'F' then some (c.toNat - 55)
  else none

/-- The character with a hexadecimal code point. -/
def codePoint? (digits : List Char) : Option Char := do
  let values ← digits.mapM hexValue?
  let n := values.foldl (fun n d ↦ n * 16 + d) 0
  if n < 0xd800 ∨ (0xe000 ≤ n ∧ n < 0x110000) then some (Char.ofNat n) else none

/-- The character that a letter behind a backslash stands for. -/
def escaped? : Char → Option Char
  | 'b' => some '\x08'
  | 't' => some '\t'
  | 'n' => some '\n'
  | 'f' => some '\x0c'
  | 'r' => some '\r'
  | '"' => some '"'
  | '\\' => some '\\'
  | _ => none

/-- Take what stands behind a backslash. -/
def escapeTail : Reader Char
  | 'u' :: a :: b :: c :: d :: r => (codePoint? [a, b, c, d]).map (·, r)
  | 'U' :: a :: b :: c :: d :: e :: f :: g :: h :: r =>
    (codePoint? [a, b, c, d, e, f, g, h]).map (·, r)
  | c :: r => (escaped? c).map (·, r)
  | [] => none

/-- An escape consumes at least one character, which is why unescaping ends. -/
theorem length_escapeTail_lt {s r : List Char} {c : Char} (h : escapeTail s = some (c, r)) :
    r.length < s.length := by
  unfold escapeTail at h
  split at h <;> simp only [Option.map_eq_some_iff, Prod.mk.injEq, reduceCtorEq] at h <;>
    (obtain ⟨_, _, _, rfl⟩ := h; simp only [List.length_cons]; omega)

/-! ### Strings -/

/-- Take the rest of a basic string, behind its opening quote. -/
def basicTail (s : List Char) : Option (List Char × List Char) :=
  match s with
  | [] => none
  | '"' :: r => some ([], r)
  | '\\' :: r =>
    match _h : escapeTail r with
    | some (c, r) => (basicTail r).map fun (cs, r) ↦ (c :: cs, r)
    | none => none
  | c :: r => if isPlain c then (basicTail r).map fun (cs, r) ↦ (c :: cs, r) else none
termination_by s.length
decreasing_by
  · have := length_escapeTail_lt ‹_›
    simp only [List.length_cons]
    omega
  · simp

/-- Take the rest of a literal string, behind its opening quote. -/
def literalTail : Reader (List Char)
  | [] => none
  | '\'' :: r => some ([], r)
  | c :: r => if isPlain c then (literalTail r).map fun (cs, r) ↦ (c :: cs, r) else none

/-- Skip blanks and line ends. -/
def skipBlankLines : List Char → List Char
  | ' ' :: r => skipBlankLines r
  | '\t' :: r => skipBlankLines r
  | '\n' :: r => skipBlankLines r
  | '\r' :: '\n' :: r => skipBlankLines r
  | s => s

theorem length_skipBlankLines_le (s : List Char) : (skipBlankLines s).length ≤ s.length := by
  fun_induction skipBlankLines s with
  | case1 r ih | case2 r ih | case3 r ih | case4 r ih =>
    simp only [List.length_cons]
    omega
  | case5 s => exact Nat.le_refl _

/-- Behind a backslash, take blanks up to the line end, and then all blanks and line ends. -/
def foldedLine? (s : List Char) : Option (List Char) :=
  (newline? (skipBlanks s)).map skipBlankLines

theorem length_dropWhile_le (p : Char → Bool) (s : List Char) :
    (s.dropWhile p).length ≤ s.length :=
  (List.dropWhile_sublist p).length_le

theorem length_newline?_lt {s r : List Char} (h : newline? s = some r) : r.length < s.length := by
  unfold newline? at h
  split at h <;> simp only [Option.some.injEq, reduceCtorEq] at h
  · subst h; simp
  · subst h; simp only [List.length_cons]; omega

theorem length_foldedLine?_le {s r : List Char} (h : foldedLine? s = some r) :
    r.length ≤ s.length := by
  unfold foldedLine? at h
  simp only [Option.map_eq_some_iff] at h
  obtain ⟨t, ht, rfl⟩ := h
  have h₁ := length_newline?_lt ht
  have h₂ := length_dropWhile_le isBlank s
  have h₃ := length_skipBlankLines_le t
  unfold skipBlanks at h₁
  omega

/-- The quotes right before the end of a tripled form, which belong to the string. -/
def closingQuotes (q : Char) : List Char → List Char × List Char
  | c :: d :: r =>
    if c = q then if d = q then ([q, q], r) else ([q], d :: r) else ([], c :: d :: r)
  | [c] => if c = q then ([q], []) else ([], [c])
  | [] => ([], [])

/-- Take the rest of a basic string over several lines. -/
def longBasicTail (s : List Char) : Option (List Char × List Char) :=
  match s with
  | [] => none
  | '"' :: '"' :: '"' :: r => some (closingQuotes '"' r)
  | '"' :: r => (longBasicTail r).map fun (cs, r) ↦ ('"' :: cs, r)
  | '\\' :: r =>
    match _h : foldedLine? r with
    | some r => longBasicTail r
    | none =>
      match _h : escapeTail r with
      | some (c, r) => (longBasicTail r).map fun (cs, r) ↦ (c :: cs, r)
      | none => none
  | '\n' :: r => (longBasicTail r).map fun (cs, r) ↦ ('\n' :: cs, r)
  | '\r' :: '\n' :: r => (longBasicTail r).map fun (cs, r) ↦ ('\n' :: cs, r)
  | c :: r => if isPlain c then (longBasicTail r).map fun (cs, r) ↦ (c :: cs, r) else none
termination_by s.length
decreasing_by
  · simp
  · have := length_foldedLine?_le ‹_›
    simp only [List.length_cons]
    omega
  · have := length_escapeTail_lt ‹_›
    simp only [List.length_cons]
    omega
  · simp
  · simp only [List.length_cons]
    omega
  · simp

/-- Take the rest of a literal string over several lines. -/
def longLiteralTail : Reader (List Char)
  | [] => none
  | '\'' :: '\'' :: '\'' :: r => some (closingQuotes '\'' r)
  | '\'' :: r => (longLiteralTail r).map fun (cs, r) ↦ ('\'' :: cs, r)
  | '\n' :: r => (longLiteralTail r).map fun (cs, r) ↦ ('\n' :: cs, r)
  | '\r' :: '\n' :: r => (longLiteralTail r).map fun (cs, r) ↦ ('\n' :: cs, r)
  | c :: r => if isPlain c then (longLiteralTail r).map fun (cs, r) ↦ (c :: cs, r) else none

/-- Skip a line end right behind the opening of a tripled form. -/
def skipFirstNewline (s : List Char) : List Char := (newline? s).getD s

/-- Take a string of any form. -/
def text : Reader String := fun s ↦
  let chars := match s with
    | '"' :: '"' :: '"' :: r => longBasicTail (skipFirstNewline r)
    | '"' :: r => basicTail r
    | '\'' :: '\'' :: '\'' :: r => longLiteralTail (skipFirstNewline r)
    | '\'' :: r => literalTail r
    | _ => none
  chars.map fun (cs, r) ↦ (String.ofList cs, r)

/-! ### Keys -/

/-- Whether a character may stand in a bare key. -/
def isBareKey (c : Char) : Bool := c.isAlphanum || c = '_' || c = '-'

/-- Take one part of a key. -/
def keyPart : Reader String
  | '"' :: r => (basicTail r).map fun (cs, r) ↦ (String.ofList cs, r)
  | '\'' :: r => (literalTail r).map fun (cs, r) ↦ (String.ofList cs, r)
  | s =>
    match s.takeWhile isBareKey with
    | [] => none
    | cs => some (String.ofList cs, s.dropWhile isBareKey)

/-- Take a key of at most a given number of parts, with blanks around each. -/
def keyUpTo : Nat → Reader (List String)
  | 0, _ => none
  | n + 1, s =>
    match keyPart (skipBlanks s) with
    | none => none
    | some (k, r) =>
      match skipBlanks r with
      | '.' :: r => (keyUpTo n r).map fun (ks, r) ↦ (k :: ks, r)
      | r => some ([k], r)

/-- The number of levels that values and keys may not reach. -/
def depthLimit : Nat := 80

/-- Take a dotted key. -/
def key : Reader (List String) := keyUpTo (depthLimit - 1)

end RegisterBytecode.Toml
