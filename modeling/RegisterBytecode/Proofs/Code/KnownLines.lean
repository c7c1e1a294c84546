import Mathlib.Data.List.Chain
import RegisterBytecode.Proofs.Code.Lines

/-!
# The last known line of a history

An error is attributed to the last line that is known, which a line table looks for from its end.
The table has forgotten most of the history by then, so this is a second property of the
compression, next to the line of an offset: the last known line of the table is that of the history
(`LineTable.Compresses.lastLine?_eq`). It needs that no two marks of the history stand at the same
offset. A mark that replaces another one may hide a known line, and that is what marks at different
offsets exclude.

For the same reason neighbouring marks of a table have different lines (`LineTable.Alternates`), as
long as every mark is recorded behind all others.
-/

namespace RegisterBytecode

/-- The last known one of lines. -/
def lastKnown? (lines : List Nat) : Option Nat := lines.reverse.find? fun line ↦ 0 < line

section LastKnown

variable {pre post : List Nat} {line : Nat}

theorem lastKnown?_eq_none (h : ∀ l ∈ post, l = 0) : lastKnown? post = none := by
  rw [lastKnown?, List.find?_eq_none]
  intro l hl
  rw [h l (List.mem_reverse.1 hl)]
  decide

/-- Unknown lines at the end do not matter. -/
theorem lastKnown?_append_cons (hline : 0 < line) (h : ∀ l ∈ post, l = 0) :
    lastKnown? (pre ++ line :: post) = some line := by
  have hpost : (post.reverse.find? fun l ↦ 0 < l) = none := lastKnown?_eq_none h
  rw [lastKnown?, List.reverse_append, List.reverse_cons, List.append_assoc, List.find?_append,
    hpost, Option.none_or, List.singleton_append, List.find?_cons_of_pos (by simpa using hline)]

end LastKnown

/-- Either no mark of a history has a known line, or there is a last one that has. -/
theorem forall_unknown_or_exists_last (history : List LineMark) :
    (∀ m ∈ history, m.line = 0) ∨
      ∃ pre m post, history = pre ++ m :: post ∧ 0 < m.line ∧ ∀ x ∈ post, x.line = 0 := by
  induction history using List.reverseRecOn with
  | nil => exact Or.inl nofun
  | append_singleton history m ih =>
    by_cases hm : 0 < m.line
    · exact Or.inr ⟨history, m, [], rfl, hm, nofun⟩
    · have hzero : m.line = 0 := Nat.eq_zero_of_not_pos hm
      rcases ih with hall | ⟨pre, x, post, rfl, hx, hpost⟩
      · refine Or.inl fun y hy ↦ ?_
        rcases List.mem_append.1 hy with hy | hy
        · exact hall y hy
        · rwa [List.mem_singleton.1 hy]
      · refine Or.inr ⟨pre, x, post ++ [m], by simp, hx, fun y hy ↦ ?_⟩
        rcases List.mem_append.1 hy with hy | hy
        · exact hpost y hy
        · rwa [List.mem_singleton.1 hy]

/-- The mark from which an offset has its line. -/
theorem exists_of_lineIn? {history : List LineMark} {o line : Nat}
    (h : lineIn? history o = some line) :
    ∃ pre m post, history = pre ++ m :: post ∧ m.offset ≤ o ∧ m.line = line ∧
      ∀ x ∈ post, o < x.offset := by
  obtain ⟨m, hfind, rfl⟩ := Option.map_eq_some_iff.1 h
  obtain ⟨hm, as, bs, hrev, has⟩ := List.find?_eq_some_iff_append.1 hfind
  refine ⟨bs.reverse, m, as.reverse, ?_, of_decide_eq_true hm, rfl, fun x hx ↦ ?_⟩
  · rw [← List.reverse_reverse history, hrev]
    simp
  · have hnot := has x (List.mem_reverse.1 hx)
    simpa using hnot

namespace LineTable

variable {t : LineTable} {history : List LineMark} {offset line : Nat}

/-- A table reports the last of its lines that is known. -/
theorem lastLine?_eq_lastKnown? (t : LineTable) :
    t.lastLine? = lastKnown? (t.marks.toList.map LineMark.line) := by
  rw [lastLine?, lastKnown?, Array.findRev?_eq_find?_reverse, ← Array.find?_toList,
    Array.toList_reverse, ← List.map_reverse, List.find?_map]
  rfl

/-- **The last known line of a table** is that of the history, if no two marks of the history share
an offset. -/
theorem Compresses.lastLine?_eq (h : t.Compresses history)
    (hasc : history.Pairwise fun a b ↦ a.offset < b.offset) :
    t.lastLine? = lastKnown? (history.map LineMark.line) := by
  rw [lastLine?_eq_lastKnown?]
  rcases forall_unknown_or_exists_last history with hall | ⟨pre, m, post, rfl, hm, hpost⟩
  · rw [lastKnown?_eq_none, lastKnown?_eq_none]
    · exact List.forall_mem_map.2 hall
    · exact List.forall_mem_map.2 fun x hx ↦ hall x (h.sublist.subset hx)
  · obtain ⟨hpre, hlater, hbefore⟩ := List.pairwise_append.1 hasc
    -- the table gives the offset of the last known mark its line, from some mark on
    have hline : lineIn? t.marks.toList m.offset = some m.line := by
      rw [h.lines]
      exact lineIn?_append_cons (Nat.le_refl _) (List.pairwise_cons.1 hlater).1
    obtain ⟨pre', m', post', htable, -, hsame, hbehind⟩ := exists_of_lineIn? hline
    -- the marks behind that one stem from behind the last known mark
    have hunknown : ∀ x ∈ post', x.line = 0 := by
      intro x hx
      have hlt := hbehind x hx
      have hmem : x ∈ pre ++ m :: post := h.sublist.subset (by simp [htable, hx])
      rcases List.mem_append.1 hmem with hmem | hmem
      · exact absurd hlt (Nat.lt_asymm (hbefore x hmem m List.mem_cons_self))
      · rcases List.mem_cons.1 hmem with rfl | hmem
        · exact absurd hlt (Nat.lt_irrefl _)
        · exact hpost x hmem
    rw [htable, List.map_append, List.map_cons, hsame, List.map_append, List.map_cons,
      lastKnown?_append_cons hm (List.forall_mem_map.2 hunknown),
      lastKnown?_append_cons hm (List.forall_mem_map.2 hpost)]

/-- Neighbouring marks have different lines. -/
def Alternates (t : LineTable) : Prop := t.marks.toList.IsChain fun a b ↦ a.line ≠ b.line

/-- A mark that stands behind all others does not replace one, and one that would repeat the last
line is left out. -/
theorem Alternates.record (h : t.Alternates) (hb : ∀ m ∈ t.marks.toList, m.offset < offset) :
    (t.record offset line).Alternates := by
  rcases t.record_cases offset line with
    ⟨-, -, -, -, heq⟩ | ⟨pre, last, hpre, -, rfl, -⟩ | ⟨hlast, heq⟩
  · rwa [heq]
  · exact absurd (hb last (by simp [hpre])) (Nat.lt_irrefl _)
  · rw [Alternates, heq, List.isChain_append]
    refine ⟨h, List.isChain_singleton _, fun x hx y hy ↦ ?_⟩
    obtain ⟨pre, hpre⟩ := List.getLast?_eq_some_iff.1 hx
    obtain rfl := Option.some.inj hy
    exact (hlast pre x hpre).1

end LineTable

/-! ### Marks of operations -/

namespace Op

/-- The marks of operations carry the lines of these, in order. -/
theorem map_line_marks (offset : Nat) (xs : List (Op Operand × Nat)) :
    (marks offset xs).map LineMark.line = xs.map Prod.snd := by
  induction xs generalizing offset with
  | nil => rfl
  | cons x xs ih => rw [marks, List.map_cons, ih, List.map_cons]

/-- Every operation has an opcode, so no two of them share an offset. -/
theorem pairwise_marks (offset : Nat) (xs : List (Op Operand × Nat)) :
    (marks offset xs).Pairwise fun a b ↦ a.offset < b.offset := by
  induction xs generalizing offset with
  | nil => exact List.Pairwise.nil
  | cons x xs ih =>
    refine List.pairwise_cons.2 ⟨fun m hm ↦ ?_, ih _⟩
    have hle := le_of_mem_marks hm
    have hpos := x.1.size_pos
    show offset < m.offset
    omega

end Op

end RegisterBytecode
