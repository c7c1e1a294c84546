import RegisterBytecode.Proofs.Code.Edits
import RegisterBytecode.Proofs.Code.KnownLines

/-!
# What a stream remembers of its lines

Whatever is done to a stream, its line table stands for the lines of all opcodes that were ever
appended. The uncompressed history can be read off the edits (`Edit.marks`): every opcode marks the
line that was set last, at the offset where it is written. Lines that repeat are left out of the
table, lines may be unknown, and raw bytes may stand before, between and behind the opcodes; still
the table gives every offset the line of the last opcode at or before it, and the last known line is
that of the last opcode whose line is known.

Both rest on the table being a compression of the history (`Stream.Traces`), which every edit keeps
(`Stream.Recorded.changed`). An opcode brings its own byte, so marks never share an offset
(`Edit.pairwise_marks`), and that is why the table needs to replace none of them.
-/

namespace RegisterBytecode.Stream

/-! ### The history of edits -/

namespace Edit

/-- Whether an edit appends an opcode. -/
def hasOpcode : Edit → Bool
  | opcode _ _ => true
  | jump _ _ _ _ => true
  | _ => false

/-- The line that is current after an edit, if `line` was current before it. -/
def lineAfter (line : Nat) : Edit → Nat
  | setLine line' => line'
  | _ => line

/-- The marks of edits, the first of which writes at `offset` while `line` is current: one for each
opcode, with the line that is current then. -/
def marks : Nat → Nat → List Edit → List LineMark
  | _, _, [] => []
  | offset, line, x :: xs =>
    (if x.hasOpcode then [⟨offset, line⟩] else []) ++
      marks (offset + x.size) (x.lineAfter line) xs

variable {x : Edit} {m : LineMark} {offset line : Nat}

/-- An edit that emits an operation has an opcode, and keeps the current line. -/
theorem hasOpcode_of_emits? {body : Nat} {op : Op Operand} (h : x.emits? = some (body, op)) :
    x.hasOpcode = true ∧ ∀ line, x.lineAfter line = line := by
  cases x with
  | opcode | jump => exact ⟨rfl, fun _ ↦ rfl⟩
  | _ => cases h

theorem hasOpcode_of_raw? {bs : List UInt8} (h : x.raw? = some bs) :
    x.hasOpcode = false ∧ ∀ line, x.lineAfter line = line := by
  cases x with
  | setLine | opcode | jump => cases h
  | _ => exact ⟨rfl, fun _ ↦ rfl⟩

theorem size_pos_of_hasOpcode (h : x.hasOpcode = true) : 0 < x.size := by
  cases x with
  | opcode op regs => exact Nat.add_pos_left Nat.one_pos _
  | jump op cond body label => exact Nat.succ_pos _
  | _ => cases h

/-- One more edit adds its own mark, if it has an opcode. -/
theorem marks_concat (offset line : Nat) (xs : List Edit) (x : Edit) :
    marks offset line (xs ++ [x]) = marks offset line xs ++
      if x.hasOpcode then [⟨offset + total xs, xs.foldl lineAfter line⟩] else [] := by
  induction xs generalizing offset line with
  | nil => simp [marks]
  | cons y xs ih =>
    rw [List.cons_append, marks, ih, total_cons, ← Nat.add_assoc, marks, List.append_assoc,
      List.foldl_cons]

theorem le_of_mem_marks {xs : List Edit} (h : m ∈ marks offset line xs) : offset ≤ m.offset := by
  induction xs generalizing offset line with
  | nil => cases h
  | cons x xs ih =>
    rcases List.mem_append.1 h with h | h
    · split at h
      · rw [List.mem_singleton.1 h]
      · cases h
    · exact Nat.le_trans (Nat.le_add_right _ _) (ih h)

/-- The opcode of a mark has been written. -/
theorem lt_of_mem_marks {xs : List Edit} (h : m ∈ marks offset line xs) :
    m.offset < offset + total xs := by
  induction xs generalizing offset line with
  | nil => cases h
  | cons x xs ih =>
    rw [total_cons, ← Nat.add_assoc]
    rcases List.mem_append.1 h with h | h
    · split at h
      · next hx =>
        have hpos := size_pos_of_hasOpcode hx
        rw [List.mem_singleton.1 h]
        show offset < _
        omega
      · cases h
    · exact ih h

/-- **No two opcodes share an offset.** -/
theorem pairwise_marks (offset line : Nat) (xs : List Edit) :
    (marks offset line xs).Pairwise fun a b ↦ a.offset < b.offset := by
  induction xs generalizing offset line with
  | nil => exact List.Pairwise.nil
  | cons x xs ih =>
    rw [marks, List.pairwise_append]
    split
    · next hx =>
      have hpos := size_pos_of_hasOpcode hx
      refine ⟨List.pairwise_singleton _ _, ih _ _, fun a ha b hb ↦ ?_⟩
      have hle := le_of_mem_marks hb
      rw [List.mem_singleton.1 ha]
      show offset < b.offset
      omega
    · exact ⟨List.Pairwise.nil, ih _ _, nofun⟩

end Edit

/-! ### What every edit keeps -/

/-- A stream has recorded the history of edits. -/
structure Recorded (xs : List Edit) (s : Stream) : Prop where
  traces : s.Traces (Edit.marks 0 0 xs)
  alternates : s.lines.Alternates
  size : s.code.size = Edit.total xs
  line : s.line = xs.foldl Edit.lineAfter 0

section Recorded

variable {xs : List Edit} {x : Edit} {s t : Stream}

theorem recorded_start : Recorded [] { recordLines := true } where
  traces := ⟨rfl, LineTable.compresses_nil, nofun⟩
  alternates := List.IsChain.nil
  size := rfl
  line := rfl

/-- An edit without an opcode records nothing. -/
theorem Recorded.keep (h : s.Recorded xs) (hx : x.hasOpcode = false)
    (hrecord : t.recordLines = s.recordLines) (hlines : t.lines = s.lines)
    (hsize : t.code.size = s.code.size + x.size) (hline : t.line = x.lineAfter s.line) :
    t.Recorded (xs ++ [x]) where
  traces := by
    rw [Edit.marks_concat, hx, if_neg Bool.false_ne_true, List.append_nil]
    refine ⟨hrecord.trans h.traces.recording, hlines ▸ h.traces.compresses, fun m hm ↦ ?_⟩
    rw [hsize]
    exact Nat.le_trans (h.traces.behind m hm) (Nat.le_add_right _ _)
  alternates := hlines ▸ h.alternates
  size := by rw [hsize, h.size, Edit.total_append, Edit.total_singleton]
  line := by rw [hline, h.line, List.foldl_concat]

/-- **An opcode** records the current line where it is written, behind all marks. -/
theorem Recorded.emit (h : s.Recorded xs) {body : Nat} {op : Op Operand}
    (hx : x.emits? = some (body, op)) : (s.emit body op).Recorded (xs ++ [x]) where
  traces := by
    have htraces := h.traces.emit body op
    rw [h.size, h.line] at htraces
    rwa [Edit.marks_concat, if_pos (Edit.hasOpcode_of_emits? hx).1, Nat.zero_add]
  alternates := by
    rw [lines_emit h.traces.recording]
    refine h.alternates.record fun m hm ↦ ?_
    have hlt := Edit.lt_of_mem_marks (h.traces.compresses.sublist.subset hm)
    rwa [Nat.zero_add, ← h.size] at hlt
  size := by
    rw [size_emit, Edit.size_of_emits? hx, h.size, Edit.total_append, Edit.total_singleton]
  line := by
    rw [line_emit, h.line, List.foldl_concat, (Edit.hasOpcode_of_emits? hx).2]

/-- Filling in jumps leaves the lines alone, however it ends. -/
theorem Recorded.resolve (h : s.Recorded xs) (ranges : Array Range) :
    (s.resolve ranges).Leaves fun t ↦ t.Recorded (xs ++ [.resolve ranges]) := by
  have hkeep : ∀ t, s.SameFrame t → t.Recorded (xs ++ [.resolve ranges]) := by
    intro t ht
    refine h.keep rfl ?_ ?_ ht.size ?_
    · rw [ht.rest]
    · rw [ht.rest]
    · rw [ht.rest]
      rfl
  have hframe := sameFrame_resolve s ranges
  revert hframe
  cases s.resolve ranges with
  | done u t => exact hkeep t
  | failed e t => exact hkeep t
  | fault f => exact id

/-- **Every edit** keeps the record. -/
theorem Recorded.changed (h : s.Recorded xs) (hx : s.Changed x t) : t.Recorded (xs ++ [x]) := by
  have hsize := hx.size_eq
  cases hx with
  | setLine line => exact h.keep rfl rfl rfl hsize rfl
  | emit hx => exact h.emit hx
  | append hx =>
    obtain ⟨hop, hline⟩ := Edit.hasOpcode_of_raw? hx
    exact h.keep hop rfl rfl hsize (hline _).symm
  | bind hfree => exact h.keep rfl rfl rfl hsize rfl
  | @resolve ranges t u ht =>
    have hleaves := h.resolve ranges
    rwa [ht] at hleaves

/-- **After any edits**, whatever errors they returned, the table records the marks of all of them.
-/
theorem recorded_of_perform {es : List CompileError}
    (h : perform xs { recordLines := true } = .ok (es, s)) : s.Recorded xs := by
  refine @perform_induction _ _ (fun xs _ s ↦ s.Recorded xs) (fun hs hx ↦ hs.changed hx)
    (fun {_ _ ranges _ _ _} hs hfailed ↦ ?_) [] xs [] es recorded_start h
  have hleaves := hs.resolve ranges
  rwa [hfailed] at hleaves

end Recorded

/-! ### The main theorem -/

/-- **The line table stands for all lines.** After any edits of a stream that records lines, whether
or not filling in jumps ran into a limit on the way, the offsets of the table ascend and
neighbouring lines differ. Every offset, also behind the end, has the line of the last opcode at or
before it, and no line if there is none; and the last known line is that of the last opcode whose
line is known. -/
theorem lines_of_perform {xs : List Edit} {es : List CompileError} {s : Stream}
    (h : perform xs { recordLines := true } = .ok (es, s)) :
    s.lines.marks.toList.Pairwise (fun a b ↦ a.offset < b.offset) ∧
      s.lines.marks.toList.IsChain (fun a b ↦ a.line ≠ b.line) ∧
      (∀ pool o, (s.image pool).lineAt? o = lineIn? (Edit.marks 0 0 xs) o) ∧
      s.lastLine? = lastKnown? ((Edit.marks 0 0 xs).map LineMark.line) := by
  have hs := recorded_of_perform h
  have hcompresses := hs.traces.compresses
  exact ⟨hcompresses.ascending, hs.alternates, fun _ o ↦ hcompresses.lineAt?_eq o,
    hcompresses.lastLine?_eq (Edit.pairwise_marks 0 0 xs)⟩

/-- Bytes before the first opcode, a line that repeats, and a jump without a line. -/
def Edit.mixed : List Edit :=
  [.bytes [1, 2], .setLine 3, .opcode .nop [], .byte 7, .opcode .clear [.register 0], .setLine 0,
    .bind 0 4, .jump .jump none 0 4, .setLine 9, .bind 0 5, .resolve #[⟨0, 12⟩]]

/-- The second opcode of line `3` is not in the table, and line `9` was never used. -/
theorem lines_of_mixed :
    ∃ s, perform Edit.mixed { recordLines := true } = .ok ([], s) ∧
      s.lines.marks = #[⟨2, 3⟩, ⟨7, 0⟩] ∧ (s.image #[]).lineAt? 1 = none ∧
      (s.image #[]).lineAt? 6 = some 3 ∧ (s.image #[]).lineAt? 100 = some 0 ∧
      s.lastLine? = some 3 := by
  have heval : (perform Edit.mixed { recordLines := true }).map
      (fun r ↦ decide (r.1 = [] ∧ r.2.lines.marks = #[⟨2, 3⟩, ⟨7, 0⟩])) = .ok true := by
    decide +kernel
  obtain ⟨⟨es, s⟩, hperform, hfacts⟩ := exists_of_map_eq_ok heval
  obtain ⟨rfl, hmarks⟩ := of_decide_eq_true hfacts
  obtain ⟨-, -, hlines, hlast⟩ := lines_of_perform hperform
  refine ⟨s, hperform, hmarks, ?_, ?_, ?_, ?_⟩
  · rw [hlines]
    decide
  · rw [hlines]
    decide
  · rw [hlines]
    decide
  · rw [hlast]
    decide

end RegisterBytecode.Stream
