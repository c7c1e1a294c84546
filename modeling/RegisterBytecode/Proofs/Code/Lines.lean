import RegisterBytecode.Proofs.Code.Laying

/-!
# Lines of a stream

Every operation records the line that is current when it is emitted. What a stream recorded in all,
before anything is compressed, is its **history**: a mark for each operation, at the offset of its
opcode. The line of an offset is that of the last mark at or before it (`lineIn?`).

A line table keeps only some marks of a history, and looks a line up by halving.
`LineTable.Compresses` says that nothing is lost by this: the table gives every offset the line that
the history gives it. It is preserved by recording one more mark (`Compresses.record`), and the
look-up agrees with it as long as the offsets ascend (`Compresses.lineAt?_eq`).

`Stream.Traces` carries this over to a stream. Laying code appends the marks of its operations to
the history, each with the line of its own instruction (`Traces.lay`), and padding appends one with
the line of the last instruction (`Traces.pad`).
-/

namespace RegisterBytecode

/-! ### Histories -/

/-- The line that a history of marks gives an offset: that of the last mark at or before it. -/
def lineIn? (history : List LineMark) (offset : Nat) : Option Nat :=
  (history.reverse.find? fun m ↦ m.offset ≤ offset).map LineMark.line

section LineIn

variable {history pre post : List LineMark} {m : LineMark} {o : Nat}

/-- The last mark decides from its own offset on. -/
theorem lineIn?_concat (history : List LineMark) (m : LineMark) (o : Nat) :
    lineIn? (history ++ [m]) o = if m.offset ≤ o then some m.line else lineIn? history o := by
  rw [lineIn?, List.reverse_concat, List.find?_cons]
  split
  · next h => rw [if_pos (of_decide_eq_true h), Option.map_some]
  · next h => rw [if_neg (of_decide_eq_false h), lineIn?]

/-- Marks behind an offset do not matter for it. -/
theorem lineIn?_append_of_lt (h : ∀ m ∈ post, o < m.offset) :
    lineIn? (pre ++ post) o = lineIn? pre o := by
  have hnone : (post.reverse.find? fun m ↦ m.offset ≤ o) = none := by
    rw [List.find?_eq_none]
    intro m hm
    have := h m (List.mem_reverse.1 hm)
    simpa using this
  rw [lineIn?, List.reverse_append, List.find?_append, hnone, Option.none_or, lineIn?]

/-- The line of an offset between a mark and the next one. -/
theorem lineIn?_append_cons (hm : m.offset ≤ o) (h : ∀ x ∈ post, o < x.offset) :
    lineIn? (pre ++ m :: post) o = some m.line := by
  rw [List.append_cons, lineIn?_append_of_lt h, lineIn?_concat, if_pos hm]

end LineIn

/-! ### Looking a line up -/

namespace LineTable

variable {t : LineTable} {offset line o lo hi : Nat} {history : List LineMark}

/-- The offsets of the marks ascend. -/
def Ascending (t : LineTable) : Prop := t.marks.toList.Pairwise fun a b ↦ a.offset < b.offset

/-- The first `lo` marks stand at or before an offset, and those from `hi` on stand behind it. -/
structure Encloses (t : LineTable) (o lo hi : Nat) : Prop where
  before : ∀ m ∈ t.marks.toList.take lo, m.offset ≤ o
  behind : ∀ m ∈ t.marks.toList.drop hi, o < m.offset

/-- With a mark at or before an offset, so are all marks up to it. -/
theorem Ascending.before (h : t.Ascending) {k : Nat} {m : LineMark}
    (hk : t.marks.toList[k]? = some m) (hm : m.offset ≤ o) :
    ∀ x ∈ t.marks.toList.take (k + 1), x.offset ≤ o := by
  intro x hx
  rw [List.take_add_one, hk, List.mem_append] at hx
  rw [Ascending, eq_take_append_cons_drop hk, List.pairwise_append] at h
  rcases hx with hx | hx
  · exact Nat.le_of_lt (Nat.lt_of_lt_of_le (h.2.2 x hx m List.mem_cons_self) hm)
  · rwa [List.mem_singleton.1 hx]

/-- With a mark behind an offset, so are all marks from it on. -/
theorem Ascending.behind (h : t.Ascending) {k : Nat} {m : LineMark}
    (hk : t.marks.toList[k]? = some m) (hm : o < m.offset) :
    ∀ x ∈ t.marks.toList.drop k, o < x.offset := by
  intro x hx
  obtain ⟨hlt, rfl⟩ := List.getElem?_eq_some_iff.1 hk
  rw [Ascending, ← List.take_append_drop k t.marks.toList, List.pairwise_append,
    List.drop_eq_getElem_cons hlt, List.pairwise_cons] at h
  rw [List.drop_eq_getElem_cons hlt] at hx
  rcases List.mem_cons.1 hx with rfl | hx
  · exact hm
  · exact Nat.lt_trans hm (h.2.1.1 x hx)

/-- **Halving** ends where the marks at or before the offset end. -/
theorem Ascending.encloses_countFrom (h : t.Ascending) (he : t.Encloses o lo hi) (hle : lo ≤ hi) :
    t.Encloses o (t.countFrom o lo hi) (t.countFrom o lo hi) ∧ t.countFrom o lo hi ≤ hi := by
  fun_induction countFrom t o lo hi with
  | case1 lo hi hlt mid m hmid hm ih =>
    rw [← Array.getElem?_toList] at hmid
    exact ih ⟨h.before hmid hm, he.behind⟩ (by omega)
  | case2 lo hi hlt mid m hmid hm ih =>
    rw [← Array.getElem?_toList] at hmid
    obtain ⟨henc, hcount⟩ := ih ⟨he.before, h.behind hmid (Nat.not_le.1 hm)⟩ (by omega)
    exact ⟨henc, by omega⟩
  | case3 lo hi hlt mid hmid ih =>
    -- there are no marks from the middle on
    have hnil : t.marks.toList.drop mid = [] :=
      List.drop_eq_nil_of_le (by simpa using hmid)
    obtain ⟨henc, hcount⟩ := ih ⟨he.before, by rw [hnil]; nofun⟩ (by omega)
    exact ⟨henc, by omega⟩
  | case4 lo hi hlt =>
    obtain rfl : lo = hi := by omega
    exact ⟨he, Nat.le_refl _⟩

/-- **The look-up finds the last mark at or before an offset.** -/
theorem Ascending.lineAt?_eq (h : t.Ascending) (o : Nat) :
    t.lineAt? o = lineIn? t.marks.toList o := by
  have hall : t.Encloses o 0 t.marks.size := by
    refine ⟨nofun, ?_⟩
    rw [← Array.length_toList, List.drop_length]
    nofun
  obtain ⟨⟨hbefore, hbehind⟩, hle⟩ := h.encloses_countFrom hall (Nat.zero_le _)
  rw [lineAt?]
  split
  · next hzero =>
    rw [hzero, List.drop_zero] at hbehind
    exact (@lineIn?_append_of_lt [] t.marks.toList o hbehind).symm
  · next n hn =>
    rw [hn] at hbefore hbehind hle
    have hget := Array.getElem?_eq_getElem hle
    rw [hget, Option.map_some]
    rw [← Array.getElem?_toList] at hget
    conv_rhs => rw [eq_take_append_cons_drop hget]
    refine (lineIn?_append_cons (hbefore _ ?_) hbehind).symm
    rw [List.take_add_one, hget]
    exact List.mem_append_right _ (List.mem_singleton_self _)

/-! ### Recording a line -/

/-- What recording does: nothing where the last line is repeated, and else it appends a mark, in
place of the last one if that stands at the same offset. -/
theorem record_cases (t : LineTable) (offset line : Nat) :
    (∃ pre last, t.marks.toList = pre ++ [last] ∧ last.line = line ∧ t.record offset line = t) ∨
      (∃ pre last, t.marks.toList = pre ++ [last] ∧ last.line ≠ line ∧ last.offset = offset ∧
        (t.record offset line).marks.toList = pre ++ [⟨offset, line⟩]) ∨
      ((∀ pre last, t.marks.toList = pre ++ [last] → last.line ≠ line ∧ last.offset ≠ offset) ∧
        (t.record offset line).marks.toList = t.marks.toList ++ [⟨offset, line⟩]) := by
  unfold record
  rw [← Array.getLast?_toList]
  split
  · next hnone =>
    refine Or.inr (Or.inr ⟨fun pre last hlast ↦ ?_, Array.toList_push⟩)
    rw [hlast, List.getLast?_concat] at hnone
    cases hnone
  · next last hlast =>
    obtain ⟨pre, hpre⟩ := List.getLast?_eq_some_iff.1 hlast
    split
    · next hline => exact Or.inl ⟨pre, last, hpre, hline, rfl⟩
    · next hline =>
      split
      · next hoffset =>
        refine Or.inr (Or.inl ⟨pre, last, hpre, hline, hoffset, ?_⟩)
        rw [Array.toList_push, Array.toList_pop, hpre, List.dropLast_concat]
      · next hoffset =>
        refine Or.inr (Or.inr ⟨fun pre' last' hlast' ↦ ?_, Array.toList_push⟩)
        obtain rfl : last = last' := by
          rw [hlast', List.getLast?_concat] at hlast
          exact (Option.some.inj hlast).symm
        exact ⟨hline, hoffset⟩

/-- A mark that stands behind all others keeps the order. -/
theorem Ascending.record (h : t.Ascending) (hb : ∀ m ∈ t.marks.toList, m.offset ≤ offset) :
    (t.record offset line).Ascending := by
  rcases t.record_cases offset line with
    ⟨-, -, -, -, heq⟩ | ⟨pre, last, hpre, -, rfl, heq⟩ | ⟨hlast, heq⟩
  · rwa [heq]
  · rw [Ascending, hpre, List.pairwise_append] at h
    rw [Ascending, heq, List.pairwise_append]
    refine ⟨h.1, List.pairwise_singleton _ _, fun a ha b hb ↦ ?_⟩
    rw [List.mem_singleton.1 hb]
    exact h.2.2 a ha last (List.mem_singleton_self _)
  · rw [Ascending, heq, List.pairwise_append]
    refine ⟨h, List.pairwise_singleton _ _, fun a ha b hb' ↦ ?_⟩
    rw [List.mem_singleton.1 hb']
    -- the last mark stands before the new one, and all others before the last
    obtain ⟨pre, last, hpre⟩ : ∃ pre last, t.marks.toList = pre ++ [last] :=
      ⟨_, _, (List.dropLast_concat_getLast (List.ne_nil_of_mem ha)).symm⟩
    have hlt : last.offset < offset :=
      Nat.lt_of_le_of_ne (hb last (by simp [hpre])) (hlast pre last hpre).2
    rw [Ascending, hpre, List.pairwise_append] at h
    rw [hpre, List.mem_append] at ha
    rcases ha with ha | ha
    · exact Nat.lt_trans (h.2.2 a ha last (List.mem_singleton_self _)) hlt
    · rwa [List.mem_singleton.1 ha]

/-- From its offset on a line that is recorded holds, and before it everything stays as it is. -/
theorem lineIn?_record (hb : ∀ m ∈ t.marks.toList, m.offset ≤ offset) (o : Nat) :
    lineIn? (t.record offset line).marks.toList o =
      if offset ≤ o then some line else lineIn? t.marks.toList o := by
  rcases t.record_cases offset line with
    ⟨pre, last, hpre, rfl, heq⟩ | ⟨pre, last, hpre, -, rfl, heq⟩ | ⟨-, heq⟩
  · -- the mark that is left out would repeat the line that holds anyway
    rw [heq]
    split
    · next ho =>
      have hle : last.offset ≤ offset := hb last (by simp [hpre])
      rw [hpre, lineIn?_concat, if_pos (Nat.le_trans hle ho)]
    · rfl
  · rw [heq, lineIn?_concat, hpre, lineIn?_concat]
    split <;> rfl
  · rw [heq, lineIn?_concat]

/-- Recording keeps a table a sublist of the history: it appends, replaces or drops, but never
invents. -/
theorem sublist_record (h : t.marks.toList.Sublist history) :
    (t.record offset line).marks.toList.Sublist (history ++ [⟨offset, line⟩]) := by
  rcases t.record_cases offset line with
    ⟨-, -, -, -, heq⟩ | ⟨pre, last, hpre, -, -, heq⟩ | ⟨-, heq⟩
  · rw [heq]
    exact h.trans (List.sublist_append_left _ _)
  · rw [hpre] at h
    rw [heq]
    exact ((List.sublist_append_left _ _).trans h).append (List.Sublist.refl _)
  · rw [heq]
    exact h.append (List.Sublist.refl _)

/-! ### Compression -/

/-- A table is a compression of a history: it holds some marks of the history, in ascending order,
and gives every offset the same line. -/
structure Compresses (t : LineTable) (history : List LineMark) : Prop where
  ascending : t.Ascending
  sublist : t.marks.toList.Sublist history
  lines : ∀ o, lineIn? t.marks.toList o = lineIn? history o

theorem compresses_nil : ({} : LineTable).Compresses [] :=
  ⟨List.Pairwise.nil, List.Sublist.slnil, fun _ ↦ rfl⟩

/-- **A compressed table answers as its history does**, at every offset. -/
theorem Compresses.lineAt?_eq (h : t.Compresses history) (o : Nat) :
    t.lineAt? o = lineIn? history o := by
  rw [h.ascending.lineAt?_eq, h.lines]

/-- **Recording a mark** that stands behind all others extends the history by it. -/
theorem Compresses.record (h : t.Compresses history) (hb : ∀ m ∈ history, m.offset ≤ offset) :
    (t.record offset line).Compresses (history ++ [⟨offset, line⟩]) := by
  have hmarks : ∀ m ∈ t.marks.toList, m.offset ≤ offset := fun m hm ↦ hb m (h.sublist.subset hm)
  refine ⟨h.ascending.record hmarks, sublist_record h.sublist, fun o ↦ ?_⟩
  rw [lineIn?_record hmarks, lineIn?_concat, h.lines]

end LineTable

/-! ### Marks of operations -/

namespace Op

variable {xs ys pre post : List (Op Operand × Nat)} {x : Op Operand × Nat} {m : LineMark}
  {offset o : Nat}

/-- The marks of operations with their lines, the first of which stands at `offset`. -/
def marks : Nat → List (Op Operand × Nat) → List LineMark
  | _, [] => []
  | offset, x :: xs => ⟨offset, x.2⟩ :: marks (offset + x.1.size) xs

/-- Operations are marked part by part, each at its own offset. -/
theorem marks_append (offset : Nat) (xs ys : List (Op Operand × Nat)) :
    marks offset (xs ++ ys) =
      marks offset xs ++ marks (offset + total (xs.map Prod.fst)) ys := by
  induction xs generalizing offset with
  | nil => rfl
  | cons x xs ih =>
    rw [List.cons_append, marks, ih, marks, List.map_cons, total_cons, Nat.add_assoc,
      List.cons_append]

theorem le_of_mem_marks (h : m ∈ marks offset xs) : offset ≤ m.offset := by
  induction xs generalizing offset with
  | nil => cases h
  | cons x xs ih =>
    rcases List.mem_cons.1 h with rfl | h
    · exact Nat.le_refl _
    · exact Nat.le_trans (Nat.le_add_right _ _) (ih h)

/-- **The bytes of an operation** have its line. -/
theorem lineIn?_marks (hstart : offset + total (pre.map Prod.fst) ≤ o)
    (hstop : o < offset + total (pre.map Prod.fst) + x.1.size) :
    lineIn? (marks offset (pre ++ x :: post)) o = some x.2 := by
  rw [marks_append, marks]
  exact lineIn?_append_cons hstart fun m hm ↦ Nat.lt_of_lt_of_le hstop (le_of_mem_marks hm)

end Op

/-! ### Streams -/

namespace Stream

/-- A stream has recorded a history. -/
structure Traces (s : Stream) (history : List LineMark) : Prop where
  recording : s.recordLines = true
  compresses : s.lines.Compresses history
  behind : ∀ m ∈ history, m.offset ≤ s.code.size

variable {s : Stream} {history : List LineMark}

@[simp] theorem line_emit (s : Stream) (body : Nat) (op : Op Operand) :
    (s.emit body op).line = s.line := by
  rw [emit, pushOperands_eq]
  unfold pushOpcode markLine
  cases op.immediate <;> split <;> rfl

@[simp] theorem recordLines_emit (s : Stream) (body : Nat) (op : Op Operand) :
    (s.emit body op).recordLines = s.recordLines := by
  rw [emit, pushOperands_eq]
  unfold pushOpcode markLine
  cases op.immediate <;> split <;> rfl

/-- An operation records the current line once, where it starts. -/
theorem lines_emit (h : s.recordLines = true) (body : Nat) (op : Op Operand) :
    (s.emit body op).lines = s.lines.record s.code.size s.line := by
  rw [emit, pushOperands_eq, pushOpcode, markLine, if_pos h]
  cases op.immediate <;> rfl

/-- **Emitting an operation** marks the current line where the operation starts. -/
theorem Traces.emit (h : s.Traces history) (body : Nat) (op : Op Operand) :
    (s.emit body op).Traces (history ++ [⟨s.code.size, s.line⟩]) where
  recording := by rw [recordLines_emit, h.recording]
  compresses := by
    rw [lines_emit h.recording]
    exact h.compresses.record h.behind
  behind := by
    intro m hm
    rw [size_emit]
    rcases List.mem_append.1 hm with hm | hm
    · exact Nat.le_trans (h.behind m hm) (Nat.le_add_right _ _)
    · rw [List.mem_singleton.1 hm]
      exact Nat.le_add_right _ _

/-- Operations of one instruction all record its line. -/
theorem Traces.emitAll (h : s.Traces history) (body : Nat) (ops : List (Op Operand)) :
    (s.emitAll body ops).Traces
      (history ++ Op.marks s.code.size (ops.map fun op ↦ (op, s.line))) := by
  induction ops generalizing s history with
  | nil => rwa [List.map_nil, Op.marks, List.append_nil]
  | cons op ops ih =>
    have hrest := ih (h.emit body op)
    rw [line_emit, size_emit] at hrest
    rw [List.map_cons, Op.marks, List.append_cons]
    exact hrest

@[simp] theorem line_emitAll (s : Stream) (body : Nat) (ops : List (Op Operand)) :
    (s.emitAll body ops).line = s.line := by
  induction ops generalizing s with
  | nil => rfl
  | cons op ops ih => exact (ih (s.emit body op)).trans (line_emit s body op)

section Lay

variable {ops : Instr → List (Op Operand)} {body : Nat} {code : List (Instr × Nat)}

/-- The operations of instructions, each with the line of its instruction. -/
def linedOps (ops : Instr → List (Op Operand)) (code : List (Instr × Nat)) :
    List (Op Operand × Nat) :=
  code.flatMap fun x ↦ (ops x.1).map fun op ↦ (op, x.2)

theorem map_fst_linedOps : (linedOps ops code).map Prod.fst = (code.map Prod.fst).flatMap ops := by
  rw [linedOps, List.map_flatMap, List.flatMap_map]
  refine List.flatMap_congr fun x _ ↦ ?_
  rw [List.map_map]
  exact List.map_id _

/-- An instruction makes its line the current one, whether or not it leaves bytes. -/
theorem line_layInstr (x : Instr × Nat) : (s.layInstr ops body x).line = x.2 := by
  unfold layInstr
  split
  · rfl
  · exact line_emitAll ..

/-- Behind code, the current line is that of its last instruction, whether that has left bytes or
not. -/
theorem line_lay (x : Instr × Nat) : (s.lay ops body (code ++ [x])).line = x.2 := by
  rw [lay_concat, line_layInstr]

/-- One instruction marks its own line at each of its operations, and a label marks nothing. -/
theorem Traces.layInstr (h : s.Traces history) (hops : ∀ i, ops i = [] ↔ i.silent = true)
    (x : Instr × Nat) :
    (s.layInstr ops body x).Traces
      (history ++ Op.marks s.code.size ((ops x.1).map fun op ↦ (op, x.2))) := by
  unfold Stream.layInstr
  split
  · next l hl =>
    rw [(hops x.1).2 (silent_of_binds? hl), List.map_nil, Op.marks, List.append_nil]
    exact ⟨h.recording, h.compresses, h.behind⟩
  · have hline : (s.setLine x.2).Traces history := ⟨h.recording, h.compresses, h.behind⟩
    exact hline.emitAll body (ops x.1)

/-- **Laying code** marks every operation with the line of its instruction. -/
theorem Traces.lay (h : s.Traces history) (hops : ∀ i, ops i = [] ↔ i.silent = true) :
    (s.lay ops body code).Traces (history ++ Op.marks s.code.size (linedOps ops code)) := by
  induction code using List.reverseRecOn with
  | nil => rwa [linedOps, List.flatMap_nil, Op.marks, List.append_nil]
  | append_singleton code x ih =>
    have hstep : ((s.lay ops body code).layInstr ops body x).Traces _ := ih.layInstr hops x
    rw [size_lay hops, ← map_fst_linedOps, List.append_assoc, ← Op.marks_append] at hstep
    rw [lay_concat, linedOps, List.flatMap_append, List.flatMap_singleton]
    exact hstep

end Lay

/-- Padding is marked with the current line. -/
theorem Traces.pad (h : s.Traces history) :
    s.pad.Traces (history ++
      Op.marks s.code.size ((padding s.labelAtEnd).map fun op ↦ (op, s.line))) := by
  unfold Stream.pad
  split
  · next hend =>
    rw [hend]
    exact h.emit 0 Op.nop
  · next hend =>
    rw [padding, if_neg hend, List.map_nil, Op.marks, List.append_nil]
    exact h

end Stream

end RegisterBytecode
