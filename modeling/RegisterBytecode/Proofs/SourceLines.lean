import RegisterBytecode.Proofs.Code.Lines
import RegisterBytecode.Proofs.Pool

/-!
# Source lines are exact

With lines recorded, every byte of an image is attributed to the source line of the instruction that
it was emitted for: opcodes, operands and texts alike, and the byte of a padding to the line of the
last instruction of its body. Lines that repeat are stored once, for several instructions and even
for several bodies, and some instructions set a line without leaving a byte; none of this shows.

The layout determines the operations of a segment together with their lines
(`Job.segmentLined`), hence the history of a whole stream (`Job.traces_stream`). The line table of a
finished image compresses that history, so the line of an offset can be read off the operation that
occupies it (`Session.Finished.lineAt?_segment`).

On the side of the image, a byte belongs to a step of the walk over its body (`Image.Occupies`), and
a step belongs to the instruction of which something is read there (`Body.ReadsAt`).
-/

namespace RegisterBytecode

/-! ### Operations and offsets -/

namespace Op

variable {ops : List (Op Operand)} {offset n o x : Nat}

/-- Every offset among operations in a row is one of their bytes. -/
theorem exists_split_of_lt_total (hstart : offset ≤ o) (hstop : o < offset + total ops) :
    ∃ pre op post, ops = pre ++ op :: post ∧ offset + total pre ≤ o ∧
      o < offset + total pre + op.size := by
  induction ops generalizing offset with
  | nil => exact absurd (Nat.lt_of_lt_of_le hstop hstart) (Nat.lt_irrefl _)
  | cons op ops ih =>
    by_cases hop : o < offset + op.size
    · exact ⟨[], op, ops, rfl, hstart, hop⟩
    · rw [total_cons, ← Nat.add_assoc] at hstop
      obtain ⟨pre, op', post, rfl, hle, hlt⟩ := ih (Nat.not_lt.1 hop) hstop
      refine ⟨op :: pre, op', post, rfl, ?_, ?_⟩
      · rwa [total_cons, ← Nat.add_assoc]
      · rwa [total_cons, ← Nat.add_assoc]

/-- The operation that starts at a given step of a walk. -/
theorem exists_split_of_getElem?_starts (h : (starts offset ops)[n]? = some x) :
    ∃ pre op post, ops = pre ++ op :: post ∧ pre.length = n ∧ x = offset + total pre := by
  induction ops generalizing offset n with
  | nil => cases h
  | cons op ops ih =>
    cases n with
    | zero =>
      obtain rfl : offset = x := Option.some.inj h
      exact ⟨[], op, ops, rfl, rfl, rfl⟩
    | succ n =>
      obtain ⟨pre, op', post, rfl, rfl, rfl⟩ := ih h
      refine ⟨op :: pre, op', post, rfl, rfl, ?_⟩
      rw [total_cons, Nat.add_assoc]

end Op

/-- Every instruction is paired with its own line. -/
theorem Body.getElem?_lined (b : Body) (i : Nat) :
    b.lined[i]? = b.code[i]?.map fun x ↦ (x, b.line i) := by
  rw [lined, List.getElem?_map, positioned, List.getElem?_zipIdx, Array.getElem?_toList,
    Option.map_map, Nat.zero_add]
  rfl

theorem Body.length_lined (b : Body) : b.lined.length = b.size := by
  rw [← List.length_map (f := Prod.fst), b.map_fst_lined, Array.length_toList, size]

/-- The last instruction of a body, with its line. -/
theorem Body.exists_lined_eq_concat {b : Body} (h : b.code.toList ≠ []) :
    ∃ xs i, b.lined = xs ++ [(i, b.line (b.size - 1))] := by
  have hne : b.lined ≠ [] := by
    rwa [← b.map_fst_lined, Ne, List.map_eq_nil_iff] at h
  have hlast := List.getLast?_eq_some_getLast hne
  rw [List.getLast?_eq_getElem?, b.getElem?_lined, b.length_lined] at hlast
  obtain ⟨i, -, hi⟩ := Option.map_eq_some_iff.1 hlast
  exact ⟨b.lined.dropLast, i, by rw [hi, List.dropLast_concat_getLast hne]⟩

/-! ### The history of a layout -/

namespace Job

variable {job : Job} {order : List ConstIndex} {gs : List Segment} {g : Segment} {n : Nat}

/-- The operations of a segment, each with the line of its instruction, and the padding with the
line of the last instruction. -/
def segmentLined (job : Job) (order : List ConstIndex) (g : Segment) : List (Op Operand × Nat) :=
  Stream.linedOps (job.ops (slotOf order) g.frame.home) g.body.lined ++
    (padding (endsInLabel g.body.code.toList)).map fun op ↦ (op, g.body.line (g.body.size - 1))

theorem map_fst_segmentLined (job : Job) (order : List ConstIndex) (g : Segment) :
    (job.segmentLined order g).map Prod.fst = job.segmentOps order g := by
  rw [segmentLined, List.map_append, Stream.map_fst_linedOps, g.body.map_fst_lined, List.map_map,
    segmentOps, codeOps]
  congr 1
  exact List.map_id _

theorem map_fst_flatMap_segmentLined (job : Job) (order : List ConstIndex) (gs : List Segment) :
    (gs.flatMap (job.segmentLined order)).map Prod.fst = gs.flatMap (job.segmentOps order) := by
  rw [List.map_flatMap]
  exact List.flatMap_congr fun g _ ↦ job.map_fst_segmentLined order g

theorem size_stream (job : Job) (order : List ConstIndex) (gs : List Segment) :
    (job.stream order gs).code.size = Op.total (gs.flatMap (job.segmentOps order)) := by
  induction gs using List.reverseRecOn with
  | nil => rfl
  | append_singleton gs g ih =>
    rw [stream_concat, Stream.size_pad, labelAtEnd_lay_stream,
      Stream.size_lay fun i ↦ ops_eq_nil_iff, g.body.map_fst_lined, ih, List.flatMap_append,
      List.flatMap_singleton, Op.total_append, segmentOps, Op.total_append, codeOps, Nat.add_assoc]

/-- What a segment is padded with has the line of its last instruction, since a segment that ends
in a label has a last instruction. -/
theorem map_padding_eq :
    (padding (endsInLabel g.body.code.toList)).map (fun op ↦ (op,
        ((job.stream order gs).lay (job.ops (slotOf order) g.frame.home) n g.body.lined).line)) =
      (padding (endsInLabel g.body.code.toList)).map fun op ↦
        (op, g.body.line (g.body.size - 1)) := by
  cases hend : endsInLabel g.body.code.toList with
  | false => rfl
  | true =>
    have hne : g.body.code.toList ≠ [] := by
      intro hnil
      rw [hnil] at hend
      cases hend
    obtain ⟨xs, i, hxs⟩ := Body.exists_lined_eq_concat hne
    rw [hxs, Stream.line_lay]

/-- **The history of a stream** is that of its segments. -/
theorem traces_stream (h : job.config.recordLines = true) :
    (job.stream order gs).Traces (Op.marks 0 (gs.flatMap (job.segmentLined order))) := by
  induction gs using List.reverseRecOn with
  | nil => exact ⟨h, LineTable.compresses_nil, nofun⟩
  | append_singleton gs g ih =>
    have hops : ∀ i, job.ops (slotOf order) g.frame.home i = [] ↔ i.silent = true :=
      fun i ↦ ops_eq_nil_iff
    have hstep : ((job.stream order gs).lay (job.ops (slotOf order) g.frame.home) gs.length
        g.body.lined).pad.Traces _ := (ih.lay hops).pad
    rw [Stream.size_lay hops, labelAtEnd_lay_stream, map_padding_eq, List.append_assoc,
      ← Stream.map_fst_linedOps, ← Op.marks_append, size_stream, ← map_fst_flatMap_segmentLined,
      ← Nat.zero_add (Op.total _), ← Op.marks_append] at hstep
    rw [stream_concat, List.flatMap_append, List.flatMap_singleton]
    exact hstep

end Job

/-! ### Bytes of the walk -/

/-- A byte at an offset belongs to what the walk over a range comes to at a given step. -/
def Image.Occupies (m : Image) (range : Range) (step o : Nat) : Prop :=
  ∃ x len, (m.offsets range.start range.stop)[step]? = some x ∧ m.lengthAt? x = some len ∧ x ≤ o ∧
    o < x + len

instance (m : Image) (range : Range) (step o : Nat) : Decidable (m.Occupies range step o) :=
  decidable_of_iff
    (((m.offsets range.start range.stop)[step]?).any fun x ↦
      (m.lengthAt? x).any fun len ↦ x ≤ o && o < x + len)
    (by simp [Image.Occupies, Option.any_eq_true])

/-- At a given step, the walk over a body comes to something that the instruction at position `i` is
read as. -/
def Body.ReadsAt (p : Program) (config : Config) (slot : ConstIndex → Nat) (home : Reg → Operand)
    (b : Body) (i step : Nat) : Prop :=
  b.readingsBefore p config slot home i ≤ step ∧ step < b.readingsBefore p config slot home (i + 1)

namespace Session.Finished

variable {job : Job} {order : List ConstIndex} {s : Session} {m : Image} {n : Nat} {g : Segment}

/-- **The line of an offset** is that of the operation whose byte stands there. -/
theorem lineAt?_segment (h : Finished job order s m) (hrec : job.config.recordLines = true)
    (hn : (job.segments order)[n]? = some g) {pre post : List (Op Operand × Nat)}
    {x : Op Operand × Nat} (hx : job.segmentLined order g = pre ++ x :: post) {o : Nat}
    (hstart : job.start order (job.segments order) n + Op.total (pre.map Prod.fst) ≤ o)
    (hstop : o < job.start order (job.segments order) n + Op.total (pre.map Prod.fst) +
      x.1.size) :
    m.lineAt? o = some x.2 := by
  have htraces : (job.stream order (job.segments order)).Traces _ := Job.traces_stream hrec
  have hsplit : (job.segments order).flatMap (job.segmentLined order) =
      (((job.segments order).take n).flatMap (job.segmentLined order) ++ pre) ++
        x :: (post ++ ((job.segments order).drop (n + 1)).flatMap (job.segmentLined order)) := by
    conv_lhs => rw [eq_take_append_cons_drop hn]
    rw [List.flatMap_append, List.flatMap_cons, hx]
    simp only [List.append_assoc, List.cons_append]
  have htotal : 0 + Op.total ((((job.segments order).take n).flatMap (job.segmentLined order) ++
      pre).map Prod.fst) =
        job.start order (job.segments order) n + Op.total (pre.map Prod.fst) := by
    rw [Nat.zero_add, List.map_append, Op.total_append, Job.map_fst_flatMap_segmentLined, Job.start]
  rw [Image.lineAt?, h.lines, h.built.laid.stream, htraces.compresses.lineAt?_eq, hsplit]
  refine Op.lineIn?_marks ?_ ?_
  · rwa [htotal]
  · rwa [htotal]

/-- The walk over a segment measures each of its operations. -/
theorem lengthAt?_segment (h : Finished job order s m) (hn : (job.segments order)[n]? = some g)
    {ops rest : List (Op Operand)} {op : Op Operand}
    (hops : job.segmentOps order g = ops ++ op :: rest) :
    m.lengthAt? (job.start order (job.segments order) n + Op.total ops) = some op.size := by
  have hmem : op ∈ job.segmentOps order g := by
    rw [hops]
    exact List.mem_append_right _ List.mem_cons_self
  exact (h.has_op hn hops rfl).lengthAt? (Job.fits_of_mem_segmentOps hmem)

/-- **The bytes of a step** are those of the operation at the same position. -/
theorem occupies_iff (h : Finished job order s m) (hn : (job.segments order)[n]? = some g)
    {step o : Nat} :
    m.Occupies (job.place order (job.segments order) n g) step o ↔
      ∃ pre op post, job.segmentOps order g = pre ++ op :: post ∧ pre.length = step ∧
        job.start order (job.segments order) n + Op.total pre ≤ o ∧
        o < job.start order (job.segments order) n + Op.total pre + op.size := by
  constructor
  · rintro ⟨x, len, hx, hlen, hle, hlt⟩
    rw [h.offsets_segment hn] at hx
    obtain ⟨pre, op, post, hops, hpre, rfl⟩ := Op.exists_split_of_getElem?_starts hx
    obtain rfl : op.size = len := Option.some.inj ((h.lengthAt?_segment hn hops).symm.trans hlen)
    exact ⟨pre, op, post, hops, hpre, hle, hlt⟩
  · rintro ⟨pre, op, post, hops, rfl, hle, hlt⟩
    refine ⟨_, _, ?_, h.lengthAt?_segment hn hops, hle, hlt⟩
    rw [h.offsets_segment hn, hops]
    exact Op.getElem?_starts_append (List.cons_ne_nil _ _) _

/-- **The line of a step** is that of the operation at the same position. -/
theorem lineAt?_of_occupies (h : Finished job order s m) (hrec : job.config.recordLines = true)
    (hn : (job.segments order)[n]? = some g) {step o : Nat}
    (ho : m.Occupies (job.place order (job.segments order) n g) step o)
    {x : Op Operand × Nat} (hx : (job.segmentLined order g)[step]? = some x) :
    m.lineAt? o = some x.2 := by
  obtain ⟨pre, op, post, hops, rfl, hle, hlt⟩ := (h.occupies_iff hn).1 ho
  have hsplit := eq_take_append_cons_drop hx
  have hfst := congrArg (List.map Prod.fst) hsplit
  rw [job.map_fst_segmentLined, hops, List.map_append, List.map_cons] at hfst
  have hlen : pre.length = (((job.segmentLined order g).take pre.length).map Prod.fst).length := by
    have := (List.getElem?_eq_some_iff.1 hx).1
    rw [List.length_map, List.length_take]
    omega
  obtain ⟨hpre, hcons⟩ := List.append_inj hfst hlen
  obtain ⟨rfl, -⟩ := List.cons.inj hcons
  rw [hpre] at hle hlt
  exact h.lineAt?_segment hrec hn hsplit hle hlt

/-- The walk over a segment comes to an instruction after as many steps as the instructions before
it have operations with lines. -/
theorem readingsBefore_eq_length_linedOps (h : Finished job order s m)
    (hn : (job.segments order)[n]? = some g) (k : Nat) :
    g.body.readingsBefore job.program job.config order.idxOf g.frame.home k =
      (Stream.linedOps (job.ops (slotOf order) g.frame.home) (g.body.lined.take k)).length := by
  rw [h.readingsBefore_eq hn, ← List.length_map (f := Prod.fst), Stream.map_fst_linedOps,
    List.map_take, g.body.map_fst_lined]
  rfl

/-- **Every step** is one of an instruction, or the padding. -/
theorem readsAt_or_endsInLabel (h : Finished job order s m)
    (hn : (job.segments order)[n]? = some g) {step : Nat} {op : Op Operand}
    (hop : (job.segmentOps order g)[step]? = some op) :
    (∃ i, g.body.ReadsAt job.program job.config order.idxOf g.frame.home i step) ∨
      g.body.EndsInLabel ∧
        step =
          g.body.readingsBefore job.program job.config order.idxOf g.frame.home g.body.size := by
  -- an operation is among those of the instructions or in the padding
  rw [Job.segmentOps, List.getElem?_append] at hop
  split at hop
  · obtain ⟨i, ins, k, hi, hk, rfl⟩ := exists_of_getElem?_flatMap hop
    refine Or.inl ⟨i, ?_, ?_⟩
    · rw [h.readingsBefore_eq hn]
      exact Nat.le_add_right _ _
    · have := (List.getElem?_eq_some_iff.1 hk).1
      rw [h.readingsBefore_eq hn, Job.codeOps, List.take_add_one, hi, Option.toList_some,
        List.flatMap_append, List.flatMap_singleton, List.length_append]
      omega
  · next hge =>
    have hmem := List.mem_of_getElem? hop
    have hlt := (List.getElem?_eq_some_iff.1 hop).1
    unfold padding at hmem hlt
    split at hmem
    · next hend =>
      rw [if_pos hend, List.length_singleton] at hlt
      refine Or.inr ⟨Body.endsInLabel_toList.1 hend, ?_⟩
      rw [h.readingsBefore_eq hn, Body.size, ← Array.length_toList, List.take_length]
      omega
    · cases hmem

/-- **The steps of an instruction** have its line. -/
theorem getElem?_segmentLined (h : Finished job order s m)
    (hn : (job.segments order)[n]? = some g) {i step : Nat}
    (hi : g.body.ReadsAt job.program job.config order.idxOf g.frame.home i step) :
    ∃ op, (job.segmentLined order g)[step]? = some (op, g.body.line i) := by
  obtain ⟨hle, hlt⟩ := hi
  rw [h.readingsBefore_eq_length_linedOps hn] at hle hlt
  rw [List.take_add_one, g.body.getElem?_lined, Stream.linedOps, List.flatMap_append,
    List.length_append] at hlt
  cases hi : g.body.code[i]? with
  | none =>
    -- behind the last instruction there are no further steps
    rw [hi] at hlt
    exact absurd hlt (Nat.not_lt.2 hle)
  | some ins =>
    rw [hi, Option.map_some, Option.toList_some, List.flatMap_singleton, List.length_map] at hlt
    obtain ⟨k, rfl⟩ := Nat.exists_eq_add_of_le hle
    have hk : k < (job.ops (slotOf order) g.frame.home ins).length := Nat.lt_of_add_lt_add_left hlt
    have hline : g.body.lined[i]? = some (ins, g.body.line i) := by
      rw [g.body.getElem?_lined, hi, Option.map_some]
    have hop : ((job.ops (slotOf order) g.frame.home ins).map fun op ↦ (op, g.body.line i))[k]? =
        some ((job.ops (slotOf order) g.frame.home ins)[k], g.body.line i) := by
      rw [List.getElem?_map, List.getElem?_eq_getElem hk, Option.map_some]
    have hplace : (Stream.linedOps (job.ops (slotOf order) g.frame.home) g.body.lined)[
        (Stream.linedOps (job.ops (slotOf order) g.frame.home) (g.body.lined.take i)).length + k]? =
          some ((job.ops (slotOf order) g.frame.home ins)[k], g.body.line i) :=
      getElem?_flatMap_of_take hline hop
    refine ⟨(job.ops (slotOf order) g.frame.home ins)[k], ?_⟩
    rw [Job.segmentLined, List.getElem?_append_left (List.getElem?_eq_some_iff.1 hplace).1]
    exact hplace

/-- **The padding** has the line of the last instruction. -/
theorem getElem?_segmentLined_padding (h : Finished job order s m)
    (hn : (job.segments order)[n]? = some g) (hend : g.body.EndsInLabel) :
    (job.segmentLined order g)[g.body.readingsBefore job.program job.config order.idxOf
      g.frame.home g.body.size]? = some (Op.nop, g.body.line (g.body.size - 1)) := by
  rw [h.readingsBefore_eq_length_linedOps hn,
    List.take_of_length_le (Nat.le_of_eq g.body.length_lined), Job.segmentLined,
    List.getElem?_append_right (Nat.le_refl _), Nat.sub_self, Body.endsInLabel_toList.2 hend]
  rfl

end Session.Finished

/-! ### The main theorem -/

/-- **Source lines are exact.** With lines recorded, every byte of a compiled body belongs to what
the walk over the body comes to at some step. If the step is one of the instruction at position `i`,
the byte has the line of that instruction, which is `0` if it is unknown; if it is the padding, the
byte has the line of the last instruction. -/
theorem Image.lineAt?_of_compile {program : Program} {config : Config} {image : Image}
    (h : compile program config = .ok image) (hrec : config.recordLines = true) :
    ∃ order, image.Holds program order ∧
      ∀ (slot : Nat) (f : Function), image.pool[slot]? = some (.function f) →
        ∃ index body frame, order[slot]? = some index ∧
          program.get? index = some (.code body) ∧ Frame.allocate body = .ok frame ∧
          (image.offsets f.range.start f.range.stop).map image.read? =
            (body.readings program config order.idxOf frame.home).map some ∧
          (∀ o, f.range.start ≤ o → o < f.range.stop → ∃ step, image.Occupies f.range step o ∧
            ((∃ i, body.ReadsAt program config order.idxOf frame.home i step) ∨
              body.EndsInLabel ∧
                step = body.readingsBefore program config order.idxOf frame.home body.size)) ∧
          (∀ i step o, body.ReadsAt program config order.idxOf frame.home i step →
            image.Occupies f.range step o → image.lineAt? o = some (body.line i)) ∧
          (body.EndsInLabel → ∀ o, image.Occupies f.range (body.readingsBefore program config
              order.idxOf frame.home body.size) o →
            image.lineAt? o = some (body.line (body.size - 1))) := by
  obtain ⟨order, s, hfin⟩ := compile_eq_ok h
  refine ⟨order, hfin.holds, fun slot f hf ↦ ?_⟩
  obtain ⟨index, g, n, hindex, hseg, hn, hrange⟩ := hfin.exists_segment hf
  obtain ⟨hbody, hframe⟩ := Job.segment?_eq_some_iff.1 hseg
  have hrec' : (Job.new program config).config.recordLines = true := hrec
  have hcount := g.body.readingsBefore_clamped program config order.idxOf g.frame.home
  refine ⟨index, g.body, g.frame, hindex, hbody, hframe, ?_, ?_, ?_, ?_⟩
  · rw [← g.body.readings_clamped program config, hrange]
    exact hfin.map_read?_offsets_segment hn
  · intro o hstart hstop
    rw [hrange] at hstart hstop ⊢
    obtain ⟨pre, op, post, hops, hle, hlt⟩ := Op.exists_split_of_lt_total hstart hstop
    have hop : ((Job.new program config).segmentOps order g)[pre.length]? = some op := by
      rw [hops, List.getElem?_append_right (Nat.le_refl _), Nat.sub_self]
      rfl
    refine ⟨pre.length, (hfin.occupies_iff hn).2 ⟨pre, op, post, hops, rfl, hle, hlt⟩, ?_⟩
    simp only [Body.ReadsAt, ← hcount]
    exact hfin.readsAt_or_endsInLabel hn hop
  · intro i step o hi ho
    rw [hrange] at ho
    rw [Body.ReadsAt, ← hcount, ← hcount] at hi
    obtain ⟨op, hop⟩ := hfin.getElem?_segmentLined hn hi
    exact hfin.lineAt?_of_occupies hrec' hn ho hop
  · intro hend o ho
    rw [hrange, ← hcount] at ho
    exact hfin.lineAt?_of_occupies hrec' hn ho (hfin.getElem?_segmentLined_padding hn hend)

/-- A body whose instructions stem from lines in no order. Its second and fourth instruction leave
no bytes, and a label stands at its end. -/
def Body.scattered : Body where
  name := "scattered"
  code := #[.load (.loc 0) 1, .label 0, .closure (.loc 1) 2 [.loc 0, .loc 0], .receive [] none,
    .label 7]
  lines := #[3, 9, 5, 11, 8]
  captured := Std.TreeSet.ofList [Reg.loc 0]

/-- A program with that body and one that has no lines. -/
def Program.scattered : Program where
  constants := #[.code Body.scattered, .str "ab",
    .code { name := "inner", code := #[.load (.loc 0) 1] }]

theorem Image.exists_function {m : Image} {slot : Nat} {range : Range}
    (h : ((m.pool[slot]?).bind Entry.function?).map Function.range = some range) :
    ∃ f, m.pool[slot]? = some (.function f) ∧ f.range = range := by
  obtain ⟨f, hf, rfl⟩ := Option.map_eq_some_iff.1 h
  obtain ⟨e, he, hfun⟩ := Option.bind_eq_some_iff.1 hf
  cases e with
  | function g =>
    obtain rfl := Option.some.inj hfun
    exact ⟨g, he, rfl⟩
  | _ => cases hfun

/-- A byte of the text that the first instruction carries, an operand of the first captured
register, the padding, and a byte of the body without lines. -/
theorem Image.lineAt?_scattered :
    ∃ image f g, compile Program.scattered {} = .ok image ∧
      image.pool[0]? = some (.function f) ∧ image.pool[1]? = some (.function g) ∧
      image.Occupies f.range 0 5 ∧ image.lineAt? 5 = some 3 ∧
      image.Occupies f.range 2 13 ∧ image.lineAt? 13 = some 5 ∧
      image.Occupies f.range 4 21 ∧ image.lineAt? 21 = some 8 ∧
      image.Occupies g.range 0 27 ∧ image.lineAt? 27 = some 0 := by
  have heval : (compile Program.scattered {}).map (fun m ↦ decide (
      ((m.pool[0]?).bind Entry.function?).map Function.range = some ⟨0, 22⟩ ∧
      ((m.pool[1]?).bind Entry.function?).map Function.range = some ⟨22, 28⟩ ∧
      m.Occupies ⟨0, 22⟩ 0 5 ∧ m.Occupies ⟨0, 22⟩ 2 13 ∧ m.Occupies ⟨0, 22⟩ 4 21 ∧
      m.Occupies ⟨22, 28⟩ 0 27)) = .ok true := by
    decide +kernel
  obtain ⟨image, himage, hfacts⟩ := exists_of_map_eq_ok heval
  obtain ⟨hf, hg, htext, hoperand, hpadding, hinner⟩ := of_decide_eq_true hfacts
  obtain ⟨f, hf, hrange⟩ := exists_function hf
  rw [← hrange] at htext hoperand hpadding
  obtain ⟨g, hg, hrange⟩ := exists_function hg
  rw [← hrange] at hinner
  obtain ⟨order, hholds, hall⟩ := lineAt?_of_compile himage rfl
  obtain ⟨index, body, frame, hindex, hbody, -, -, -, hlines, hpad⟩ := hall 0 f hf
  obtain rfl : 0 = index := Option.some.inj (hholds.first.symm.trans hindex)
  obtain rfl : Body.scattered = body := Constant.code.inj (Option.some.inj hbody)
  have hfirst := hlines 0 0 5 ⟨Nat.le_refl 0, Nat.lt_succ_self 0⟩ htext
  have hthird := hlines 2 2 13 ⟨show 1 ≤ 2 by decide, show 2 < 4 by decide⟩ hoperand
  have hlast := hpad (by decide) 21 hpadding
  -- the other body is the only other constant that is one
  obtain ⟨index, body, frame, hindex', hbody, -, -, -, hlines, -⟩ := hall 1 g hg
  obtain rfl : 2 = index := by
    have hne : index ≠ 0 := by
      rintro rfl
      have hlt : 0 < order.length := (List.getElem?_eq_some_iff.1 hindex).1
      cases (List.getElem?_inj hlt hholds.nodup).1 (hindex.trans hindex'.symm)
    match index, hne, hbody with
    | 2, _, _ => rfl
  obtain rfl : _ = body := Constant.code.inj (Option.some.inj hbody)
  have hother := hlines 0 0 27 ⟨Nat.le_refl 0, Nat.lt_succ_self 0⟩ hinner
  exact ⟨image, f, g, himage, hf, hg, htext, hfirst, hoperand, hthird, hpadding, hlast, hinner,
    hother⟩

end RegisterBytecode
