import RegisterBytecode.Proofs.Session.Emission

/-!
# The layout of compiled bodies

Bodies stand in the stream one behind the other, in the order in which they are compiled. A body
with the storage chosen for it is a `Segment`; its operations are those of its instructions, and one
more that does nothing if a label would otherwise be left at its end (`Job.segmentOps`). From the
list of segments everything about the stream can be computed: the stream itself (`Job.stream`), its
chunks (`Job.chunks`), where a segment starts (`Job.start`) and where an instruction of a segment
stands (`Job.instrOffset`).

`Job.Laid` says that a stream and the noted ranges are those of a list of segments. The one
step that the compiler takes is `Job.Laid.concat`: it lays one more segment.
-/

namespace RegisterBytecode

/-- The instructions of a body with their lines, as they are emitted. -/
def Body.lined (b : Body) : List (Instr × Nat) := b.positioned.map fun x ↦ (x.1, b.line x.2)

theorem Body.map_fst_lined (b : Body) : b.lined.map Prod.fst = b.code.toList := by
  have hfst : (Prod.fst ∘ fun x : Instr × Nat ↦ (x.1, b.line x.2)) = Prod.fst := rfl
  rw [lined, List.map_map, hfst, positioned, List.zipIdx_map_fst]

theorem Body.mem_code_of_mem_lined {b : Body} {x : Instr × Nat} (h : x ∈ b.lined) :
    x.1 ∈ b.code.toList := by
  rw [← b.map_fst_lined]
  exact List.mem_map_of_mem h

/-- A body with the storage chosen for it. -/
structure Segment where
  body : Body
  frame : Frame

namespace Job

section Layout

variable (job : Job) (order : List ConstIndex)

/-- The operations of instructions of a segment. -/
def codeOps (frame : Frame) (is : List Instr) : List (Op Operand) :=
  is.flatMap (job.ops (slotOf order) frame.home)

/-- The operations of a segment. -/
def segmentOps (g : Segment) : List (Op Operand) :=
  job.codeOps order g.frame g.body.code.toList ++ padding (endsInLabel g.body.code.toList)

/-- The chunks of segments, each under its own ordinal. -/
def chunks (gs : List Segment) : List Chunk :=
  gs.zipIdx.flatMap fun x ↦ (job.segmentOps order x.1).flatMap (Op.chunks x.2)

/-- The stream into which segments have been laid one after another. -/
def stream (gs : List Segment) : Stream :=
  gs.zipIdx.foldl
    (fun st x ↦ (st.lay (job.ops (slotOf order) x.1.frame.home) x.2 x.1.body.lined).pad)
    { recordLines := job.config.recordLines }

/-- Where a segment starts. -/
def start (gs : List Segment) (n : Nat) : Nat :=
  Op.total ((gs.take n).flatMap (job.segmentOps order))

/-- The place of a segment. -/
def place (gs : List Segment) (n : Nat) (g : Segment) : Range :=
  ⟨job.start order gs n, job.start order gs n + Op.total (job.segmentOps order g)⟩

/-- Where the instruction at a position of a segment leaves its first byte, if it leaves any. -/
def instrOffset (gs : List Segment) (n : Nat) (g : Segment) (k : Nat) : Nat :=
  job.start order gs n + Op.total (job.codeOps order g.frame (g.body.code.toList.take k))

end Layout

variable {job : Job} {order fresh : List ConstIndex} {gs : List Segment} {g : Segment} {n : Nat}

/-- The operations of a segment, before and from an instruction on. -/
theorem segmentOps_eq (k : Nat) :
    job.segmentOps order g = job.codeOps order g.frame (g.body.code.toList.take k) ++
      (job.codeOps order g.frame (g.body.code.toList.drop k) ++
        padding (endsInLabel g.body.code.toList)) := by
  have hcode : job.codeOps order g.frame g.body.code.toList =
      job.codeOps order g.frame (g.body.code.toList.take k) ++
        job.codeOps order g.frame (g.body.code.toList.drop k) := by
    rw [codeOps, codeOps, codeOps, ← List.flatMap_append, List.take_append_drop]
  rw [segmentOps, hcode, List.append_assoc]

/-! ### Segments at the end and in the middle -/

/-- One more segment adds its chunks, under the next ordinal. -/
theorem chunks_concat :
    job.chunks order (gs ++ [g]) =
      job.chunks order gs ++ (job.segmentOps order g).flatMap (Op.chunks gs.length) := by
  rw [chunks, List.zipIdx_append, List.flatMap_append, chunks]
  simp

/-- One more segment is laid on the stream of the others, and padded. -/
theorem stream_concat :
    job.stream order (gs ++ [g]) =
      ((job.stream order gs).lay (job.ops (slotOf order) g.frame.home) gs.length
        g.body.lined).pad := by
  rw [stream, List.zipIdx_append, List.foldl_append, stream]
  simp

/-- Behind segments no label stands at the end of the stream. -/
theorem labelsBehind_stream (job : Job) (order : List ConstIndex) (gs : List Segment) :
    (job.stream order gs).LabelsBehind ∧ (job.stream order gs).labelAtEnd = false := by
  induction gs using List.reverseRecOn with
  | nil => exact ⟨nofun, rfl⟩
  | append_singleton gs g ih =>
    rw [stream_concat]
    exact ⟨(ih.1.lay fun i ↦ ops_eq_nil_iff).pad, Stream.labelAtEnd_pad _⟩

/-- A segment is padded exactly if it ends in a label. -/
theorem labelAtEnd_lay_stream (n : Nat) :
    ((job.stream order gs).lay (job.ops (slotOf order) g.frame.home) n
      g.body.lined).labelAtEnd = endsInLabel g.body.code.toList := by
  obtain ⟨hbehind, hend⟩ := job.labelsBehind_stream order gs
  rw [hbehind.labelAtEnd_lay (fun i ↦ ops_eq_nil_iff) hend, g.body.map_fst_lined]

/-- The chunks of segments end where the next segment would start. -/
theorem total_chunks : Chunk.total (job.chunks order gs) = job.start order gs gs.length := by
  induction gs using List.reverseRecOn with
  | nil => rfl
  | append_singleton gs g ih =>
    rw [chunks_concat, Chunk.total_append, ih, Op.total_flatMap_chunks, start, start,
      List.take_length, List.take_length, List.flatMap_append, Op.total_append,
      List.flatMap_singleton]

/-- Where a segment starts does not depend on those behind it. -/
theorem start_append (hn : n ≤ gs.length) (gs' : List Segment) :
    job.start order (gs ++ gs') n = job.start order gs n := by
  rw [start, List.take_append_of_le_length hn, start]

/-- A segment in the middle splits the chunks: what precedes it ends where it starts. -/
theorem exists_chunks_eq (job : Job) (order : List ConstIndex) (h : gs[n]? = some g) :
    ∃ pre post, job.chunks order gs =
        pre ++ ((job.segmentOps order g).flatMap (Op.chunks n) ++ post) ∧
      Chunk.total pre = job.start order gs n := by
  induction gs using List.reverseRecOn with
  | nil => cases h
  | append_singleton gs g' ih =>
    rw [chunks_concat]
    rcases getElem?_concat_eq_some.1 h with h | ⟨rfl, rfl⟩
    · obtain ⟨pre, post, hsplit, htotal⟩ := ih h
      refine ⟨pre, post ++ (job.segmentOps order g').flatMap (Op.chunks gs.length), ?_, ?_⟩
      · rw [hsplit]
        simp only [List.append_assoc]
      · rw [htotal, start_append (Nat.le_of_lt (List.getElem?_eq_some_iff.1 h).1)]
    · refine ⟨job.chunks order gs, [], ?_, ?_⟩
      · rw [List.append_nil]
      · rw [total_chunks, start_append (Nat.le_refl _)]

/-! ### Segments that compile -/

/-- A segment is sound: its storage is the one chosen for its body, it binds no label twice, and
everything that it demands has its slot. -/
structure Sound (job : Job) (order : List ConstIndex) (g : Segment) : Prop where
  allocated : Frame.allocate g.body = .ok g.frame
  unique : g.body.UniqueLabels
  supplied : ∀ i ∈ g.body.code.toList, job.Supplied order i

/-- A segment that is sound stays so when more constants are asked for. -/
theorem Sound.append (h : job.Sound order g) : job.Sound (order ++ fresh) g :=
  ⟨h.allocated, h.unique, fun i hi ↦ (h.supplied i hi).append fresh⟩

/-- Operations of supplied instructions stay what they are when more constants are asked for. -/
theorem codeOps_append {is : List Instr} (h : ∀ i ∈ is, job.Supplied order i) (frame : Frame) :
    job.codeOps (order ++ fresh) frame is = job.codeOps order frame is :=
  List.flatMap_congr fun i hi ↦ (h i hi).ops_append frame.home fresh

/-- A sound segment keeps its operations when more constants are asked for. -/
theorem Sound.segmentOps_append (h : job.Sound order g) :
    job.segmentOps (order ++ fresh) g = job.segmentOps order g := by
  rw [segmentOps, codeOps_append h.supplied, segmentOps]

theorem chunks_append (h : ∀ g ∈ gs, job.Sound order g) :
    job.chunks (order ++ fresh) gs = job.chunks order gs := by
  refine List.flatMap_congr fun x hx ↦ ?_
  rw [(h x.1 (List.fst_mem_of_mem_zipIdx hx)).segmentOps_append]

/-- Sound segments keep the stream that holds them. -/
theorem stream_append_order (h : ∀ g ∈ gs, job.Sound order g) :
    job.stream (order ++ fresh) gs = job.stream order gs := by
  refine List.foldl_ext _ _ _ fun st x hx ↦ ?_
  have hsound := h x.1 (List.fst_mem_of_mem_zipIdx hx)
  rw [Stream.lay_congr fun y hy ↦ ?_]
  exact (hsound.supplied y.1 (Body.mem_code_of_mem_lined hy)).ops_append x.1.frame.home fresh

theorem start_append_order (h : ∀ g ∈ gs, job.Sound order g) (n : Nat) :
    job.start (order ++ fresh) gs n = job.start order gs n := by
  rw [start, start,
    List.flatMap_congr fun g hg ↦ (h g (List.mem_of_mem_take hg)).segmentOps_append]

/-- Sound segments keep their places. -/
theorem place_append_order (h : ∀ g ∈ gs, job.Sound order g) (hg : job.Sound order g) (n : Nat) :
    job.place (order ++ fresh) gs n g = job.place order gs n g := by
  rw [place, place, start_append_order h, hg.segmentOps_append]

/-- Instructions of sound segments keep their offsets. -/
theorem instrOffset_append_order (h : ∀ g ∈ gs, job.Sound order g) (hg : job.Sound order g)
    (n k : Nat) : job.instrOffset (order ++ fresh) gs n g k = job.instrOffset order gs n g k := by
  rw [instrOffset, instrOffset, start_append_order h,
    codeOps_append fun i hi ↦ hg.supplied i (List.mem_of_mem_take hi)]

/-- **Something of its segment stands behind every label**: if no later instruction leaves bytes,
the segment is padded. -/
theorem rest_ne_nil (job : Job) (order : List ConstIndex) {k : Nat} {l : Label}
    (h : g.body.BindsAt k l) :
    job.codeOps order g.frame (g.body.code.toList.drop k) ++
      padding (endsInLabel g.body.code.toList) ≠ [] := by
  intro hnil
  obtain ⟨hcode, hpad⟩ := List.append_eq_nil_iff.1 hnil
  have hends : endsInLabel g.body.code.toList = true := by
    refine endsInLabel_iff.2 ⟨k, l, by rwa [Array.getElem?_toList], fun j i hj hi ↦ ?_⟩
    refine ops_eq_nil_iff.1 (List.flatMap_eq_nil_iff.1 hcode i ?_)
    refine List.mem_of_getElem? (i := j - k) ?_
    rw [List.getElem?_drop, Nat.add_sub_cancel' (Nat.le_of_lt hj), hi]
  rw [hends] at hpad
  cases hpad

/-- A label is bound before the end of its segment, so it is one of its offsets. -/
theorem instrOffset_lt {k : Nat} {l : Label} (h : g.body.BindsAt k l) :
    job.instrOffset order gs n g k < (job.place order gs n g).stop := by
  show _ < job.start order gs n + Op.total (job.segmentOps order g)
  rw [instrOffset, segmentOps_eq k, Op.total_append]
  have := Op.total_pos (job.rest_ne_nil order h)
  omega

/-! ### Streams that hold segments -/

/-- A stream and the ranges noted for it are those of segments. -/
structure Laid (job : Job) (order : List ConstIndex) (gs : List Segment) (st : Stream)
    (ranges : Array Range) : Prop where
  sound : ∀ g ∈ gs, job.Sound order g
  stream : st = job.stream order gs
  lays : st.Lays (job.chunks order gs)
  size : ranges.size = gs.length
  ranges : ∀ (n : Nat) (g : Segment), gs[n]? = some g → ranges[n]? = some (job.place order gs n g)
  /-- A label stands where its segment binds it. -/
  labels : ∀ (n : Nat) (g : Segment) (k : Nat) (l : Label), gs[n]? = some g → g.body.BindsAt k l →
    st.labels[(n, l)]? = some (job.instrOffset order gs n g k)
  /-- No other label is bound. -/
  bound : ∀ (n : Nat) (l : Label) (o : Nat), st.labels[(n, l)]? = some o →
    ∃ g k, gs[n]? = some g ∧ g.body.BindsAt k l

theorem Laid.nil : job.Laid order [] { recordLines := job.config.recordLines } #[] :=
  ⟨nofun, rfl, ⟨rfl, rfl⟩, rfl, nofun, nofun, fun n l o h ↦ by simp at h⟩

variable {st : Stream} {ranges : Array Range}

/-- What is laid stays what it is when more constants are asked for. -/
theorem Laid.append_order (h : job.Laid order gs st ranges) :
    job.Laid (order ++ fresh) gs st ranges where
  sound := fun g hg ↦ (h.sound g hg).append
  stream := by rw [stream_append_order h.sound, h.stream]
  lays := by
    rw [chunks_append h.sound]
    exact h.lays
  size := h.size
  ranges := by
    intro n g hg
    rw [place_append_order h.sound (h.sound g (List.mem_of_getElem? hg))]
    exact h.ranges n g hg
  labels := by
    intro n g k l hg hk
    rw [instrOffset_append_order h.sound (h.sound g (List.mem_of_getElem? hg))]
    exact h.labels n g k l hg hk
  bound := h.bound

/-- The end of the stream is where the next segment starts. -/
theorem Laid.offset_eq (h : job.Laid order gs st ranges) :
    st.code.size = job.start order gs gs.length := by
  rw [h.lays.size, total_chunks]

theorem instrOffset_append {k : Nat} (hn : n ≤ gs.length) (gs' : List Segment) :
    job.instrOffset order (gs ++ gs') n g k = job.instrOffset order gs n g k := by
  rw [instrOffset, start_append hn, instrOffset]

theorem place_append (hn : n ≤ gs.length) (gs' : List Segment) :
    job.place order (gs ++ gs') n g = job.place order gs n g := by
  rw [place, start_append hn, place]

/-- **Laying one more segment**: its instructions, and the padding where a label needs it. -/
theorem Laid.concat (h : job.Laid order gs st ranges) (hg : job.Sound order g) :
    job.Laid order (gs ++ [g])
      (st.lay (job.ops (slotOf order) g.frame.home) gs.length g.body.lined).pad
      (ranges.push (job.place order gs gs.length g)) := by
  have hcode := g.body.map_fst_lined
  have hops : ∀ i, job.ops (slotOf order) g.frame.home i = [] ↔ i.silent = true :=
    fun i ↦ ops_eq_nil_iff
  let laid := st.lay (job.ops (slotOf order) g.frame.home) gs.length g.body.lined
  have hlay : laid.Lays (job.chunks order gs ++
      (job.codeOps order g.frame g.body.code.toList).flatMap (Op.chunks gs.length)) := by
    rw [← hcode]
    exact h.lays.lay hops
  have hend : laid.labelAtEnd = endsInLabel g.body.code.toList := by
    show (st.lay _ _ _).labelAtEnd = _
    rw [h.stream]
    exact labelAtEnd_lay_stream _
  refine ⟨?_, ?_, ?_, ?_, ?_, ?_, ?_⟩
  · intro g' hg'
    rcases List.mem_append.1 hg' with hg' | hg'
    · exact h.sound g' hg'
    · rwa [List.mem_singleton.1 hg']
  · rw [stream_concat, ← h.stream]
  · have hpad := hlay.pad gs.length
    rw [hend, List.append_assoc, ← List.flatMap_append] at hpad
    rw [chunks_concat]
    exact hpad
  · rw [Array.size_push, h.size, List.length_append, List.length_singleton]
  · intro n g' hn
    rw [Array.getElem?_push, h.size]
    rcases getElem?_concat_eq_some.1 hn with hn | ⟨rfl, rfl⟩
    · have hlt := (List.getElem?_eq_some_iff.1 hn).1
      rw [if_neg (Nat.ne_of_lt hlt), place_append (Nat.le_of_lt hlt)]
      exact h.ranges n g' hn
    · rw [if_pos rfl, place_append (Nat.le_refl _)]
  · intro n g' k l hn hk
    rw [Stream.labels_pad]
    rcases getElem?_concat_eq_some.1 hn with hn | ⟨rfl, rfl⟩
    · -- an earlier segment: its labels have another ordinal
      have hlt := (List.getElem?_eq_some_iff.1 hn).1
      rw [Stream.getElem?_labels_lay_of_not fun hl ↦ Nat.ne_of_lt hlt hl.1,
        instrOffset_append (Nat.le_of_lt hlt)]
      exact h.labels n g' k l hn hk
    · rw [instrOffset_append (Nat.le_refl _), instrOffset, ← h.offset_eq, ← hcode]
      refine Stream.getElem?_labels_lay hops ?_ ?_
      · rw [hcode]
        exact Body.uniqueLabels_iff_nodup.1 hg.unique
      · rw [hcode, Array.getElem?_toList]
        exact hk
  · intro n l o ho
    rw [Stream.labels_pad] at ho
    by_cases hmem : n = gs.length ∧ l ∈ (g.body.lined.map Prod.fst).filterMap Instr.binds?
    · obtain ⟨rfl, hl⟩ := hmem
      obtain ⟨i, hi, hbinds⟩ := List.mem_filterMap.1 hl
      obtain ⟨k, hk⟩ := List.mem_iff_getElem?.1 hi
      rw [hcode, Array.getElem?_toList, Body.binds?_eq_some_iff.1 hbinds] at hk
      exact ⟨g, k, List.getElem?_concat_length, hk⟩
    · rw [Stream.getElem?_labels_lay_of_not hmem] at ho
      obtain ⟨g', k, hn, hk⟩ := h.bound n l o ho
      exact ⟨g', k, getElem?_concat_eq_some.2 (Or.inl hn), hk⟩

end Job

end RegisterBytecode
