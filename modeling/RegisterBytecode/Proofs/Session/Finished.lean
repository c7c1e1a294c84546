import RegisterBytecode.Proofs.Session.Queue

/-!
# Finished images

A compilation that succeeds ends in an image whose stream holds the segments of all constants asked
for, with the distances of all jumps filled in, and whose pool holds the entries that this layout
determines. `Session.Finished` says so, and `compile_eq_ok` gets it from a successful compilation;
nothing after this module looks at a session's steps again.

From there on an image is read at a place of the layout: a segment's bytes stand where it
starts (`Finished.has_segment`), a walk over its range visits exactly its operations
(`Finished.offsets_segment`), and each of them is read back (`Finished.read_segment`).
-/

namespace RegisterBytecode

/-! ### What a pool holds -/

/-- An entry is the compiled form of a constant: the same literal, or the announcement of the body
with the counts of the storage chosen for it. -/
def Entry.Represents : Entry → Constant → Prop
  | .nil, .nil => True
  | .bool a, .bool b => a = b
  | .int a, .int b => a = b
  | .float a, .float b => a = b
  | .str a, .str b => a = b
  | .function f, .code body => f.name = body.name ∧ f.upvalueNames = body.upvalueNames ∧
    ∃ frame, Frame.allocate body = .ok frame ∧ f.registers = frame.registers ∧
      f.cells = frame.cells ∧ f.upvalues = frame.upvalues
  | _, _ => False

/-- The pool of an image holds certain constants of a program, each once and in a given order that
starts with the entry. -/
structure Image.Holds (m : Image) (p : Program) (order : List ConstIndex) : Prop where
  first : order[0]? = some p.entry
  nodup : order.Nodup
  size : m.pool.size = order.length
  entries : ∀ (slot : Nat) (index : ConstIndex), order[slot]? = some index →
    ∃ c e, p.get? index = some c ∧ m.pool[slot]? = some e ∧ e.Represents c

/-- The entry of a constant is its compiled form. -/
theorem Job.represents_of_entryOf? {job : Job} {order : List ConstIndex} {gs : List Segment}
    {index : ConstIndex} {e : Entry} (h : job.entryOf? order gs index = some e) :
    ∃ c, job.program.get? index = some c ∧ e.Represents c := by
  unfold entryOf? at h
  split at h
  case h_7 body hc =>
    obtain ⟨g, hg, rfl⟩ := Option.map_eq_some_iff.1 h
    obtain ⟨hbody, hframe⟩ := segment?_eq_some_iff.1 hg
    exact ⟨.code g.body, hbody, rfl, rfl, g.frame, hframe, rfl, rfl, rfl⟩
  case h_1 => cases h
  all_goals
    next hc =>
    cases h
    exact ⟨_, hc, by trivial⟩

namespace Session

/-- An image is what the constants `order` compile to, and `s` is the session before the jumps were
filled in. -/
structure Finished (job : Job) (order : List ConstIndex) (s : Session) (m : Image) : Prop where
  built : s.Built job order order []
  pool : m.pool = s.pool
  lines : m.lines = s.stream.lines
  code : m.code.toList =
    Chunk.render s.stream.distanceOf 0 (job.chunks order (job.segments order))
  resolved : ∀ p ∈ Chunk.patches 0 (job.chunks order (job.segments order)),
    s.stream.Resolves s.ranges p

/-- **Jumps are filled in last**: then everything that was compiled stands as it will be read. -/
theorem finished_of_resolve {job : Job} {order : List ConstIndex} {s t : Session} {u : Unit}
    (h : s.Built job order order []) (hr : s.resolve = .done u t) :
    Finished job order s t.finish := by
  unfold Session.resolve at hr
  split at hr
  · next v st hst =>
    cases hr
    obtain ⟨hframe, hcode, hres⟩ := h.laid.lays.resolve hst
    have hlines : st.lines = s.stream.lines := by rw [hframe]
    exact ⟨h, rfl, hlines, hcode, hres⟩
  · cases hr
  · cases hr

end Session

/-- **What a successful compilation has done.** -/
theorem compile_eq_ok {program : Program} {config : Config} {image : Image}
    (h : compile program config = .ok image) :
    ∃ order s, Session.Finished (Job.new program config) order s image := by
  unfold compile at h
  dsimp only at h
  split at h
  · next u t hrun =>
    cases h
    obtain ⟨order, s, hbuilt, hresolve⟩ := Session.built_of_run hrun
    exact ⟨order, s, Session.finished_of_resolve hbuilt hresolve⟩
  · cases h
  · cases h

namespace Job

variable {job : Job} {order : List ConstIndex} {g : Segment} {op : Op Operand}

/-- An operation of a segment is one of an instruction, or the padding. -/
theorem mem_segmentOps (h : op ∈ job.segmentOps order g) :
    (∃ i ∈ g.body.code.toList, op ∈ job.ops (slotOf order) g.frame.home i) ∨ op = Op.nop := by
  rcases List.mem_append.1 h with h | h
  · exact Or.inl (List.mem_flatMap.1 h)
  · unfold padding at h
    split at h
    · exact Or.inr (List.mem_singleton.1 h)
    · cases h

theorem fits_of_mem_segmentOps (h : op ∈ job.segmentOps order g) : op.Fits := by
  rcases mem_segmentOps h with ⟨i, -, hop⟩ | rfl
  · exact fits_of_mem_ops hop
  · exact ⟨rfl, rfl⟩

/-- Every operand of a sound segment is within the limits of the encoding. -/
theorem Sound.inLimits (hg : job.Sound order g) (h : op ∈ job.segmentOps order g) :
    op.InLimits := by
  rcases mem_segmentOps h with ⟨i, hi, hop⟩ | rfl
  · exact inLimits_of_mem_ops hg.allocated (Array.mem_toList_iff.1 hi) hop
  · nofun

/-- The segment of a constant among the segments of all. -/
theorem getElem?_segments {cs : List ConstIndex} {k : Nat} {c : ConstIndex}
    (hk : cs[k]? = some c) (hg : job.segment? c = some g) :
    (job.segments cs)[(job.segments (cs.take k)).length]? = some g := by
  have hall : job.segments cs =
      job.segments (cs.take k) ++ g :: job.segments (cs.drop (k + 1)) := by
    conv_lhs => rw [eq_take_append_cons_drop hk]
    rw [segments, List.filterMap_append, List.filterMap_cons_some hg, segments, segments]
  rw [hall, List.getElem?_append_right (Nat.le_refl _), Nat.sub_self]
  rfl

end Job

namespace Session.Finished

variable {job : Job} {order : List ConstIndex} {s : Session} {m : Image}

/-- **The bytes of a segment** stand where the segment starts. -/
theorem has_segment (h : Finished job order s m) {n : Nat} {g : Segment}
    (hn : (job.segments order)[n]? = some g) :
    m.Has (job.start order (job.segments order) n)
      (Chunk.render s.stream.distanceOf (job.start order (job.segments order) n)
        ((job.segmentOps order g).flatMap (Op.chunks n))) := by
  obtain ⟨pre, post, hsplit, htotal⟩ := job.exists_chunks_eq order hn
  have hcode := h.code
  rw [hsplit, Chunk.render_append, Chunk.render_append, Nat.zero_add, htotal] at hcode
  refine ⟨_, _, hcode, ?_⟩
  rw [Chunk.length_render, htotal]

/-- A walk over the place of a segment visits exactly its operations. -/
theorem offsets_segment (h : Finished job order s m) {n : Nat} {g : Segment}
    (hn : (job.segments order)[n]? = some g) :
    m.offsets (job.place order (job.segments order) n g).start
        (job.place order (job.segments order) n g).stop =
      Op.starts (job.start order (job.segments order) n) (job.segmentOps order g) :=
  Image.offsets_of_has (h.has_segment hn) fun _ hop ↦ Job.fits_of_mem_segmentOps hop

/-- **Every operation of a segment is read back.** -/
theorem read_segment (h : Finished job order s m) {n : Nat} {g : Segment}
    (hn : (job.segments order)[n]? = some g) :
    (Op.starts (job.start order (job.segments order) n) (job.segmentOps order g)).map m.read? =
      (job.segmentOps order g).map fun op ↦ some op.reading := by
  have hsound := h.built.laid.sound g (List.mem_of_getElem? hn)
  exact Image.map_read?_of_has (h.has_segment hn) (fun _ hop ↦ Job.fits_of_mem_segmentOps hop)
    fun _ hop ↦ hsound.inLimits hop

/-- The pool has one entry for each constant asked for. -/
theorem size_pool (h : Finished job order s m) : m.pool.size = order.length := by
  rw [h.pool, h.built.filled]

/-- **The pool holds the constants asked for**, in order. -/
theorem holds (h : Finished job order s m) : m.Holds job.program order where
  first := by
    obtain ⟨fresh, hfresh⟩ := prefix_foldl_reserve (order.flatMap job.wantsOf) [job.program.entry]
    rw [h.built.asked, ← hfresh]
    rfl
  nodup := h.built.reserved.nodup
  size := h.size_pool
  entries := by
    intro slot index hslot
    have hentry := h.built.pool slot index hslot
    have hlt : slot < s.pool.size := by
      rw [h.built.filled]
      exact (List.getElem?_eq_some_iff.1 hslot).1
    rw [Array.getElem?_eq_getElem hlt] at hentry
    obtain ⟨c, hc, hrep⟩ := Job.represents_of_entryOf? hentry.symm
    exact ⟨c, _, hc, by rw [h.pool, Array.getElem?_eq_getElem hlt], hrep⟩

/-- **A compiled body of the pool** is announced at the place of its segment. -/
theorem exists_segment (h : Finished job order s m) {k : Nat} {f : Function}
    (hf : m.pool[k]? = some (.function f)) :
    ∃ c g n, order[k]? = some c ∧ job.segment? c = some g ∧
      (job.segments order)[n]? = some g ∧
      f.range = job.place order (job.segments order) n g := by
  have hlt : k < order.length := by
    rw [← h.size_pool]
    exact (Array.getElem?_eq_some_iff.1 hf).1
  have hk := List.getElem?_eq_getElem hlt
  rw [h.pool, h.built.pool k _ hk] at hf
  obtain ⟨g, hg, rfl⟩ := Job.entryOf?_eq_function_iff.1 hf
  refine ⟨_, g, _, hk, hg, Job.getElem?_segments hk hg, ?_⟩
  -- the range was noted when only the segments of earlier constants were there
  have hsplit : job.segments order =
      job.segments (order.take k) ++ job.segments (order.drop k) := by
    rw [Job.segments, Job.segments, Job.segments, ← List.filterMap_append, List.take_append_drop]
  show job.place order (job.segments (order.take k)) _ g = _
  rw [hsplit, Job.place_append (Nat.le_refl _)]

end Session.Finished

end RegisterBytecode
