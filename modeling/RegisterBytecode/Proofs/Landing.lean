import RegisterBytecode.Proofs.Disassembly

/-!
# Where jumps land

A jump is written with a blank distance, patched when every body has its place, and read relative to
its own end. The main theorem says that all this comes to the same as asking where its label is
bound: it leads to the first machine instruction behind the label, which always is one of the same
body.

Three things meet here. The layout says where a label stands (`Job.Laid.labels`); since every jump
of a finished image has been patched (`Session.Finished.resolved`), its distance fits its four bytes
(`Session.Finished.resolves_target`); and reading a distance undoes writing it
(`Image.Has.target?`).
-/

namespace RegisterBytecode

/-! ### Reading a distance -/

/-- A distance that fits is the difference of the two offsets. -/
theorem Stream.toInt_of_distance? {origin target : Nat} {d : Int32}
    (h : distance? origin target = some d) : d.toInt = (target : Int) - origin := by
  unfold distance? at h
  dsimp only at h
  split at h
  · next hrange =>
    obtain rfl := Option.some.inj h
    exact Int32.toInt_ofInt_of_le hrange.1 hrange.2
  · cases h

/-- **Reading a jump** gives the offset to which its distance was counted. -/
theorem Image.Has.target? {m : Image} {offset target : Nat} {d : Int32} {op : Op Operand}
    {l : Label} (h : m.Has offset (op.bytes d)) (hf : op.Fits) (ht : op.immediate = .target l)
    (hd : Stream.distance? (offset + op.size) target = some d) :
    m.target? offset = some target := by
  have hkind : op.opcode.shape.immediate = .offset := by
    have hfits := hf.immediate
    rw [ht] at hfits
    exact hfits
  have hopcode : m.opcode? offset = some op.opcode := h.left.opcode?
  have hposition : op.opcode.offsetPosition? =
      some (1 + op.opcode.shape.regs * Operand.width) := by
    rw [Opcode.offsetPosition?, if_pos hkind]
  have hword : m.int32? (offset + (1 + op.opcode.shape.regs * Operand.width)) = some d := by
    have hright := h.right
    rw [ht, hf.length_head] at hright
    exact hright.int32?
  -- the distance is counted from the end of the jump, as there is no more text behind it
  have hend : (offset : Int) + 1 + op.opcode.operandSize + d.toInt = target := by
    have hsize := hf.size_eq
    have hextra : op.immediate.extra = 0 := by
      rw [ht]
      rfl
    have hdist := Stream.toInt_of_distance? hd
    omega
  rw [Image.target?, hopcode]
  dsimp only
  rw [hposition]
  dsimp only
  rw [hword]
  dsimp only
  rw [hend, if_pos (Int.natCast_nonneg target), Int.toNat_natCast]

/-! ### Jumps in the layout -/

/-- The patch of a jump. -/
theorem Op.mem_patches_chunks {op : Op Operand} {l : Label} (h : op.immediate = .target l)
    (pos body : Nat) :
    ⟨body, l, pos + op.head.length, pos + op.size⟩ ∈ Chunk.patches pos (op.chunks body) := by
  have hsize : pos + op.size = pos + op.head.length + 4 := by
    rw [Op.size, Op.bytes, h, Immediate.bytes, List.length_append, length_int32Bytes,
      Nat.add_assoc]
  rw [Op.chunks, h, Immediate.chunks, Chunk.patches, Chunk.patches, hsize]
  exact List.mem_cons_self

namespace Job

variable {job : Job} {order : List ConstIndex} {g : Segment} {i : Instr} {l : Label} {j : Nat}

/-- The operation of a jump within its segment. -/
theorem segmentOps_of_target? (job : Job) (order : List ConstIndex)
    (hj : g.body.code[j]? = some i) (ht : i.target? = some l) :
    ∃ op rest, job.ops (slotOf order) g.frame.home i = [op] ∧ op.immediate = .target l ∧
      job.segmentOps order g =
        job.codeOps order g.frame (g.body.code.toList.take j) ++ op :: rest := by
  obtain ⟨op, hop, himm⟩ := job.ops_of_target? (slotOf order) g.frame.home ht
  have hdrop : g.body.code.toList.drop j = i :: g.body.code.toList.drop (j + 1) := by
    rw [← Array.getElem?_toList] at hj
    obtain ⟨hlt, rfl⟩ := List.getElem?_eq_some_iff.1 hj
    exact List.drop_eq_getElem_cons hlt
  refine ⟨op, job.codeOps order g.frame (g.body.code.toList.drop (j + 1)) ++
    padding (endsInLabel g.body.code.toList), hop, himm, ?_⟩
  rw [segmentOps_eq j, hdrop]
  show _ ++ ((i :: _).flatMap (job.ops (slotOf order) g.frame.home) ++ _) = _
  rw [List.flatMap_cons, hop, List.append_assoc, List.singleton_append]
  rfl

end Job

namespace Session.Finished

variable {job : Job} {order : List ConstIndex} {s : Session} {m : Image} {n : Nat} {g : Segment}
  {op : Op Operand} {ops rest : List (Op Operand)} {l : Label}

/-- An operation of a segment stands behind those before it. -/
theorem has_op (h : Finished job order s m) (hn : (job.segments order)[n]? = some g)
    (hops : job.segmentOps order g = ops ++ op :: rest)
    {o : Nat} (ho : o = job.start order (job.segments order) n + Op.total ops) :
    m.Has o (op.bytes (op.distance s.stream.distanceOf (o + op.size) n)) := by
  have hseg := h.has_segment hn
  rw [hops, List.flatMap_append, Chunk.render_append] at hseg
  have hright := hseg.right
  rw [Chunk.length_render, Op.total_flatMap_chunks, ← ho] at hright
  exact hright.cons_ops.1

/-- A jump stands in the image with the distance to its label. -/
theorem has_jump (h : Finished job order s m) (hn : (job.segments order)[n]? = some g)
    (hops : job.segmentOps order g = ops ++ op :: rest) (ht : op.immediate = .target l)
    {o : Nat} (ho : o = job.start order (job.segments order) n + Op.total ops) :
    m.Has o (op.bytes (s.stream.distanceOf (o + op.size) n l)) := by
  have hop := h.has_op hn hops ho
  rwa [Op.distance, ht, Immediate.target?] at hop

/-- **Every jump has been patched**: its label is bound where the layout has it, and the distance
from the end of the jump fits. -/
theorem resolves_target (h : Finished job order s m) (hn : (job.segments order)[n]? = some g)
    (hops : job.segmentOps order g = ops ++ op :: rest) (ht : op.immediate = .target l)
    {o : Nat} (ho : o = job.start order (job.segments order) n + Op.total ops) {k : Nat}
    (hk : g.body.BindsAt k l) :
    Stream.distance? (o + op.size) (job.instrOffset order (job.segments order) n g k) =
      some (s.stream.distanceOf (o + op.size) n l) := by
  have hlabel := h.built.laid.labels n g k l hn hk
  -- the patch of the jump is one of the layout's, and all of these have been resolved
  obtain ⟨pre, post, hsplit, htotal⟩ := job.exists_chunks_eq order hn
  have hmem : (⟨n, l, o + op.head.length, o + op.size⟩ : Patch) ∈
      Chunk.patches 0 (job.chunks order (job.segments order)) := by
    rw [hsplit, hops, List.flatMap_append, List.flatMap_cons, Chunk.patches_append,
      Chunk.patches_append, Chunk.patches_append, Chunk.patches_append, Nat.zero_add, htotal,
      Op.total_flatMap_chunks, ← ho]
    refine List.mem_append_right _ (List.mem_append_left _ (List.mem_append_right _
      (List.mem_append_left _ ?_)))
    exact Op.mem_patches_chunks ht o n
  obtain ⟨target, d, htarget, -, hd⟩ := h.resolved _ hmem
  obtain rfl : job.instrOffset order (job.segments order) n g k = target :=
    Option.some.inj (hlabel.symm.trans htarget)
  rw [Stream.distanceOf, hlabel, Option.bind_some, hd, Option.getD_some]

/-- **A jump leads to its label.** -/
theorem target?_segment (h : Finished job order s m) (hn : (job.segments order)[n]? = some g)
    {j k : Nat} {i : Instr} (hj : g.body.code[j]? = some i) (ht : i.target? = some l)
    (hk : g.body.BindsAt k l) :
    m.target? (job.instrOffset order (job.segments order) n g j) =
      some (job.instrOffset order (job.segments order) n g k) := by
  obtain ⟨op, rest, -, himm, hops⟩ := job.segmentOps_of_target? order hj ht
  have hmem : op ∈ job.segmentOps order g := by
    rw [hops]
    exact List.mem_append_right _ List.mem_cons_self
  exact (h.has_jump hn hops himm rfl).target? (Job.fits_of_mem_segmentOps hmem) himm
    (h.resolves_target hn hops himm rfl hk)

/-- What a reader finds where a jump stands is the jump. -/
theorem read?_segment (h : Finished job order s m) (hn : (job.segments order)[n]? = some g)
    {j : Nat} {i : Instr} (hj : g.body.code[j]? = some i) (ht : i.target? = some l) :
    (m.read? (job.instrOffset order (job.segments order) n g j)).toList =
      i.readings job.program job.config order.idxOf g.frame.home := by
  have hsound := h.built.laid.sound g (List.mem_of_getElem? hn)
  obtain ⟨op, rest, hop, himm, hops⟩ := job.segmentOps_of_target? order hj ht
  have hmem : op ∈ job.segmentOps order g := by
    rw [hops]
    exact List.mem_append_right _ List.mem_cons_self
  have hi : i ∈ g.body.code.toList := Array.mem_toList_iff.2 (Array.mem_of_getElem? hj)
  have hread := (h.has_op hn hops rfl).read? (Job.fits_of_mem_segmentOps hmem)
    (hsound.inLimits hmem)
  rw [Job.instrOffset, hread,
    ← Job.map_reading_ops h.built.reserved.length_le (hsound.supplied i hi), hop]
  rfl

/-- An instruction is read as many machine instructions as it has operations. -/
theorem readingsBefore_eq (h : Finished job order s m) (hn : (job.segments order)[n]? = some g)
    (k : Nat) :
    g.body.readingsBefore job.program job.config order.idxOf g.frame.home k =
      (job.codeOps order g.frame (g.body.code.toList.take k)).length := by
  have hsound := h.built.laid.sound g (List.mem_of_getElem? hn)
  rw [Body.readingsBefore, ← List.length_map (f := Op.reading), Job.codeOps, List.map_flatMap]
  congr 1
  refine List.flatMap_congr fun i hi ↦ (Job.map_reading_ops h.built.reserved.length_le ?_ _).symm
  exact hsound.supplied i (List.mem_of_mem_take hi)

/-- The walk over a segment comes to an instruction after as many steps as the instructions before
it are read as. -/
theorem getElem?_offsets_segment (h : Finished job order s m)
    (hn : (job.segments order)[n]? = some g) {k : Nat}
    (hk : job.codeOps order g.frame (g.body.code.toList.drop k) ++
      padding (endsInLabel g.body.code.toList) ≠ []) :
    (m.offsets (job.place order (job.segments order) n g).start
        (job.place order (job.segments order) n g).stop)[g.body.readingsBefore job.program
          job.config order.idxOf g.frame.home k]? =
      some (job.instrOffset order (job.segments order) n g k) := by
  rw [h.offsets_segment hn, Job.segmentOps_eq k, h.readingsBefore_eq hn,
    Op.getElem?_starts_append hk]
  rfl

/-- What a reader finds there is what comes next in the body. -/
theorem read?_instrOffset (h : Finished job order s m) (hn : (job.segments order)[n]? = some g)
    {k : Nat} (hk : job.codeOps order g.frame (g.body.code.toList.drop k) ++
      padding (endsInLabel g.body.code.toList) ≠ []) :
    m.read? (job.instrOffset order (job.segments order) n g k) =
      (g.body.readings job.program job.config order.idxOf g.frame.home)[g.body.readingsBefore
        job.program job.config order.idxOf g.frame.home k]? := by
  have hwalk := congrArg (·[g.body.readingsBefore job.program job.config order.idxOf
    g.frame.home k]?) (h.map_read?_offsets_segment hn)
  rw [List.getElem?_map, List.getElem?_map, h.getElem?_offsets_segment hn hk] at hwalk
  obtain ⟨x, hx, hread⟩ := Option.map_eq_some_iff.1 hwalk.symm
  rw [hx, ← hread]

end Session.Finished

/-! ### The main theorem -/

/-- **A jump lands exactly on its label.** Of a compiled body, the jump at position `j` stands
where the walk comes after everything that the instructions before `j` are read as, and it leads to
where the walk comes after everything that the instructions before its label are read as. That is
the first machine instruction behind the label, or the padding if there is none. -/
theorem Image.target?_of_compile {program : Program} {config : Config} {image : Image}
    (h : compile program config = .ok image) :
    ∃ order, image.Holds program order ∧
      ∀ (slot : Nat) (f : Function), image.pool[slot]? = some (.function f) →
        ∃ index body frame, order[slot]? = some index ∧
          program.get? index = some (.code body) ∧ Frame.allocate body = .ok frame ∧
          ∀ (j k : Nat) (i : Instr) (l : Label), body.code[j]? = some i → i.target? = some l →
            body.BindsAt k l →
              ∃ o t, (image.offsets f.range.start f.range.stop)[body.readingsBefore program config
                  order.idxOf frame.home j]? = some o ∧
                (image.read? o).toList = i.readings program config order.idxOf frame.home ∧
                image.target? o = some t ∧
                (image.offsets f.range.start f.range.stop)[body.readingsBefore program config
                  order.idxOf frame.home k]? = some t ∧
                image.read? t = (body.readings program config order.idxOf
                  frame.home)[body.readingsBefore program config order.idxOf frame.home k]? ∧
                f.range.start ≤ t ∧ t < f.range.stop := by
  obtain ⟨order, s, hfin⟩ := compile_eq_ok h
  refine ⟨order, hfin.holds, fun slot f hf ↦ ?_⟩
  obtain ⟨index, g, n, hindex, hseg, hn, hrange⟩ := hfin.exists_segment hf
  obtain ⟨hbody, hframe⟩ := Job.segment?_eq_some_iff.1 hseg
  refine ⟨index, g.body, g.frame, hindex, hbody, hframe, fun j k i l hj ht hk ↦ ?_⟩
  -- a walk comes to a position only if something is still to be read from there on
  have hjump : (Job.new program config).codeOps order g.frame (g.body.code.toList.drop j) ++
      padding (endsInLabel g.body.code.toList) ≠ [] := by
    obtain ⟨op, rest, -, -, hops⟩ := (Job.new program config).segmentOps_of_target? order hj ht
    rw [Job.segmentOps_eq j] at hops
    rw [List.append_cancel_left hops]
    exact List.cons_ne_nil _ _
  have hland := (Job.new program config).rest_ne_nil order hk
  have hcount := g.body.readingsBefore_clamped program config order.idxOf g.frame.home
  rw [hrange, ← hcount, ← hcount, ← i.readings_clamped program config,
    ← g.body.readings_clamped program config]
  refine ⟨_, _, hfin.getElem?_offsets_segment hn hjump, hfin.read?_segment hn hj ht,
    hfin.target?_segment hn hj ht hk, hfin.getElem?_offsets_segment hn hland,
    hfin.read?_instrOffset hn hland, ?_, ?_⟩
  · exact Nat.le_add_right _ _
  · exact Job.instrOffset_lt hk

/-- A jump forwards to a label at the end of the first body: the branch at position `3` leads to the
padding behind the label at position `6`. -/
theorem Image.target?_pair :
    ∃ image f order frame o t, compile Program.pair {} = .ok image ∧
      image.pool[0]? = some (.function f) ∧ image.Holds Program.pair order ∧
      Frame.allocate Body.looping = .ok frame ∧
      (image.offsets f.range.start f.range.stop)[Body.looping.readingsBefore Program.pair {}
        order.idxOf frame.home 3]? = some o ∧
      image.target? o = some t ∧
      (image.offsets f.range.start f.range.stop)[Body.looping.readingsBefore Program.pair {}
        order.idxOf frame.home 6]? = some t ∧
      f.range.start ≤ t ∧ t < f.range.stop := by
  obtain ⟨image, f, himage, hf⟩ :
      ∃ image f, compile Program.pair {} = .ok image ∧ image.pool[0]? = some (.function f) :=
    exists_main (by decide +kernel)
  obtain ⟨order, hholds, hall⟩ := target?_of_compile himage
  obtain ⟨index, body, frame, hindex, hbody, hframe, hjumps⟩ := hall 0 f hf
  obtain rfl : 0 = index := Option.some.inj (hholds.first.symm.trans hindex)
  obtain rfl : Body.looping = body := Constant.code.inj (Option.some.inj hbody)
  obtain ⟨o, t, ho, -, htarget, hland, -, hrange⟩ :=
    hjumps 3 6 (.branch (.loc 1) 7 true) 7 rfl rfl rfl
  exact ⟨image, f, order, frame, o, t, himage, hf, hholds, hframe, ho, htarget, hland, hrange⟩

end RegisterBytecode
