import RegisterBytecode.Proofs.Disassembly

/-!
# Code stays within its frames

A machine sets up a frame with as many registers and cells as a compiled body announces, and a
closure with as many upvalues. Every operand that is read in the code of the body then names storage
that is there (`Function.Addresses`). The counts are sixteen-bit words, and so are the indices in
operands; they are the numbers that the body determines all the same, with nothing cut off
(`Function.Counts`, `Frame.home_eq_upvalue`).

The bounds come from the choice of storage, where each kind of storage has its own numbering
(`Frame.exists_operand`), and reach the code through the operations that it is read back as.
-/

namespace RegisterBytecode

/-- A compiled body announces storage for an operand: its index lies below the count of its kind. -/
def Function.Addresses (f : Function) : Operand → Prop
  | .register i => i.toNat < f.registers.toNat
  | .cell i => i.toNat < f.cells.toNat
  | .upvalue i => i.toNat < f.upvalues.toNat

/-- The counts that a compiled body announces are those of its body: the registers that the scan
needs, the captured locals, and one more than the greatest upvalue. -/
structure Function.Counts (f : Function) (body : Body) : Prop where
  registers : ∃ homes, Scan.run body.liveSpans body.cellHomes = some (f.registers.toNat, homes)
  cells : f.cells.toNat = body.captured.size
  upvalues : f.upvalues.toNat = body.upvalueCount
  registers_le : f.registers.toNat ≤ operandLimit
  cells_le : f.cells.toNat ≤ operandLimit
  upvalues_le : f.upvalues.toNat ≤ operandLimit

section Represents

variable {f : Function} {body : Body} {frame : Frame}

/-- A compiled body announces the counts of the storage chosen for it. -/
theorem Entry.Represents.counts_eq (h : (Entry.function f).Represents (.code body))
    (ha : Frame.allocate body = .ok frame) :
    f.registers = frame.registers ∧ f.cells = frame.cells ∧ f.upvalues = frame.upvalues := by
  obtain ⟨-, -, frame', ha', hcounts⟩ := h
  obtain rfl := Except.ok.inj (ha.symm.trans ha')
  exact hcounts

/-- **No count is cut off**, and each respects the limit of operands. -/
theorem Entry.Represents.counts (h : (Entry.function f).Represents (.code body))
    (ha : Frame.allocate body = .ok frame) : f.Counts body := by
  obtain ⟨hregs, hcells, hups⟩ := h.counts_eq ha
  obtain ⟨⟨n, hn, hrun, hreg⟩, hcell, hup⟩ := Frame.toNat_counts ha
  obtain ⟨-, hclim, hulim, -⟩ := Frame.allocate_eq_ok ha
  subst hreg
  rw [← hregs] at hn hrun
  rw [← hcells] at hcell
  rw [← hups] at hup
  exact ⟨⟨_, hrun⟩, hcell, hup, hn, hcell ▸ hclim, hup ▸ hulim⟩

/-- What lies within a frame lies within what its function announces. -/
theorem Entry.Represents.addresses (h : (Entry.function f).Represents (.code body))
    (ha : Frame.allocate body = .ok frame) {o : Operand} (ho : frame.Addresses o) :
    f.Addresses o := by
  obtain ⟨hregs, hcells, hups⟩ := h.counts_eq ha
  cases o with
  | register i =>
    rw [Function.Addresses, hregs]
    exact ho
  | cell i =>
    rw [Function.Addresses, hcells]
    exact ho
  | upvalue i =>
    rw [Function.Addresses, hups]
    exact ho

end Represents

/-- **The operand of an upvalue** that a body mentions is the upvalue that the register's number
stands for, with nothing cut off. -/
theorem Frame.home_eq_upvalue {b : Body} {f : Frame} (h : Frame.allocate b = .ok f) {r : Reg}
    (hr : r ∈ b.regs) (hneg : r.id < 0) :
    ∃ i : UInt16, f.home r = .upvalue i ∧ (i.toNat : Int) = -1 - r.id := by
  cases r with
  | loc n => exact absurd hneg (Int.not_lt.2 (Int.natCast_nonneg n))
  | upval k =>
    have hlt : k < b.upvalueCount := Body.lt_upvalueCount hr
    obtain ⟨-, -, hlim, -⟩ := Frame.allocate_eq_ok h
    refine ⟨k.toUInt16, rfl, ?_⟩
    rw [toNat_toUInt16 (Nat.le_trans (Nat.le_of_lt hlt) hlim), Reg.id]
    omega

/-- The operands of a segment lie in its frame. -/
theorem Job.Sound.addresses {job : Job} {order : List ConstIndex} {g : Segment}
    (hg : job.Sound order g) {op : Op Operand} (hop : op ∈ job.segmentOps order g) {o : Operand}
    (ho : o ∈ op.regs) : g.frame.Addresses o := by
  rcases Job.mem_segmentOps hop with ⟨i, hi, hop⟩ | rfl
  · exact Job.addresses_of_mem_ops hg.allocated (Array.mem_toList_iff.1 hi) hop ho
  · cases ho

/-- **Every operand read in a segment** lies in its frame. -/
theorem Session.Finished.exists_reading_of_mem_offsets {job : Job} {order : List ConstIndex}
    {s : Session} {m : Image} {n : Nat} {g : Segment} (h : Finished job order s m)
    (hn : (job.segments order)[n]? = some g) {o : Nat}
    (ho : o ∈ m.offsets (job.place order (job.segments order) n g).start
      (job.place order (job.segments order) n g).stop) :
    ∃ x, m.read? o = some x ∧ ∀ a ∈ x.regs, g.frame.Addresses a := by
  have hsound := h.built.laid.sound g (List.mem_of_getElem? hn)
  rw [h.offsets_segment hn] at ho
  have hread := List.mem_map_of_mem (f := m.read?) ho
  rw [h.read_segment hn] at hread
  obtain ⟨op, hop, heq⟩ := List.mem_map.1 hread
  exact ⟨op.reading, heq.symm, fun a ha ↦ hsound.addresses hop ha⟩

/-- **Compiled code stays within its frames.** Every operand that is read in the code of a compiled
body has an index below the count that is announced for its kind of storage. The counts are those of
the body and at most `operandLimit`, and where the body mentions an upvalue, exactly that upvalue is
read. -/
theorem Image.operands_within_frame_of_compile {program : Program} {config : Config}
    {image : Image} (h : compile program config = .ok image) :
    ∃ order, image.Holds program order ∧
      ∀ (slot : Nat) (f : Function), image.pool[slot]? = some (.function f) →
        ∃ index body frame, order[slot]? = some index ∧
          program.get? index = some (.code body) ∧ Frame.allocate body = .ok frame ∧
          (∀ o ∈ image.offsets f.range.start f.range.stop,
            ∃ x, image.read? o = some x ∧ ∀ a ∈ x.regs, f.Addresses a) ∧
          f.Counts body ∧
          (∀ r ∈ body.regs, frame.operand r = .ok (frame.home r)) ∧
          (∀ r ∈ body.regs, r.id < 0 →
            ∃ i : UInt16, frame.home r = .upvalue i ∧ (i.toNat : Int) = -1 - r.id) ∧
          (image.offsets f.range.start f.range.stop).map image.read? =
            (body.readings program config order.idxOf frame.home).map some := by
  obtain ⟨order, s, hfin⟩ := compile_eq_ok h
  refine ⟨order, hfin.holds, fun slot f hf ↦ ?_⟩
  obtain ⟨index, g, n, hindex, hseg, hn, hrange⟩ := hfin.exists_segment hf
  obtain ⟨hbody, hframe⟩ := Job.segment?_eq_some_iff.1 hseg
  obtain ⟨c, e, hc, he, hrep⟩ := hfin.holds.entries slot index hindex
  obtain rfl : .code g.body = c := Option.some.inj (hbody.symm.trans hc)
  obtain rfl : .function f = e := Option.some.inj (hf.symm.trans he)
  refine ⟨index, g.body, g.frame, hindex, hbody, hframe, fun o ho ↦ ?_, hrep.counts hframe,
    fun r hr ↦ Frame.operand_home hframe hr, fun r hr ↦ Frame.home_eq_upvalue hframe hr, ?_⟩
  · rw [hrange] at ho
    obtain ⟨x, hx, hregs⟩ := hfin.exists_reading_of_mem_offsets hn ho
    exact ⟨x, hx, fun a ha ↦ hrep.addresses hframe (hregs a ha)⟩
  · rw [hrange, ← g.body.readings_clamped program config]
    exact hfin.map_read?_offsets_segment hn

/-- A body that mentions the last upvalue that an operand can name. -/
def Body.widest : Body where
  name := "widest"
  code := #[.move (.loc 3) (.upval 16383), .push (.loc 3) false, .clear (.loc 8)]
  captured := Std.TreeSet.ofList [Reg.loc 8]

/-- The widest body announces all upvalues that there can be, and its move is read with the last
of them. -/
theorem Image.operands_within_frame_widest :
    ∃ image f o x i, compile { constants := #[.code Body.widest] } {} = .ok image ∧
      image.pool[0]? = some (.function f) ∧ f.upvalues.toNat = 16384 ∧ f.cells.toNat = 1 ∧
      (image.offsets f.range.start f.range.stop)[0]? = some o ∧ image.read? o = some x ∧
      Operand.upvalue i ∈ x.regs ∧ i.toNat = 16383 ∧ ∀ a ∈ x.regs, f.Addresses a := by
  obtain ⟨image, f, himage, hf⟩ :
      ∃ image f, compile { constants := #[.code Body.widest] } {} = .ok image ∧
        image.pool[0]? = some (.function f) :=
    exists_main (by decide +kernel)
  obtain ⟨order, hholds, hall⟩ := operands_within_frame_of_compile himage
  obtain ⟨index, body, frame, hindex, hbody, -, hregs, hcounts, -, hup, hread⟩ := hall 0 f hf
  obtain rfl : 0 = index := Option.some.inj (hholds.first.symm.trans hindex)
  obtain rfl : Body.widest = body := Constant.code.inj (Option.some.inj hbody)
  obtain ⟨i, hi, hi'⟩ := hup (.upval 16383) (by decide) (by decide)
  have hfirst : ((image.offsets f.range.start f.range.stop).map image.read?)[0]? =
      some (some ⟨.move, [frame.home (.loc 3), frame.home (.upval 16383)], .none⟩) := by
    rw [hread]
    rfl
  rw [List.getElem?_map] at hfirst
  obtain ⟨o, ho, hx⟩ := Option.map_eq_some_iff.1 hfirst
  obtain ⟨x, hx', hin⟩ := hregs o (List.mem_of_getElem? ho)
  obtain rfl := Option.some.inj (hx.symm.trans hx')
  refine ⟨image, f, o, _, i, himage, hf, ?_, ?_, ho, hx, ?_, ?_, hin⟩
  · rw [hcounts.upvalues]
    decide +kernel
  · rw [hcounts.cells]
    decide +kernel
  · rw [← hi]
    exact List.mem_cons_of_mem _ (List.mem_singleton_self _)
  · rw [Reg.id] at hi'
    omega

end RegisterBytecode
