import RegisterBytecode.Proofs.Session.Finished

/-!
# Reading a finished image

What a reader of a finished image finds, in terms of the program alone. `Instr.readings` lists the
machine instructions of an instruction as a reader sees them: opcodes, storage of registers, and
**numbers** behind them, never their encodings. `Body.readings` puts those of a body in a row, with
one more that does nothing exactly if the body ends in a label (`Body.EndsInLabel`).

The main theorem is that a walk over any compiled body of an image finds just that. It rests
on the layout of a finished image (`Session.Finished.read_segment`) and on the fact that nothing
is cut off where numbers become words (`Job.map_reading_ops`): slots stay below `poolLimit`, an
index into a variadic tail is checked, and an integer is only carried inside an instruction if it
fits.
-/

namespace RegisterBytecode

/-! ### What instructions are read as -/

/-- What the load of a constant is read as: the constant itself if it is an integer of thirty-two
bits or a short text and the configuration asks for it, and else a reference to the pool. -/
def Constant.loadReading (config : Config) (dst : Operand) (slot : Nat) : Constant → Reading
  | .int v =>
    if config.inlineLiterals = true ∧ -2147483648 ≤ v.toInt ∧ v.toInt < 2147483648 then
      ⟨.loadInt, [dst], .int v.toInt⟩
    else ⟨.loadConst, [dst], .pool slot⟩
  | .str t =>
    if config.inlineLiterals = true ∧ t.utf8ByteSize ≤ min config.maxInlineText inlineTextLimit then
      ⟨.loadStr, [dst], .text t.toUTF8.data.toList⟩
    else ⟨.loadConst, [dst], .pool slot⟩
  | _ => ⟨.loadConst, [dst], .pool slot⟩

section Readings

variable (p : Program) (config : Config) (slot : ConstIndex → Nat) (home : Reg → Operand)

/-- What an instruction is read as, where `slot` gives the pool slots of constants and `home` the
storage of registers. -/
def Instr.readings : Instr → List Reading
  | .move dst src => [⟨.move, [home dst, home src], .none⟩]
  | .load dst index =>
    (p.get? index).toList.map (Constant.loadReading config (home dst) (slot index))
  | .binary op dst lhs rhs => [⟨.binary op, [home dst, home lhs, home rhs], .none⟩]
  | .unary op dst src => [⟨.unary op, [home dst, home src], .none⟩]
  | .push src false => [⟨.push, [home src], .byte 0⟩]
  | .push src true => [⟨.push, [home src], .byte 1⟩]
  | .jump _ => [⟨.jump, [], .distance⟩]
  | .branch cond _ false => [⟨.jumpIf, [home cond], .distance⟩]
  | .branch cond _ true => [⟨.jumpIfNot, [home cond], .distance⟩]
  | .label _ => []
  | .call false callee => [⟨.call, [home callee], .none⟩]
  | .call true callee => [⟨.tailCall, [home callee], .none⟩]
  | .closure dst index captures =>
    ⟨.loadClosure, [home dst], .pool (slot index)⟩
      :: captures.map fun src ↦ ⟨.bindUpvalue, [home dst, home src], .none⟩
  | .continuation false dst => [⟨.makeContinuation, [home dst], .none⟩]
  | .continuation true dst => [⟨.makeTailContinuation, [home dst], .none⟩]
  | .clear reg => [⟨.clear, [home reg], .none⟩]
  | .newTable dst => [⟨.newTable, [home dst], .none⟩]
  | .getIndex dst table key => [⟨.getIndex, [home dst, home table, home key], .none⟩]
  | .setIndex table key value => [⟨.setIndex, [home table, home key, home value], .none⟩]
  | .receive dsts none => dsts.map fun dst ↦ ⟨.receive, [home dst], .none⟩
  | .receive dsts (some etc) =>
    (dsts.map fun dst ↦ ⟨.receive, [home dst], .none⟩) ++ [⟨.receiveEtc, [home etc], .none⟩]
  | .etcLookup dst etc index => [⟨.etcLookup, [home dst, home etc], .byte index⟩]
  | .fillTable table etc start => [⟨.fillTable, [home table, home etc], .byte start⟩]

/-- A label is bound behind the last instruction that leaves bytes. -/
def Body.EndsInLabel (b : Body) : Prop :=
  ∃ k l, b.BindsAt k l ∧ ∀ (j : Nat) (i : Instr), k < j → b.code[j]? = some i → i.silent = true

theorem Body.endsInLabel_toList {b : Body} :
    endsInLabel b.code.toList = true ↔ b.EndsInLabel := by
  rw [endsInLabel_iff]
  simp only [Array.getElem?_toList, EndsInLabel, BindsAt]

instance (b : Body) : Decidable b.EndsInLabel := decidable_of_iff _ Body.endsInLabel_toList

/-- What a body is read as. -/
def Body.readings (b : Body) : List Reading :=
  b.code.toList.flatMap (Instr.readings p config slot home) ++
    if b.EndsInLabel then [⟨.nop, [], .none⟩] else []

/-- The number of machine instructions that the instructions before a position are read as. -/
def Body.readingsBefore (b : Body) (k : Nat) : Nat :=
  ((b.code.toList.take k).flatMap (Instr.readings p config slot home)).length

end Readings

/-- **What stands behind the registers of an instruction**, as far as no constant is involved: the
distance of a jump, or at most a byte. -/
theorem Instr.field_of_mem_readings {p : Program} {config : Config} {slot : ConstIndex → Nat}
    {home : Reg → Operand} {i : Instr} {x : Reading} (h : x ∈ i.readings p config slot home) :
    (∃ dst index, i = .load dst index) ∨ (∃ dst index captures, i = .closure dst index captures) ∨
      (x.field = .distance ∧ i.target?.isSome = true) ∨
      ((x.field = .none ∨ ∃ b, x.field = .byte b) ∧ i.target? = none) := by
  cases i with
  | load dst index => exact Or.inl ⟨dst, index, rfl⟩
  | closure dst index captures => exact Or.inr (Or.inl ⟨dst, index, captures, rfl⟩)
  | jump target =>
    obtain rfl := List.mem_singleton.1 h
    exact Or.inr (Or.inr (Or.inl ⟨rfl, rfl⟩))
  | branch cond target negate =>
    refine Or.inr (Or.inr (Or.inl ⟨?_, rfl⟩))
    cases negate <;> rw [List.mem_singleton.1 h]
  | push src spread =>
    refine Or.inr (Or.inr (Or.inr ⟨Or.inr ?_, rfl⟩))
    cases spread <;> rw [List.mem_singleton.1 h] <;> exact ⟨_, rfl⟩
  | etcLookup dst etc index =>
    obtain rfl := List.mem_singleton.1 h
    exact Or.inr (Or.inr (Or.inr ⟨Or.inr ⟨index, rfl⟩, rfl⟩))
  | fillTable table etc start =>
    obtain rfl := List.mem_singleton.1 h
    exact Or.inr (Or.inr (Or.inr ⟨Or.inr ⟨start, rfl⟩, rfl⟩))
  | receive dsts etc =>
    refine Or.inr (Or.inr (Or.inr ⟨Or.inl ?_, rfl⟩))
    cases etc <;> simp only [readings, List.mem_append, List.mem_map, List.mem_singleton] at h
    · obtain ⟨dst, -, rfl⟩ := h
      rfl
    · rcases h with ⟨dst, -, rfl⟩ | rfl <;> rfl
  | label l => cases h
  | call tail callee =>
    refine Or.inr (Or.inr (Or.inr ⟨Or.inl ?_, rfl⟩))
    cases tail <;> rw [List.mem_singleton.1 h]
  | continuation tail dst =>
    refine Or.inr (Or.inr (Or.inr ⟨Or.inl ?_, rfl⟩))
    cases tail <;> rw [List.mem_singleton.1 h]
  | _ =>
    obtain rfl := List.mem_singleton.1 h
    exact Or.inr (Or.inr (Or.inr ⟨Or.inl rfl, rfl⟩))

/-! ### Nothing is cut off -/

/-- A number that is narrowed keeps its value. -/
theorem toInt_of_narrow? {v : Int64} {n : Int32} (h : narrow? v = some n) :
    n.toInt = v.toInt ∧ -2147483648 ≤ v.toInt ∧ v.toInt < 2147483648 := by
  unfold narrow? at h
  split at h
  · next hrange =>
    obtain rfl := Option.some.inj h
    refine ⟨?_, hrange⟩
    rw [Int64.toInt_toInt32]
    exact Int.bmod_eq_of_le (by omega) (by omega)
  · cases h

theorem toNat_toUInt8_of_checkTail {index : Nat} {d : Option ConstIndex}
    (h : Job.checkTail index = .ok d) : index.toUInt8.toNat = index :=
  UInt8.toNat_ofNat_of_lt' (Job.checkTail_eq_ok h).1

namespace Job

variable {job : Job} {c : Constant}

theorem min_maxInlineText (job : Job) :
    min job.config.maxInlineText inlineTextLimit = job.config.maxInlineText :=
  congrArg Config.maxInlineText job.clamped

/-- A constant that an operation carries is read back, and not as a reference to the pool. -/
theorem reading_of_inline? {opcode : Opcode} {immediate : Immediate}
    (h : job.config.inline? c = some (opcode, immediate)) (dst : Operand) (slot : Nat) :
    (⟨opcode, [dst], immediate⟩ : Op Operand).reading = c.loadReading job.config dst slot ∧
      ∀ k, immediate.field ≠ .pool k := by
  rcases Config.inline?_eq_some h with
    ⟨v, n, rfl, hinline, hn, rfl, rfl⟩ | ⟨t, rfl, hinline, hlen, rfl, rfl⟩
  · obtain ⟨hval, hrange⟩ := toInt_of_narrow? hn
    rw [Constant.loadReading, if_pos ⟨hinline, hrange⟩, ← hval]
    exact ⟨rfl, nofun⟩
  · rw [← job.min_maxInlineText] at hlen
    rw [Constant.loadReading, if_pos ⟨hinline, hlen⟩]
    exact ⟨rfl, nofun⟩

/-- A constant that no operation carries is read as a reference to the pool. -/
theorem loadReading_of_inline?_eq_none (h : job.config.inline? c = none) (dst : Operand)
    (slot : Nat) : c.loadReading job.config dst slot = ⟨.loadConst, [dst], .pool slot⟩ := by
  cases c with
  | int v =>
    simp only [Config.inline?, narrow?] at h
    rw [Constant.loadReading, if_neg]
    rintro ⟨hinline, hrange⟩
    rw [if_pos hinline, if_pos hrange] at h
    cases h
  | str t =>
    simp only [Config.inline?] at h
    rw [Constant.loadReading, job.min_maxInlineText, if_neg]
    rintro ⟨hinline, hlen⟩
    rw [hinline, decide_eq_true hlen] at h
    cases h
  | _ => rfl

/-- **Operations are read as the instruction says**, if what it demands has its slot. -/
theorem map_reading_ops {order : List ConstIndex} {i : Instr} (hlen : order.length ≤ poolLimit)
    (h : job.Supplied order i) (home : Reg → Operand) :
    (job.ops (slotOf order) home i).map Op.reading =
      i.readings job.program job.config order.idxOf home := by
  obtain ⟨d, hd, hmem⟩ := h
  cases i with
  | load dst index =>
    obtain ⟨c, hc, rfl⟩ := demand_load_eq_ok hd
    rw [Instr.readings, hc, ops, lower, hc, Option.bind_some]
    cases hinline : job.config.inline? c with
    | some x => exact congrArg (· :: []) (reading_of_inline? hinline (home dst) _).1
    | none =>
      rw [hinline] at hmem
      show [(⟨.loadConst, [home dst], .pool (slotOf order index).toNat⟩ : Reading)] = [_]
      rw [toNat_slotOf hlen (hmem index rfl), loadReading_of_inline?_eq_none hinline]
  | closure dst index captures =>
    obtain ⟨-, rfl⟩ := demand_closure_eq_ok hd
    rw [Instr.readings, ← toNat_slotOf hlen (hmem index rfl), ops, lower, List.map_cons,
      List.map_cons, List.map_map, List.map_map]
    rfl
  -- the index has been checked, so that its byte is all of it
  | etcLookup dst etc index =>
    show [(⟨.etcLookup, [home dst, home etc], .byte index.toUInt8.toNat⟩ : Reading)] = _
    rw [toNat_toUInt8_of_checkTail hd]
    rfl
  | fillTable table etc start =>
    show [(⟨.fillTable, [home table, home etc], .byte start.toUInt8.toNat⟩ : Reading)] = _
    rw [toNat_toUInt8_of_checkTail hd]
    rfl
  | receive dsts etc =>
    cases etc with
    | none => simp [ops, lower, Instr.readings, Op.place, Op.reading, Immediate.field]
    | some etc => simp [ops, lower, Instr.readings, Op.place, Op.reading, Immediate.field]
  | push src spread => cases spread <;> rfl
  | branch cond target negate => cases negate <;> rfl
  | call tail callee => cases tail <;> rfl
  | continuation tail dst => cases tail <;> rfl
  | _ => rfl

/-- A reference to the pool is one to a constant that is demanded. -/
theorem lt_length_of_mem_readings {order : List ConstIndex} {i : Instr}
    (h : job.Supplied order i) {home : Reg → Operand} {x : Reading} {k : Nat}
    (hx : x ∈ i.readings job.program job.config order.idxOf home) (hk : x.field = .pool k) :
    k < order.length := by
  obtain ⟨d, hd, hmem⟩ := h
  rcases Instr.field_of_mem_readings hx with
    ⟨dst, index, rfl⟩ | ⟨dst, index, captures, rfl⟩ | ⟨hx, -⟩ | ⟨hx | ⟨b, hx⟩, -⟩
  · obtain ⟨c, hc, rfl⟩ := demand_load_eq_ok hd
    rw [Instr.readings, hc] at hx
    obtain rfl := List.mem_singleton.1 hx
    cases hinline : job.config.inline? c with
    | some x =>
      obtain ⟨hread, hne⟩ := reading_of_inline? hinline (home dst) (order.idxOf index)
      rw [← hread] at hk
      exact absurd hk (hne k)
    | none =>
      rw [loadReading_of_inline?_eq_none hinline] at hk
      rw [hinline] at hmem
      obtain rfl := Field.pool.inj hk
      exact List.idxOf_lt_length_iff.2 (hmem index rfl)
  · obtain ⟨-, rfl⟩ := demand_closure_eq_ok hd
    rcases List.mem_cons.1 hx with rfl | hx
    · obtain rfl := Field.pool.inj hk
      exact List.idxOf_lt_length_iff.2 (hmem index rfl)
    · obtain ⟨src, -, rfl⟩ := List.mem_map.1 hx
      cases hk
  all_goals
    rw [hx] at hk
    cases hk

/-- The operations of a segment are read as its body says. -/
theorem Sound.map_reading_segmentOps {order : List ConstIndex} {g : Segment}
    (hlen : order.length ≤ poolLimit) (hg : job.Sound order g) :
    (job.segmentOps order g).map Op.reading =
      g.body.readings job.program job.config order.idxOf g.frame.home := by
  have hcode : (job.codeOps order g.frame g.body.code.toList).map Op.reading =
      g.body.code.toList.flatMap
        (Instr.readings job.program job.config order.idxOf g.frame.home) := by
    rw [codeOps, List.map_flatMap]
    exact List.flatMap_congr fun i hi ↦ map_reading_ops hlen (hg.supplied i hi) g.frame.home
  have hpad : (padding (endsInLabel g.body.code.toList)).map Op.reading =
      if g.body.EndsInLabel then [⟨.nop, [], .none⟩] else [] := by
    simp only [padding, Body.endsInLabel_toList]
    split <;> rfl
  rw [segmentOps, List.map_append, hcode, hpad, Body.readings]

/-- Every slot that the readings of a sound segment name is the place of a constant. -/
theorem Sound.lt_length_of_mem_readings {order : List ConstIndex} {g : Segment}
    (hg : job.Sound order g) {x : Reading} {k : Nat}
    (hx : x ∈ g.body.readings job.program job.config order.idxOf g.frame.home)
    (hk : x.field = .pool k) : k < order.length := by
  rcases List.mem_append.1 hx with hx | hx
  · obtain ⟨i, hi, hx⟩ := List.mem_flatMap.1 hx
    exact Job.lt_length_of_mem_readings (hg.supplied i hi) hx hk
  · split at hx
    · rw [List.mem_singleton.1 hx] at hk
      cases hk
    · cases hx

end Job

/-- **A walk over a segment** of a finished image reads its body. -/
theorem Session.Finished.map_read?_offsets_segment {job : Job} {order : List ConstIndex}
    {s : Session} {m : Image} {n : Nat} {g : Segment} (h : Finished job order s m)
    (hn : (job.segments order)[n]? = some g) :
    (m.offsets (job.place order (job.segments order) n g).start
        (job.place order (job.segments order) n g).stop).map m.read? =
      (g.body.readings job.program job.config order.idxOf g.frame.home).map some := by
  have hsound := h.built.laid.sound g (List.mem_of_getElem? hn)
  rw [h.offsets_segment hn, h.read_segment hn,
    ← hsound.map_reading_segmentOps h.built.reserved.length_le, List.map_map]
  rfl

/-! ### The main theorem -/

/-- Readings do not depend on whether the limits are clamped already. -/
theorem Instr.readings_clamped (p : Program) (config : Config) (slot : ConstIndex → Nat)
    (home : Reg → Operand) (i : Instr) :
    i.readings p config.clamped slot home = i.readings p config slot home := by
  cases i with
  | load dst index =>
    have hload : ∀ c : Constant, c.loadReading config.clamped (home dst) (slot index) =
        c.loadReading config (home dst) (slot index) := by
      intro c
      cases c with
      | str t =>
        rw [Constant.loadReading, Constant.loadReading, Config.clamped_maxInlineText,
          Config.clamped_inlineLiterals, Nat.min_assoc, Nat.min_self]
      | _ => rfl
    rw [Instr.readings, Instr.readings]
    exact List.map_congr_left fun c _ ↦ hload c
  | push src spread => cases spread <;> rfl
  | branch cond target negate => cases negate <;> rfl
  | call tail callee => cases tail <;> rfl
  | continuation tail dst => cases tail <;> rfl
  | receive dsts etc => cases etc <;> rfl
  | _ => rfl

/-- Clamping the configuration changes no reading of a body. -/
theorem Body.readings_clamped (p : Program) (config : Config) (slot : ConstIndex → Nat)
    (home : Reg → Operand) (b : Body) :
    b.readings p config.clamped slot home = b.readings p config slot home := by
  rw [readings, readings,
    List.flatMap_congr fun i _ ↦ Instr.readings_clamped p config slot home i]

theorem Body.readingsBefore_clamped (p : Program) (config : Config) (slot : ConstIndex → Nat)
    (home : Reg → Operand) (b : Body) (k : Nat) :
    b.readingsBefore p config.clamped slot home k = b.readingsBefore p config slot home k := by
  rw [readingsBefore, readingsBefore,
    List.flatMap_congr fun i _ ↦ Instr.readings_clamped p config slot home i]

/-- **Every compiled body of an image is read as its instructions say**, in order and with nothing
in between. The constants of the pool are those of the program in some order; a reference to the
pool in what is read names the place of its constant in that order. -/
theorem Image.map_read?_offsets_of_compile {program : Program} {config : Config} {image : Image}
    (h : compile program config = .ok image) :
    ∃ order, image.Holds program order ∧
      ∀ (slot : Nat) (f : Function), image.pool[slot]? = some (.function f) →
        ∃ index body frame, order[slot]? = some index ∧
          program.get? index = some (.code body) ∧ Frame.allocate body = .ok frame ∧
          (∀ r ∈ body.regs, frame.operand r = .ok (frame.home r)) ∧
          (∀ x ∈ body.readings program config order.idxOf frame.home,
            ∀ k, x.field = .pool k → k < order.length) ∧
          (image.offsets f.range.start f.range.stop).map image.read? =
            (body.readings program config order.idxOf frame.home).map some := by
  obtain ⟨order, s, hfin⟩ := compile_eq_ok h
  refine ⟨order, hfin.holds, fun slot f hf ↦ ?_⟩
  obtain ⟨index, g, n, hindex, hseg, hn, hrange⟩ := hfin.exists_segment hf
  obtain ⟨hbody, hframe⟩ := Job.segment?_eq_some_iff.1 hseg
  have hsound := hfin.built.laid.sound g (List.mem_of_getElem? hn)
  have hclamped := g.body.readings_clamped program config order.idxOf g.frame.home
  refine ⟨index, g.body, g.frame, hindex, hbody, hframe, fun r hr ↦ Frame.operand_home hframe hr,
    ?_, ?_⟩
  · intro x hx k hk
    rw [← hclamped] at hx
    exact hsound.lt_length_of_mem_readings hx hk
  · rw [← hclamped, hrange]
    exact hfin.map_read?_offsets_segment hn

/-- A body that loads an integer that fits its instruction and a float that does not, jumps to and
fro, and ends in a label with a receive of nothing behind it. -/
def Body.looping : Body where
  name := "looping"
  code := #[.load (.loc 0) 1, .load (.loc 1) 2, .closure (.loc 2) 3 [.loc 0],
    .branch (.loc 1) 7 true, .label 4, .jump 4, .label 7, .receive [] none]
  captured := Std.TreeSet.ofList [Reg.loc 0]

/-- A program of two bodies that refer to each other and use the same labels. -/
def Program.pair : Program where
  constants := #[.code Body.looping, .int 7, .float 0,
    .code
      { name := "inner"
        code := #[.load (.loc 0) 0, .label 4, .etcLookup (.loc 0) (.upval 0) 255, .jump 4] }]

/-- What a successful compilation has at its first slot is the entry. -/
theorem exists_main {r : Except Stop Image} (h : (r.toOption.bind Image.main?).isSome = true) :
    ∃ image f, r = .ok image ∧ image.pool[0]? = some (.function f) := by
  obtain ⟨f, hf⟩ := Option.isSome_iff_exists.1 h
  obtain ⟨image, himage, hmain⟩ := Option.bind_eq_some_iff.1 hf
  obtain ⟨e, he, hfun⟩ := Option.bind_eq_some_iff.1 hmain
  cases r with
  | error stop => cases himage
  | ok m =>
    obtain rfl := Option.some.inj himage
    cases e with
    | function g =>
      obtain rfl := Option.some.inj hfun
      exact ⟨m, g, rfl, he⟩
    | _ => cases hfun

/-- The entry of the pair is read back, with both jumps and the constant that is carried inline. -/
theorem Image.map_read?_offsets_pair :
    ∃ image f order frame, compile Program.pair {} = .ok image ∧
      image.pool[0]? = some (.function f) ∧ image.Holds Program.pair order ∧
      Frame.allocate Body.looping = .ok frame ∧
      (image.offsets f.range.start f.range.stop).map image.read? =
        (Body.looping.readings Program.pair {} order.idxOf frame.home).map some := by
  obtain ⟨image, f, himage, hf⟩ :
      ∃ image f, compile Program.pair {} = .ok image ∧ image.pool[0]? = some (.function f) :=
    exists_main (by decide +kernel)
  obtain ⟨order, hholds, hall⟩ := map_read?_offsets_of_compile himage
  obtain ⟨index, body, frame, hindex, hbody, hframe, -, -, hread⟩ := hall 0 f hf
  obtain rfl : 0 = index := Option.some.inj (hholds.first.symm.trans hindex)
  obtain rfl : Body.looping = body := Constant.code.inj (Option.some.inj hbody)
  exact ⟨image, f, order, frame, himage, hf, hholds, hframe, hread⟩

end RegisterBytecode
