import RegisterBytecode.Lowering
import RegisterBytecode.Proofs.Alloc.Homes
import RegisterBytecode.Proofs.Code.Reading

/-!
# The operations of an instruction

`Job.ops` is what an instruction becomes once its registers have homes and its constant has a
slot. It is a plain function: every way in which the compiler may fail to get there is a matter
of the homes (`Frame.operand_home`) or of the constants (`Job.demand`), and is stated apart.

Of the operations themselves four facts are used: they fit their opcodes (`Job.fits_of_mem_ops`),
they mention no register that the instruction does not mention (`Job.regs_subset_of_mem_lower`),
there are none exactly for labels and for an empty receive (`Job.ops_eq_nil_iff`), and the only
slot that they depend on is that of the constant the instruction demands (`Job.ops_congr`).
-/

namespace RegisterBytecode

/-! ### Homes as a function -/

/-- The storage of a register, where it has one. -/
def Frame.home (f : Frame) (r : Reg) : Operand :=
  match f.operand r with
  | .ok o => o
  | .error _ => default

/-- Every register that a body mentions has a home. -/
theorem Frame.operand_home {b : Body} {f : Frame} (h : Frame.allocate b = .ok f) {r : Reg}
    (hr : r ∈ b.regs) : f.operand r = .ok (f.home r) := by
  obtain ⟨o, ho, -⟩ := Frame.exists_operand h hr
  rw [Frame.home, ho]

/-- The home of a register is one of the storage that the frame announces. -/
theorem Frame.addresses_home {b : Body} {f : Frame} (h : Frame.allocate b = .ok f) {r : Reg}
    (hr : r ∈ b.regs) : f.Addresses (f.home r) := by
  obtain ⟨o, ho, ha⟩ := Frame.exists_operand h hr
  rwa [Frame.home, ho]

theorem exists_of_map_eq_ok {ε α β : Type} {g : α → β} {r : Except ε α} {b : β}
    (h : r.map g = .ok b) : ∃ a, r = .ok a ∧ g a = b := by
  cases r with
  | ok a => exact ⟨a, rfl, Except.ok.inj h⟩
  | error e => cases h

theorem eq_error_of_map_eq_error {ε α β : Type} {g : α → β} {r : Except ε α} {e : ε}
    (h : r.map g = .error e) : r = .error e := by
  cases r with
  | ok a => cases h
  | error e' => exact congrArg _ (Except.error.inj h)

/-- A traversal that fails nowhere is a map. -/
theorem mapM_eq_ok_map {α β ε : Type} {f : α → Except ε β} {g : α → β} {xs : List α}
    (h : ∀ x ∈ xs, f x = .ok (g x)) : xs.mapM f = .ok (xs.map g) := by
  induction xs with
  | nil => rfl
  | cons x xs ih =>
    rw [List.mapM_cons, h x List.mem_cons_self, ih fun y hy ↦ h y (List.mem_cons_of_mem _ hy)]
    rfl

namespace Op

/-- Put registers where they live. -/
def place (home : Reg → Operand) (op : Op Reg) : Op Operand :=
  ⟨op.opcode, op.regs.map home, op.immediate⟩

/-- Assigning homes to registers that all have one cannot fail. -/
theorem assign_eq_ok {f : Frame} {op : Op Reg} (h : ∀ r ∈ op.regs, f.operand r = .ok (f.home r)) :
    op.assign f.operand = .ok (op.place f.home) := by
  rw [assign, mapM_eq_ok_map h, place]

/-- The shape of an operation does not depend on where its registers live. -/
theorem Fits.place {op : Op Reg} (h : op.Fits) (home : Reg → Operand) : (op.place home).Fits where
  regs := by rw [Op.place, List.length_map, h.regs]
  immediate := h.immediate

end Op

/-- An instruction that leaves no bytes in the stream: a label, or a receive of nothing. -/
def Instr.silent : Instr → Bool
  | .label _ => true
  | .receive [] none => true
  | _ => false

/-- **The two constants that an operation can carry**: integers that fit and short texts. -/
theorem Config.inline?_eq_some {config : Config} {c : Constant} {opcode : Opcode}
    {immediate : Immediate} (h : config.inline? c = some (opcode, immediate)) :
    (∃ v n, c = .int v ∧ config.inlineLiterals = true ∧ narrow? v = some n ∧
        opcode = .loadInt ∧ immediate = .int n) ∨
      ∃ t, c = .str t ∧ config.inlineLiterals = true ∧ t.utf8ByteSize ≤ config.maxInlineText ∧
        opcode = .loadStr ∧ immediate = .text t := by
  cases c with
  | int v =>
    simp only [inline?] at h
    split at h
    · next hinline =>
      obtain ⟨n, hn, heq⟩ := Option.map_eq_some_iff.1 h
      obtain ⟨rfl, rfl⟩ := Prod.mk.inj heq
      exact Or.inl ⟨v, n, rfl, hinline, hn, rfl, rfl⟩
    · cases h
  | str t =>
    simp only [inline?] at h
    split at h
    · next hinline =>
      obtain ⟨rfl, rfl⟩ := Prod.mk.inj (Option.some.inj h)
      rw [Bool.and_eq_true, decide_eq_true_eq] at hinline
      exact Or.inr ⟨t, rfl, hinline.1, hinline.2, rfl, rfl⟩
    · cases h
  | _ => cases h

namespace Job

/-- The operations of an instruction, where `slot` gives the slots of constants and `home` the
storage of registers. -/
def ops (job : Job) (slot : ConstIndex → UInt16) (home : Reg → Operand) (i : Instr) :
    List (Op Operand) :=
  (job.lower slot i).map (Op.place home)

variable {job : Job} {slot : ConstIndex → UInt16} {i : Instr}

/-! ### Demands that are met -/

/-- An index that is accepted fits one byte, and nothing is demanded for it. -/
theorem checkTail_eq_ok {index : Nat} {d : Option ConstIndex} (h : checkTail index = .ok d) :
    index < tailLimit ∧ d = none := by
  unfold checkTail at h
  split at h
  · next hlt => exact ⟨hlt, (Except.ok.inj h).symm⟩
  · cases h

/-- A load demands its constant unless an operation carries it. -/
theorem demand_load_eq_ok {dst : Reg} {index : ConstIndex} {d : Option ConstIndex}
    (h : job.demand (.load dst index) = .ok d) :
    ∃ c, job.program.get? index = some c ∧
      d = if (job.config.inline? c).isSome then none else some index := by
  rw [demand] at h
  split at h
  · cases h
  · next c hc => exact ⟨c, hc, (Except.ok.inj h).symm⟩

/-- A closure demands the body that it is made of. -/
theorem demand_closure_eq_ok {dst : Reg} {index : ConstIndex} {captures : List Reg}
    {d : Option ConstIndex} (h : job.demand (.closure dst index captures) = .ok d) :
    (∃ body, job.program.get? index = some (.code body)) ∧ d = some index := by
  rw [demand] at h
  split at h
  · cases h
  · next body hc => exact ⟨⟨body, hc⟩, (Except.ok.inj h).symm⟩
  · cases h

/-! ### Operations -/

/-- An operation that carries a constant is a load with a matching field; a text is short because
the limit of the configuration is clamped. -/
theorem fits_of_inline? {c : Constant} {opcode : Opcode} {immediate : Immediate} (dst : Reg)
    (h : job.config.inline? c = some (opcode, immediate)) :
    (⟨opcode, [dst], immediate⟩ : Op Reg).Fits := by
  rcases Config.inline?_eq_some h with ⟨v, n, -, -, -, rfl, rfl⟩ | ⟨t, -, -, hlen, rfl, rfl⟩
  · exact ⟨rfl, rfl⟩
  · have hmax : job.config.maxInlineText ≤ inlineTextLimit := by
      rw [← job.clamped, Config.clamped_maxInlineText]
      exact Nat.min_le_right _ _
    refine ⟨rfl, rfl, ?_⟩
    unfold inlineTextLimit at hmax
    omega

/-- **Lowering respects the shapes of opcodes.** -/
theorem fits_of_mem_lower {op : Op Reg} (h : op ∈ job.lower slot i) : op.Fits := by
  cases i with
  -- a load may carry its constant, but a text only if a byte can hold its length
  | load dst index =>
    rw [lower] at h
    split at h
    · next opcode immediate hinline =>
      obtain ⟨c, -, hc⟩ := Option.bind_eq_some_iff.1 hinline
      rw [List.mem_singleton.1 h]
      exact fits_of_inline? dst hc
    · rw [List.mem_singleton.1 h]
      exact ⟨rfl, rfl⟩
  | push src spread =>
    rw [List.mem_singleton.1 h]
    exact ⟨rfl, Or.inl rfl⟩
  | etcLookup dst etc index =>
    rw [List.mem_singleton.1 h]
    exact ⟨rfl, Or.inr rfl⟩
  | fillTable table etc start =>
    rw [List.mem_singleton.1 h]
    exact ⟨rfl, Or.inr rfl⟩
  | branch cond target negate =>
    rw [List.mem_singleton.1 h]
    cases negate <;> exact ⟨rfl, rfl⟩
  | call tail callee =>
    rw [List.mem_singleton.1 h]
    cases tail <;> exact ⟨rfl, rfl⟩
  | continuation tail dst =>
    rw [List.mem_singleton.1 h]
    cases tail <;> exact ⟨rfl, rfl⟩
  | closure dst index captures =>
    rcases List.mem_cons.1 h with rfl | h
    · exact ⟨rfl, rfl⟩
    · obtain ⟨src, -, rfl⟩ := List.mem_map.1 h
      exact ⟨rfl, rfl⟩
  | receive dsts etc =>
    rcases List.mem_append.1 h with h | h
    · obtain ⟨dst, -, rfl⟩ := List.mem_map.1 h
      exact ⟨rfl, rfl⟩
    · obtain ⟨dst, -, rfl⟩ := List.mem_map.1 h
      exact ⟨rfl, rfl⟩
  | label l => cases h
  | _ =>
    rw [List.mem_singleton.1 h]
    exact ⟨rfl, rfl⟩

/-- Operations mention only registers that their instruction mentions. -/
theorem regs_subset_of_mem_lower {op : Op Reg} (h : op ∈ job.lower slot i) : op.regs ⊆ i.regs := by
  cases i with
  | load dst index =>
    rw [lower] at h
    split at h <;> rw [List.mem_singleton.1 h] <;> exact List.Subset.refl _
  | closure dst index captures =>
    rcases List.mem_cons.1 h with rfl | h
    · exact List.cons_subset_cons dst (List.nil_subset _)
    · obtain ⟨src, hsrc, rfl⟩ := List.mem_map.1 h
      exact List.cons_subset_cons dst (List.cons_subset.2 ⟨hsrc, List.nil_subset _⟩)
  | receive dsts etc =>
    rcases List.mem_append.1 h with h | h
    · obtain ⟨dst, hdst, rfl⟩ := List.mem_map.1 h
      exact List.cons_subset.2 ⟨List.mem_append_left _ hdst, List.nil_subset _⟩
    · obtain ⟨dst, hdst, rfl⟩ := List.mem_map.1 h
      exact List.cons_subset.2 ⟨List.mem_append_right _ hdst, List.nil_subset _⟩
  | label l => cases h
  | _ =>
    rw [List.mem_singleton.1 h]
    exact List.Subset.refl _

/-- Silent instructions, and no others, leave no operations. -/
theorem lower_eq_nil_iff : job.lower slot i = [] ↔ i.silent = true := by
  cases i with
  | load dst index =>
    rw [lower]
    split <;> simp [Instr.silent]
  | receive dsts etc => cases dsts <;> cases etc <;> simp [lower, Instr.silent]
  | _ => simp [lower, Instr.silent]

/-- **The only slot that matters** is that of the constant which the instruction demands. -/
theorem lower_congr {slot' : ConstIndex → UInt16} {d : Option ConstIndex}
    (hd : job.demand i = .ok d) (h : ∀ c ∈ d, slot c = slot' c) :
    job.lower slot i = job.lower slot' i := by
  cases i with
  | load dst index =>
    obtain ⟨c, hc, rfl⟩ := demand_load_eq_ok hd
    rw [lower, lower, hc, Option.bind_some]
    cases hinline : job.config.inline? c with
    | some x => rfl
    | none =>
      rw [hinline] at h
      dsimp only
      rw [h index rfl]
  | closure dst index captures =>
    obtain ⟨-, rfl⟩ := demand_closure_eq_ok hd
    rw [lower, lower, h index rfl]
  | _ => rfl

/-- Only a jump has a target. -/
theorem target?_of_mem_lower {op : Op Reg} {l : Label} (hop : op ∈ job.lower slot i)
    (h : op.immediate = .target l) : i.target? = some l := by
  cases i with
  | load dst index =>
    rw [lower] at hop
    split at hop
    · next opcode immediate hinline =>
      obtain ⟨c, -, hc⟩ := Option.bind_eq_some_iff.1 hinline
      rw [List.mem_singleton.1 hop] at h
      rcases Config.inline?_eq_some hc with ⟨v, n, -, -, -, -, rfl⟩ | ⟨t, -, -, -, -, rfl⟩
      · cases h
      · cases h
    · rw [List.mem_singleton.1 hop] at h
      cases h
  | jump target =>
    rw [List.mem_singleton.1 hop] at h
    cases h
    rfl
  | branch cond target negate =>
    rw [List.mem_singleton.1 hop] at h
    cases h
    rfl
  | closure dst index captures =>
    rcases List.mem_cons.1 hop with rfl | hop
    · cases h
    · obtain ⟨src, -, rfl⟩ := List.mem_map.1 hop
      cases h
  | receive dsts etc =>
    rcases List.mem_append.1 hop with hop | hop
    · obtain ⟨dst, -, rfl⟩ := List.mem_map.1 hop
      cases h
    · obtain ⟨dst, -, rfl⟩ := List.mem_map.1 hop
      cases h
  | label l => cases hop
  | _ =>
    rw [List.mem_singleton.1 hop] at h
    cases h

/-- A jump is one operation. -/
theorem ops_of_target? (job : Job) (slot : ConstIndex → UInt16) (home : Reg → Operand)
    {l : Label} (h : i.target? = some l) :
    ∃ op, job.ops slot home i = [op] ∧ op.immediate = .target l := by
  cases i with
  | jump target =>
    obtain rfl := Option.some.inj h
    exact ⟨_, rfl, rfl⟩
  | branch cond target negate =>
    obtain rfl := Option.some.inj h
    exact ⟨_, rfl, rfl⟩
  | _ => cases h

section Placed

variable {home : Reg → Operand}

theorem fits_of_mem_ops {op : Op Operand} (h : op ∈ job.ops slot home i) : op.Fits := by
  obtain ⟨op', hop, rfl⟩ := List.mem_map.1 h
  exact (fits_of_mem_lower hop).place home

/-- Silent instructions, and no others, leave no bytes. -/
theorem ops_eq_nil_iff : job.ops slot home i = [] ↔ i.silent = true := by
  rw [ops, List.map_eq_nil_iff, lower_eq_nil_iff]

/-- An instruction looks at the slot of the constant that it demands, and at no other. -/
theorem ops_congr {slot' : ConstIndex → UInt16} {d : Option ConstIndex}
    (hd : job.demand i = .ok d) (h : ∀ c ∈ d, slot c = slot' c) :
    job.ops slot home i = job.ops slot' home i := by
  rw [ops, ops, lower_congr hd h]

end Placed

/-- **The operands of an instruction** of an allocated body lie in its frame. -/
theorem addresses_of_mem_ops {b : Body} {f : Frame} (h : Frame.allocate b = .ok f)
    (hi : i ∈ b.code) {op : Op Operand} (hop : op ∈ job.ops slot f.home i) {o : Operand}
    (ho : o ∈ op.regs) : f.Addresses o := by
  obtain ⟨op', hop', rfl⟩ := List.mem_map.1 hop
  obtain ⟨r, hr, rfl⟩ := List.mem_map.1 ho
  have hmem : r ∈ b.regs :=
    List.mem_flatMap.2 ⟨i, Array.mem_toList_iff.2 hi, regs_subset_of_mem_lower hop' hr⟩
  exact Frame.addresses_home h hmem

/-- The operands of an instruction of an allocated body fit their words. -/
theorem inLimits_of_mem_ops {b : Body} {f : Frame} (h : Frame.allocate b = .ok f)
    (hi : i ∈ b.code) {op : Op Operand} (hop : op ∈ job.ops slot f.home i) : op.InLimits :=
  fun _ ho ↦ Frame.Addresses.index_lt h (addresses_of_mem_ops h hi hop ho)

/-- Choosing storage for the operations of an instruction fails nowhere if every register that the
instruction mentions has a home. -/
theorem mapM_assign_lower {f : Frame} (h : ∀ r ∈ i.regs, f.operand r = .ok (f.home r)) :
    (job.lower slot i).mapM (Op.assign f.operand) = .ok (job.ops slot f.home i) :=
  mapM_eq_ok_map fun _ hop ↦ Op.assign_eq_ok fun r hr ↦ h r (regs_subset_of_mem_lower hop hr)

end Job

end RegisterBytecode
