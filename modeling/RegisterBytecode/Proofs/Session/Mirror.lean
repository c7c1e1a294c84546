import RegisterBytecode.Proofs.Code.Mirror
import RegisterBytecode.Proofs.PoolLimit
import RegisterBytecode.Proofs.WellFormed

/-!
# A compilation and its mirror image

Two programs are given, the second of which has the constants of the first at other indices and
under other names (`Job.Mirrors`); it may have further constants that no one refers to, and it may
be compiled without lines. This module follows the two compilations step by step.

A demand of an instruction is the demand of its mirror image (`Job.Mirrors.demand_eq`), and it
stands for the same operations up to labels (`Job.Mirrors.ops_eq`). Requests therefore find or
reserve the same slots (`Session.Mirrors.request`), bodies get the same storage and leave the same
bytes (`Session.Mirrors.compileBody`), and constants are queued in the same order. By induction over
the batches the whole run goes the same way (`Session.Mirrors.run`), which leaves
`compile_mirrors`: the two compilations come to **the same result**, up to what they call the
constant or the label that is at fault and up to lines.
-/

namespace RegisterBytecode

/-- The constant `c'` is `c` with other indices of constants and, in a body, other names. -/
inductive Constant.Renamed (ρ : ConstIndex → ConstIndex) (ν : Naming) : Constant → Constant → Prop
  | literal {c : Constant} (h : ∀ b, c ≠ .code b) : Renamed ρ ν c c
  | code {b b' : Body} (h : b.Renamed ρ ν b') : Renamed ρ ν (.code b) (.code b')

/-- The job `b` is the mirror image of `a`. Different constants have different images, and a
constant to which one with an image refers has one, too. -/
structure Job.Mirrors (μ : Mirror) (a b : Job) : Prop where
  entry : b.program.entry = μ.index a.program.entry
  entry_mem : a.program.entry ∈ μ.known
  injOn : Set.InjOn μ.index μ.known
  get? : ∀ c ∈ μ.known,
    Option.Rel (Constant.Renamed μ.index (μ.names c)) (a.program.get? c)
      (b.program.get? (μ.index c))
  closed : ∀ c ∈ μ.known, ∀ body, a.program.get? c = some (.code body) →
    ∀ i ∈ body.code.toList, ∀ d, i.constant? = some d → d ∈ μ.known
  inline : b.config.inline? = a.config.inline?
  maxConstants : b.config.maxConstants = a.config.maxConstants
  recordLines : b.config.recordLines = (!μ.quiet && a.config.recordLines)

theorem Immediate.relabel_of_inline? {config : Config} {c : Constant} {opcode : Opcode}
    {immediate : Immediate} (h : config.inline? c = some (opcode, immediate)) (f : Label → Label) :
    immediate.relabel f = immediate := by
  obtain ⟨v, n, -, -, -, -, rfl⟩ | ⟨t, -, -, -, -, rfl⟩ := Config.inline?_eq_some h
  · rfl
  · rfl

/-- An operation on virtual registers under other names. -/
def Op.rename (ν : Naming) (op : Op Reg) : Op Reg :=
  ⟨op.opcode, op.regs.map (Reg.rename ν), op.immediate.relabel ν.label⟩

/-- Renaming a register and then looking up its home is looking up the home that it had. -/
theorem Op.place_rename {ν : Naming} {op : Op Reg} {home home' : Reg → Operand}
    (h : ∀ r ∈ op.regs, home' (r.rename ν) = home r) :
    (op.rename ν).place home' = (op.place home).relabel ν.label := by
  have hregs : (op.regs.map (Reg.rename ν)).map home' = op.regs.map home := by
    rw [List.map_map]
    exact List.map_congr_left h
  rw [rename, place, place, relabel, hregs]

/-- Storage that cannot be chosen is a limit without a line, which no numbering of constants
affects, or an upvalue that is captured. -/
theorem Frame.allocate_eq_error {b : Body} {stop : Stop} (h : Frame.allocate b = .error stop) :
    (∃ kind, stop = .error ⟨kind, none⟩ ∧ ∀ ρ, kind.renumber ρ = kind) ∨
      ∃ reg function, stop = .fault (.capturedUpvalue reg function) := by
  have hend := ending_allocate b
  rw [h] at hend
  cases hend with
  | capturedUpvalue hr hup => exact Or.inr ⟨_, _, rfl⟩
  | cells => exact Or.inl ⟨_, rfl, fun _ ↦ rfl⟩
  | upvalues => exact Or.inl ⟨_, rfl, fun _ ↦ rfl⟩
  | registers => exact Or.inl ⟨_, rfl, fun _ ↦ rfl⟩

namespace Job.Mirrors

variable {μ : Mirror} {a b : Job}

/-! ### Instructions -/

/-- A constant and its mirror image are both missing, are the same literal, or are bodies. -/
theorem cases_get? (h : a.Mirrors μ b) {c : ConstIndex} (hc : c ∈ μ.known) :
    (a.program.get? c = none ∧ b.program.get? (μ.index c) = none) ∨
      (∃ k, (∀ body, k ≠ .code body) ∧ a.program.get? c = some k ∧
        b.program.get? (μ.index c) = some k) ∨
      ∃ body body', a.program.get? c = some (.code body) ∧
        b.program.get? (μ.index c) = some (.code body') ∧
        body.Renamed μ.index (μ.names c) body' := by
  have hrel := h.get? c hc
  generalize a.program.get? c = x, b.program.get? (μ.index c) = y at hrel
  cases hrel with
  | none => exact Or.inl ⟨rfl, rfl⟩
  | some hk =>
    cases hk with
    | literal hk => exact Or.inr (Or.inl ⟨_, hk, rfl, rfl⟩)
    | code hk => exact Or.inr (Or.inr ⟨_, _, rfl, rfl, hk⟩)

theorem bind_inline? (h : a.Mirrors μ b) {c : ConstIndex} (hc : c ∈ μ.known) :
    (b.program.get? (μ.index c)).bind b.config.inline? =
      (a.program.get? c).bind a.config.inline? := by
  rw [h.inline]
  obtain ⟨ha, hb⟩ | ⟨k, -, ha, hb⟩ | ⟨body, body', ha, hb, -⟩ := h.cases_get? hc
  · rw [ha, hb]
  · rw [ha, hb]
  · rw [ha, hb]
    rfl

/-- **A demand** is met by the mirror image of the constant that meets it, or is a fault of both. -/
theorem demand_eq (h : a.Mirrors μ b) (ν : Naming) {i : Instr}
    (hi : ∀ d, i.constant? = some d → d ∈ μ.known) :
    b.demand ((i.rename ν).renumber μ.index) =
      ((a.demand i).map (Option.map μ.index)).mapError (Fault.rename μ.index ν) := by
  have htail : ∀ index, checkTail index =
      ((checkTail index).map (Option.map μ.index)).mapError (Fault.rename μ.index ν) := by
    intro index
    unfold checkTail
    split <;> rfl
  cases i with
  | load dst index =>
    rw [Instr.rename, Instr.renumber, demand, demand, h.inline]
    obtain ⟨ha, hb⟩ | ⟨k, -, ha, hb⟩ | ⟨body, body', ha, hb, -⟩ := h.cases_get? (hi index rfl)
    · rw [ha, hb]
      rfl
    · rw [ha, hb]
      dsimp only
      split <;> rfl
    · rw [ha, hb]
      rfl
  | closure dst index captures =>
    rw [Instr.rename, Instr.renumber, demand, demand]
    obtain ⟨ha, hb⟩ | ⟨k, hk, ha, hb⟩ | ⟨body, body', ha, hb, -⟩ := h.cases_get? (hi index rfl)
    · rw [ha, hb]
      rfl
    · rw [ha, hb]
      cases k with
      | code body => exact absurd rfl (hk body)
      | _ => rfl
    · rw [ha, hb]
      rfl
  | etcLookup dst etc index => exact htail index
  | fillTable table etc start => exact htail start
  | _ => rfl

/-- Instructions that mirror each other have operations that do. -/
theorem lower_eq (h : a.Mirrors μ b) (ν : Naming) {i : Instr}
    (hi : ∀ d, i.constant? = some d → d ∈ μ.known) {slot slot' : ConstIndex → UInt16}
    (hslot : ∀ d ∈ μ.known, slot' (μ.index d) = slot d) :
    b.lower slot' ((i.rename ν).renumber μ.index) = (a.lower slot i).map (Op.rename ν) := by
  cases i with
  | load dst index =>
    rw [Instr.rename, Instr.renumber, lower, lower, h.bind_inline? (hi index rfl),
      hslot index (hi index rfl)]
    cases hc : (a.program.get? index).bind a.config.inline? with
    | none => rfl
    | some x =>
      obtain ⟨k, -, hk⟩ := Option.bind_eq_some_iff.1 hc
      simp [Op.rename, Immediate.relabel_of_inline? hk]
  | closure dst index captures =>
    rw [Instr.rename, Instr.renumber, lower, lower, hslot index (hi index rfl)]
    simp [Op.rename, Immediate.relabel]
  | receive dsts etc =>
    cases etc <;> simp [Instr.rename, Instr.renumber, lower, Op.rename, Immediate.relabel]
  | _ => rfl

/-- **The operations of an instruction** and of its mirror image, for slots and storage that agree
on what the instruction names. -/
theorem ops_eq (h : a.Mirrors μ b) {ν : Naming} {i : Instr}
    (hi : ∀ d, i.constant? = some d → d ∈ μ.known) {slot slot' : ConstIndex → UInt16}
    (hslot : ∀ d ∈ μ.known, slot' (μ.index d) = slot d) {home home' : Reg → Operand}
    (hhome : ∀ r ∈ i.regs, home' (r.rename ν) = home r) :
    b.ops slot' home' ((i.rename ν).renumber μ.index) =
      (a.ops slot home i).map (Op.relabel ν.label) := by
  rw [ops, h.lower_eq ν hi hslot, ops, List.map_map, List.map_map]
  refine List.map_congr_left fun op hop ↦ ?_
  exact Op.place_rename fun r hr ↦ hhome r (regs_subset_of_mem_lower hop hr)

end Job.Mirrors

theorem Body.Renamed.lined {ρ : ConstIndex → ConstIndex} {ν : Naming} {body body' : Body}
    (h : body.Renamed ρ ν body') :
    body'.lined = body.lined.map fun x ↦ ((x.1.rename ν).renumber ρ, x.2) := by
  rw [Body.lined, h.positioned, Body.lined, List.map_map, List.map_map]
  refine List.map_congr_left fun x _ ↦ ?_
  rw [Function.comp_apply, Function.comp_apply, Body.line, Body.line, h.lines]

namespace Session

/-- The session `t` is the mirror image of `s`, in which the bodies of the constants `owners` have
been started. -/
structure Mirrors (μ : Mirror) (owners : List ConstIndex) (s t : Session) : Prop where
  stream : s.stream.Mirrors μ owners t.stream
  pool : t.pool = s.pool
  ranges : t.ranges = s.ranges
  owned : owners.length = s.ranges.size
  size_slots : t.slots.size = s.slots.size
  slots : ∀ c ∈ μ.known, t.slots[μ.index c]? = s.slots[c]?
  pending : t.pending.toList = s.pending.toList.map μ.index
  known : ∀ c ∈ s.pending.toList, c ∈ μ.known

/-- The session `t` is the mirror image of `s`, whichever bodies have been started. -/
def Mirrored (μ : Mirror) (s t : Session) : Prop := ∃ owners, Mirrors μ owners s t

/-- A step and its mirror image, from sessions that mirror each other to such sessions. -/
abbrev Parallel (μ : Mirror) (D : Session → Session → Prop) {α : Type} :
    Outcome Session α → Outcome Session α → Prop :=
  Outcome.Mirrors μ (fun s ↦ s.stream.lines) D

namespace Mirrors

variable {μ : Mirror} {a b : Job} {owners : List ConstIndex} {s t : Session} {c : ConstIndex}

theorem getD_slots (h : s.Mirrors μ owners t) {c : ConstIndex} (hc : c ∈ μ.known) :
    t.slots.getD (μ.index c) 0 = s.slots.getD c 0 := by
  rw [Std.TreeMap.getD_eq_getD_getElem?, Std.TreeMap.getD_eq_getD_getElem?, h.slots c hc]

/-! ### Requests -/

/-- **A request** finds the same slot, reserves the same one, or is refused for both. -/
theorem request (hj : a.Mirrors μ b) (h : s.Mirrors μ owners t) (hc : c ∈ μ.known) :
    Parallel μ (Mirrors μ owners) (s.request a c) (t.request b (μ.index c)) := by
  rw [Session.request, Session.request, h.slots c hc, h.size_slots, hj.maxConstants]
  cases hslot : s.slots[c]? with
  | some slot => exact .done h
  | none =>
    dsimp only
    split
    · refine .done { h with size_slots := ?_, slots := ?_, pending := ?_, known := ?_ }
      · simp only [Std.TreeMap.size_insert, Std.TreeMap.contains_eq_isSome_getElem?, h.slots c hc,
          hslot, h.size_slots]
      · intro d hd
        simp only [Std.TreeMap.getElem?_insert, Nat.compare_eq_eq, hj.injOn.eq_iff hc hd,
          h.slots d hd]
      · simp only [Array.toList_push, List.map_append, h.pending, List.map_singleton]
      · intro d hd
        rw [Array.toList_push, List.mem_append, List.mem_singleton] at hd
        rcases hd with hd | rfl
        · exact h.known d hd
        · exact hc
    · exact .limit h.stream.lines

/-- Supplying an instruction is at most one request, for the constant under its own index on each
side. -/
theorem supply (hj : a.Mirrors μ b) (h : s.Mirrors μ owners t) (c : ConstIndex) {i : Instr}
    (hi : ∀ d, i.constant? = some d → d ∈ μ.known) :
    Parallel μ (Mirrors μ owners) (s.supply a i)
      (t.supply b ((i.rename (μ.names c)).renumber μ.index)) := by
  rw [Session.supply, Session.supply, hj.demand_eq _ hi]
  cases hd : a.demand i with
  | error f => exact .fault c
  | ok d =>
    cases d with
    | none => exact .done h
    | some d =>
      have hknown : d ∈ μ.known := hi d (Job.constant?_of_demand hd).1
      exact (h.request hj hknown).bind fun _ s' t' _ h' ↦ .done h'

/-! ### Bodies -/

theorem setLine (h : s.Mirrors μ owners t) (line : Nat) :
    (s.setLine line).Mirrors μ owners (t.setLine line) :=
  { h with stream := h.stream.setLine line }

/-- A label is bound on both sides, or bound twice on both. -/
theorem bind (h : s.Mirrors μ owners t) {n : Nat} (hc : owners[n]? = some c)
    (hinj : Function.Injective (μ.names c).label) (l : Label) :
    Parallel μ (Mirrors μ owners) (s.bind n l) (t.bind n ((μ.names c).label l)) := by
  rw [Session.bind, Session.bind, h.stream.isBound_eq hc]
  split
  · exact .fault c
  · exact .done { h with stream := h.stream.bind hc hinj l }

/-- **One instruction** of a body for which the same storage is chosen. -/
theorem emitInstr (hj : a.Mirrors μ b) (h : s.Mirrors μ owners t) {n : Nat}
    (hc : owners[n]? = some c) (hinj : Function.Injective (μ.names c).label) {frame frame' : Frame}
    {i : Instr} (hi : ∀ d, i.constant? = some d → d ∈ μ.known)
    (hhome : ∀ r ∈ i.regs, frame.operand r = .ok (frame.home r))
    (hsame : ∀ r ∈ i.regs, frame'.operand (r.rename (μ.names c)) = frame.operand r)
    (line : Nat) :
    Parallel μ (Mirrors μ owners) (s.emitInstr a frame n line i)
      (t.emitInstr b frame' n line ((i.rename (μ.names c)).renumber μ.index)) := by
  have hhomes : ∀ r ∈ i.regs, frame'.home (r.rename (μ.names c)) = frame.home r := by
    intro r hr
    rw [Frame.home, Frame.home, hsame r hr]
  -- so the renamed instruction finds storage for its registers too
  have hhome' : ∀ r ∈ ((i.rename (μ.names c)).renumber μ.index).regs,
      frame'.operand r = .ok (frame'.home r) := by
    rw [Instr.regs_renumber, Instr.regs_rename]
    intro r hr
    obtain ⟨x, hx, rfl⟩ := List.mem_map.1 hr
    rw [hsame x hx, hhomes x hx, hhome x hx]
  rw [Session.emitInstr, Session.emitInstr, Instr.binds?_renumber, Instr.binds?_rename]
  cases i.binds? with
  | some l => exact (h.setLine line).bind hc hinj l
  | none =>
    refine ((h.setLine line).supply hj c hi).bind fun _ s' t' _ h' ↦ ?_
    rw [emitLowered_eq_done hhome, emitLowered_eq_done hhome',
      hj.ops_eq hi (fun d hd ↦ h'.getD_slots hd) hhomes]
    exact .done { h' with stream := h'.stream.emitAll hc _ }

/-- **Instructions** are emitted in parallel, one after another. -/
theorem emitAll (hj : a.Mirrors μ b) (h : s.Mirrors μ owners t) {n : Nat}
    (hc : owners[n]? = some c) (hinj : Function.Injective (μ.names c).label) {frame frame' : Frame}
    {code : List (Instr × Nat)}
    (hi : ∀ x ∈ code, ∀ d, x.1.constant? = some d → d ∈ μ.known)
    (hhome : ∀ x ∈ code, ∀ r ∈ x.1.regs, frame.operand r = .ok (frame.home r))
    (hsame : ∀ x ∈ code, ∀ r ∈ x.1.regs,
      frame'.operand (r.rename (μ.names c)) = frame.operand r) :
    Parallel μ (Mirrors μ owners) (s.emitAll a frame n code)
      (t.emitAll b frame' n
        (code.map fun x ↦ ((x.1.rename (μ.names c)).renumber μ.index, x.2))) := by
  induction code generalizing s t with
  | nil => exact .done h
  | cons x code ih =>
    rw [List.forall_mem_cons] at hi hhome hsame
    refine (h.emitInstr hj hc hinj hi.1 hhome.1 hsame.1 x.2).bind fun _ s' t' _ h' ↦ ?_
    exact ih h' hi.2 hhome.2 hsame.2

/-- A body is started behind the others, with an empty range and no labels. -/
theorem startBody (h : s.Mirrors μ owners t) (c : ConstIndex) (range : Range) :
    Mirrors μ (owners ++ [c]) { s with ranges := s.ranges.push range }
      { t with ranges := s.ranges.push range } :=
  { h with
    stream := h.stream.start c
    ranges := rfl
    owned := by rw [List.length_append, h.owned, Array.size_push, List.length_singleton] }

/-- **A body** is laid into the same range under either name. -/
theorem compileBody (hj : a.Mirrors μ b) (h : s.Mirrors μ owners t) (hc : c ∈ μ.known)
    {body body' : Body} (hget : a.program.get? c = some (.code body))
    (hbody : body.Renamed μ.index (μ.names c) body') {frame frame' : Frame}
    (ha : Frame.allocate body = .ok frame) (hframe : frame.Renamed (μ.names c) body frame') :
    Parallel μ (Mirrors μ (owners ++ [c])) (s.compileBody a body frame)
      (t.compileBody b body' frame') := by
  have howner : (owners ++ [c])[s.ranges.size]? = some c := by
    rw [← h.owned, List.getElem?_concat_length]
  have hmem : ∀ x ∈ body.lined, x.1 ∈ body.code.toList := fun x hx ↦
    Body.mem_code_of_mem_lined hx
  have hemit := (h.startBody c ⟨s.stream.offset, s.stream.offset⟩).emitAll hj howner
    hbody.label_injective (fun x hx ↦ hj.closed c hc body hget x.1 (hmem x hx))
    (fun x hx r ↦ Frame.operand_home_of_mem_lined ha hx)
    (fun x hx r hr ↦ hframe.operand r (List.mem_flatMap.2 ⟨x.1, hmem x hx, hr⟩))
  -- both start at the same offset and count the same bodies before
  have hoffset : t.stream.offset = s.stream.offset := congrArg Array.size h.stream.code
  rw [Session.compileBody, Session.compileBody, h.ranges, hoffset]
  rw [← hbody.lined] at hemit
  refine Outcome.Mirrors.bind hemit fun _ s' t' _ h' ↦ ?_
  -- and both end at the same offset, padded or not
  have hpad := h'.stream.pad
  have hend : t'.stream.pad.offset = s'.stream.pad.offset := congrArg Array.size hpad.code
  dsimp only
  rw [padLabel_eq, padLabel_eq, hbody.name, hbody.upvalueNames, hframe.registers, hframe.cells,
    hframe.upvalues, hend, h'.ranges]
  refine .done { h' with stream := hpad, ranges := rfl, owned := ?_ }
  rw [h'.owned, Array.size_setIfInBounds]

/-! ### Constants -/

/-- **A constant** becomes the same pool entry. -/
theorem compileConstant (hj : a.Mirrors μ b) (h : s.Mirrors μ owners t) (hc : c ∈ μ.known) :
    Parallel μ (Mirrored μ) (s.compileConstant a c)
      (t.compileConstant b (μ.index c)) := by
  rw [Session.compileConstant, Session.compileConstant]
  obtain ⟨ha, hb⟩ | ⟨k, hk, ha, hb⟩ | ⟨body, body', ha, hb, hbody⟩ := hj.cases_get? hc
  · rw [ha, hb]
    exact .fault c
  · rw [ha, hb]
    cases k with
    | code body => exact absurd rfl (hk body)
    | _ => exact .done ⟨owners, h⟩
  · rw [ha, hb]
    dsimp only
    cases halloc : Frame.allocate body with
    | error stop =>
      rw [hbody.allocate_error halloc]
      obtain ⟨kind, rfl, hkind⟩ | ⟨reg, function, rfl⟩ := Frame.allocate_eq_error halloc
      · nth_rewrite 2 [← hkind μ.index]
        exact .limit h.stream.lines
      · exact .fault c
    | ok frame =>
      obtain ⟨frame', halloc', hframe⟩ := hbody.allocate_ok halloc
      rw [halloc']
      exact (h.compileBody hj hc ha hbody halloc hframe).bind fun _ s' t' _ h' ↦ .done ⟨_, h'⟩

theorem fill (h : s.Mirrors μ owners t) (c : ConstIndex) (reserved : Option UInt16)
    (entry : Entry) :
    Parallel μ (Mirrors μ owners) (s.fill c reserved entry)
      (t.fill (μ.index c) reserved entry) := by
  rw [Session.fill, Session.fill, h.pool]
  split
  · exact .done { h with pool := rfl }
  · exact .fault c

/-- **A batch** is compiled in parallel, one constant after another. -/
theorem compileBatch (hj : a.Mirrors μ b) (h : s.Mirrors μ owners t) {batch : List ConstIndex}
    (hbatch : ∀ c ∈ batch, c ∈ μ.known) :
    Parallel μ (Mirrored μ) (Session.compileBatch a batch s)
      (Session.compileBatch b (batch.map μ.index) t) := by
  induction batch generalizing s t owners with
  | nil => exact .done ⟨owners, h⟩
  | cons c batch ih =>
    rw [List.forall_mem_cons] at hbatch
    rw [List.map_cons, Session.compileBatch, Session.compileBatch, h.slots c hbatch.1]
    refine (h.compileConstant hj hbatch.1).bind ?_
    rintro entry s₁ t₁ - ⟨owners₁, h₁⟩
    refine (h₁.fill c _ entry).bind fun _ s₂ t₂ _ h₂ ↦ ?_
    exact ih h₂ hbatch.2

theorem isEmpty_pending (h : s.Mirrors μ owners t) : t.pending.isEmpty = s.pending.isEmpty := by
  rw [← Array.isEmpty_toList, ← Array.isEmpty_toList, h.pending, List.isEmpty_map]

/-- Taking the queue leaves both with an empty one. -/
theorem take (h : s.Mirrors μ owners t) :
    Mirrors μ owners { s with pending := #[] } { t with pending := #[] } :=
  { h with pending := rfl, known := nofun }

/-- **All batches**, by induction over the credit of the first of the two. -/
theorem drain (hj : a.Mirrors μ b) (h : s.Mirrors μ owners t) :
    Parallel μ (Mirrored μ) (s.drain a) (t.drain b) := by
  induction hn : s.credit a using Nat.strong_induction_on generalizing s t owners with
  | _ n ih =>
    by_cases hempty : s.pending.isEmpty = true
    · rw [Session.drain, if_pos hempty, Session.drain, if_pos (h.isEmpty_pending.trans hempty)]
      exact .done ⟨owners, h⟩
    · rw [drain_eq_bind hempty, drain_eq_bind (h.isEmpty_pending ▸ hempty), h.pending]
      refine (h.take.compileBatch hj h.known).bind ?_
      rintro u s' t' hdone ⟨owners', h'⟩
      exact ih _ (hn ▸ credit_lt_of_compileBatch hempty hdone) h' rfl

/-! ### The whole program -/

/-- Jumps are filled in on both sides, at the same distances. -/
theorem resolve (h : s.Mirrors μ owners t) :
    Parallel μ (Mirrored μ) s.resolve t.resolve := by
  have hresolve := h.stream.resolve s.ranges
  rw [Session.resolve, Session.resolve, h.ranges]
  generalize s.stream.resolve s.ranges = x, t.stream.resolve s.ranges = y at hresolve
  cases hresolve with
  | done h' => exact .done ⟨owners, { h with stream := h', ranges := rfl }⟩
  | failed h' => exact .failed h'
  | fault c => exact .fault c

theorem start (hj : a.Mirrors μ b) : (start a).Mirrors μ [] (start b) where
  stream :=
    { code := rfl
      line := rfl
      lastLabel := rfl
      recordLines := hj.recordLines
      lines := by rw [Mirror.lines]; exact (ite_self _).symm
      labels := nofun
      fresh := fun _ _ _ ↦ ⟨rfl, rfl⟩
      patches := .nil }
  pool := rfl
  ranges := rfl
  owned := rfl
  size_slots := rfl
  slots := fun _ _ ↦ rfl
  pending := rfl
  known := nofun

/-- **A whole run.** -/
theorem run (hj : a.Mirrors μ b) (h : s.Mirrors μ owners t) :
    Parallel μ (Mirrored μ) (s.run a) (t.run b) := by
  rw [Session.run, Session.run, hj.entry]
  obtain ⟨ha, hb⟩ | ⟨k, hk, ha, hb⟩ | ⟨body, body', ha, hb, -⟩ := hj.cases_get? hj.entry_mem
  · rw [ha, hb]
    exact .limit h.stream.lines
  · rw [ha, hb]
    cases k with
    | code body => exact absurd rfl (hk body)
    | _ => exact .limit h.stream.lines
  · rw [ha, hb]
    refine (h.request hj hj.entry_mem).bind fun _ s₁ t₁ _ h₁ ↦ ?_
    refine (h₁.drain hj).bind ?_
    rintro u s₂ t₂ - ⟨owners₂, h₂⟩
    exact h₂.resolve

end Mirrors

end Session

/-! ### Results -/

/-- A result and its mirror image: the same image up to lines, the same error up to its line, or the
same fault of some body. -/
inductive Mirror.Agrees (μ : Mirror) : Except Stop Image → Except Stop Image → Prop
  | image (m : Image) : Agrees μ (.ok m) (.ok { m with lines := μ.lines m.lines })
  | error (e : CompileError) :
    Agrees μ (.error (.error e)) (.error (.error ⟨e.kind.renumber μ.index, μ.line e.line⟩))
  | fault (f : Fault) (c : ConstIndex) :
    Agrees μ (.error (.fault f)) (.error (.fault (f.rename μ.index (μ.names c))))

namespace Mirror.Agrees

variable {μ : Mirror} {r r' : Except Stop Image}

/-- With lines, the image is the same. -/
theorem eq_ok (h : μ.Agrees r r') (hquiet : μ.quiet = false) {image : Image} (hr : r = .ok image) :
    r' = .ok image := by
  subst hr
  cases h with
  | image m => rw [lines, hquiet, if_neg Bool.false_ne_true]

/-- With lines, an error is the same unless it is that of the entry. -/
theorem eq_error (h : μ.Agrees r r') (hquiet : μ.quiet = false) {e : CompileError}
    (hr : r = .error (.error e)) (hkind : ∀ index, e.kind ≠ .entryNotCode index) :
    r' = .error (.error e) := by
  subst hr
  cases h with
  | error e =>
    obtain ⟨kind, l⟩ := e
    rw [line, hquiet, if_neg Bool.false_ne_true]
    cases kind with
    | entryNotCode index => exact absurd rfl (hkind index)
    | _ => rfl

end Mirror.Agrees

/-- **Compilations that mirror each other come to the same result.** -/
theorem compile_mirrors {μ : Mirror} {p q : Program} {config config' : Config}
    (h : (Job.new p config).Mirrors μ (Job.new q config')) :
    μ.Agrees (compile p config) (compile q config') := by
  have hrun := (Session.Mirrors.start h).run h
  rw [compile, compile]
  generalize (Session.start (Job.new p config)).run (Job.new p config) = x,
    (Session.start (Job.new q config')).run (Job.new q config') = y at hrun ⊢
  cases hrun with
  | @done _ s t hst =>
    obtain ⟨owners, hst⟩ := hst
    have hfinish : t.finish = { s.finish with lines := μ.lines s.finish.lines } := by
      rw [Session.finish, hst.stream.code, hst.pool, hst.stream.lines]
      rfl
    dsimp only
    rw [hfinish]
    exact .image s.finish
  | @failed e s t hlines =>
    have hline : (μ.line e.line).or t.lastLine? = μ.line (e.line.or s.lastLine?) := by
      rw [μ.line_or, Session.lastLine?, Stream.lastLine?, hlines, μ.lastLine?_lines]
      rfl
    dsimp only [CompileError.orLine]
    rw [hline]
    exact .error ⟨e.kind, e.line.or s.lastLine?⟩
  | fault c => exact .fault _ c

end RegisterBytecode
