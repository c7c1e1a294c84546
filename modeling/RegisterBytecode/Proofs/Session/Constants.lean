import RegisterBytecode.Proofs.Session.Layout

/-!
# Compiling one constant

Compiling a constant has three effects, which `Session.Adds` states together: the order of
constants grows by what the constant asks for, the stream gets one more segment if the constant is
a body, and nothing else of the session changes. What comes out is the entry that the layout
determines (`Job.entryOf?`).

The statement for bodies is `Session.adds_of_compileBody`, the one for constants
`Session.adds_of_compileConstant`. That a constant is no fault needs only properties of the
constant itself (`Session.compileConstant_ne_fault`).
-/

namespace RegisterBytecode

/-- Every register of an instruction that is emitted has a home. -/
theorem Frame.operand_home_of_mem_lined {b : Body} {f : Frame} (h : Frame.allocate b = .ok f)
    {x : Instr × Nat} (hx : x ∈ b.lined) {r : Reg} (hr : r ∈ x.1.regs) :
    f.operand r = .ok (f.home r) :=
  Frame.operand_home h (List.mem_flatMap.2 ⟨x.1, Body.mem_code_of_mem_lined hx, hr⟩)

/-- The last element of an array can be replaced. -/
theorem setIfInBounds_push_size {α : Type} (xs : Array α) (a b : α) :
    (xs.push a).setIfInBounds xs.size b = xs.push b := by
  apply Array.toList_inj.1
  rw [Array.toList_setIfInBounds, Array.toList_push, Array.toList_push, ← Array.length_toList,
    List.set_append_right _ _ (Nat.le_refl _), Nat.sub_self]
  rfl

/-- Only a captured upvalue makes the choice of storage a fault. -/
theorem Frame.allocate_ne_fault {b : Body} (h : ∀ r ∈ b.captured, r.isUpval = false) (f : Fault) :
    Frame.allocate b ≠ .error (.fault f) := by
  intro ha
  have hend := ending_allocate b
  rw [ha] at hend
  cases hend with
  | capturedUpvalue hr hup =>
    rw [h _ hr] at hup
    cases hup

namespace Job

/-- The segment of a constant: there is one for a body for which storage can be chosen. -/
def segment? (job : Job) (c : ConstIndex) : Option Segment :=
  match job.program.get? c with
  | some (.code body) =>
    match Frame.allocate body with
    | .ok frame => some ⟨body, frame⟩
    | .error _ => none
  | _ => none

/-- The constants that a constant asks for, in order. -/
def wantsOf (job : Job) (c : ConstIndex) : List ConstIndex :=
  match job.program.get? c with
  | some (.code body) => body.code.toList.flatMap job.wants
  | _ => []

/-- What is announced of a segment that stands behind others. -/
def functionOf (job : Job) (order : List ConstIndex) (gs : List Segment) (g : Segment) :
    Function where
  name := g.body.name
  range := job.place order gs gs.length g
  registers := g.frame.registers
  cells := g.frame.cells
  upvalues := g.frame.upvalues
  upvalueNames := g.body.upvalueNames

/-- The pool entry of a constant that is compiled behind segments. -/
def entryOf? (job : Job) (order : List ConstIndex) (gs : List Segment) (c : ConstIndex) :
    Option Entry :=
  match job.program.get? c with
  | none => none
  | some .nil => some .nil
  | some (.bool b) => some (.bool b)
  | some (.int n) => some (.int n)
  | some (.float bits) => some (.float bits)
  | some (.str t) => some (.str t)
  | some (.code _) => (job.segment? c).map fun g ↦ .function (job.functionOf order gs g)

/-- Nothing is wrong with a constant: it is in the table and, if it is a body, captures none of its
upvalues, binds no label twice and demands only what there is. -/
def Compilable (job : Job) (c : ConstIndex) : Prop :=
  ∃ k, job.program.get? c = some k ∧ ∀ body, k = .code body →
    (∀ r ∈ body.captured, r.isUpval = false) ∧ body.UniqueLabels ∧
      ∀ i ∈ body.code.toList, ∃ d, job.demand i = .ok d

variable {job : Job} {order fresh : List ConstIndex} {gs : List Segment} {c : ConstIndex}

/-- A constant has a segment exactly if it is a body with storage. -/
theorem segment?_eq_some_iff {g : Segment} :
    job.segment? c = some g ↔
      job.program.get? c = some (.code g.body) ∧ Frame.allocate g.body = .ok g.frame := by
  unfold segment?
  split
  · next body hc =>
    rw [hc]
    split
    · next frame hf =>
      constructor
      · intro h
        obtain rfl := Option.some.inj h
        exact ⟨rfl, hf⟩
      · rintro ⟨hbody, hframe⟩
        obtain rfl := Constant.code.inj (Option.some.inj hbody)
        obtain rfl := Except.ok.inj (hf.symm.trans hframe)
        rfl
    · next e hf =>
      refine ⟨nofun, ?_⟩
      rintro ⟨hbody, hframe⟩
      obtain rfl := Constant.code.inj (Option.some.inj hbody)
      rw [hf] at hframe
      cases hframe
  · next hc =>
    refine ⟨nofun, fun h ↦ absurd h.1 (hc g.body)⟩

/-- An entry is a compiled body exactly if it is that of a segment. -/
theorem entryOf?_eq_function_iff {f : Function} :
    job.entryOf? order gs c = some (.function f) ↔
      ∃ g, job.segment? c = some g ∧ f = job.functionOf order gs g := by
  constructor
  · intro h
    unfold entryOf? at h
    split at h
    case h_7 =>
      obtain ⟨g, hg, hf⟩ := Option.map_eq_some_iff.1 h
      exact ⟨g, hg, (Entry.function.inj hf).symm⟩
    all_goals cases h
  · rintro ⟨g, hg, rfl⟩
    rw [entryOf?, (segment?_eq_some_iff.1 hg).1]
    dsimp only
    rw [hg, Option.map_some]

/-- The entry of a constant stays what it is when more constants are asked for. -/
theorem entryOf?_append_order (h : ∀ g ∈ gs, job.Sound order g)
    (hc : ∀ g, job.segment? c = some g → job.Sound order g) :
    job.entryOf? (order ++ fresh) gs c = job.entryOf? order gs c := by
  unfold entryOf?
  split
  case h_7 =>
    cases hg : job.segment? c with
    | none => rfl
    | some g =>
      rw [Option.map_some, Option.map_some, functionOf, functionOf,
        place_append_order h (hc g hg)]
  all_goals rfl

end Job

namespace Session

/-- From `s` to `t`, the constants `wanted` have been asked for and the segments `new` have been
laid behind others; the order of constants has grown by `fresh`. -/
structure Adds (job : Job) (order : List ConstIndex) (gs : List Segment)
    (wanted : List ConstIndex) (new : List Segment) (s : Session) (fresh : List ConstIndex)
    (t : Session) : Prop where
  asked : wanted.foldl reserve order = order ++ fresh
  reserved : t.Reserved job (order ++ fresh)
  pending : t.pending.toList = s.pending.toList ++ fresh
  pool : t.pool = s.pool
  laid : job.Laid (order ++ fresh) (gs ++ new) t.stream t.ranges

section Adds

variable {job : Job} {order : List ConstIndex} {gs : List Segment} {s t : Session}

/-- A constant that is no body leaves the session as it is. -/
theorem Adds.refl (hs : s.Reserved job order) (hl : job.Laid order gs s.stream s.ranges) :
    Adds job order gs [] [] s [] s where
  asked := (List.append_nil _).symm
  reserved := by rwa [List.append_nil]
  pending := (List.append_nil _).symm
  pool := rfl
  laid := by rwa [List.append_nil, List.append_nil]

/-- Under the ordinal of the next body no label is bound. -/
theorem labels_next_eq_none (hl : job.Laid order gs s.stream s.ranges) (l : Label) :
    s.stream.labels[(s.ranges.size, l)]? = none := by
  cases ho : s.stream.labels[(s.ranges.size, l)]? with
  | none => rfl
  | some o =>
    obtain ⟨g, -, hg, -⟩ := hl.bound _ l o ho
    have := (List.getElem?_eq_some_iff.1 hg).1
    rw [hl.size] at this
    exact absurd this (Nat.lt_irrefl _)

theorem padLabel_eq (s : Session) : s.padLabel = { s with stream := s.stream.pad } := by
  unfold padLabel Stream.pad
  split <;> rfl

/-- A body is compiled by emitting its instructions behind an empty range that is completed
afterwards. -/
theorem compileBody_eq_done {body : Body} {frame : Frame} {f : Function}
    (h : s.compileBody job body frame = .done f t) :
    ∃ s', emitAll job frame s.ranges.size body.lined
        { s with ranges := s.ranges.push ⟨s.stream.code.size, s.stream.code.size⟩ } = .done () s' ∧
      f.range = ⟨s.stream.code.size, s'.stream.pad.code.size⟩ ∧
      f = ⟨body.name, f.range, frame.registers, frame.cells, frame.upvalues, body.upvalueNames⟩ ∧
      t = { s' with
        stream := s'.stream.pad
        ranges := s'.ranges.setIfInBounds s.ranges.size f.range } := by
  unfold compileBody at h
  obtain ⟨v, s', hemit, h⟩ := Outcome.bind_eq_done h
  rw [padLabel_eq] at h
  cases h
  exact ⟨s', hemit, rfl, rfl, rfl⟩

/-- **Compiling a body lays its segment**, and announces it as the layout has it. -/
theorem adds_of_compileBody {body : Body} {frame : Frame} {f : Function}
    (hs : s.Reserved job order) (hl : job.Laid order gs s.stream s.ranges)
    (ha : Frame.allocate body = .ok frame) (h : s.compileBody job body frame = .done f t) :
    ∃ fresh, Adds job order gs (body.code.toList.flatMap job.wants) [⟨body, frame⟩] s fresh t ∧
      f = job.functionOf (order ++ fresh) gs ⟨body, frame⟩ := by
  obtain ⟨s', hemit, hrange, hf, rfl⟩ := compileBody_eq_done h
  have hs₀ : Reserved job
      { s with ranges := s.ranges.push ⟨s.stream.code.size, s.stream.code.size⟩ } order :=
    hs.of_slots_eq rfl
  obtain ⟨fresh, he⟩ :=
    emits_of_emitAll hs₀ (fun _ hx _ ↦ Frame.operand_home_of_mem_lined ha hx) hemit
  have hasked := he.asked
  have hnodup := he.nodup
  rw [body.map_fst_lined] at hasked hnodup
  have hsound : job.Sound (order ++ fresh) ⟨body, frame⟩ := by
    refine ⟨ha, Body.uniqueLabels_iff_nodup.2 hnodup, fun i hi ↦ ?_⟩
    obtain ⟨x, hx, rfl⟩ := List.mem_map.1 (body.map_fst_lined.symm ▸ hi)
    exact he.supplied x hx
  have hlaid := hl.append_order.concat hsound
  -- the stream has grown by exactly the operations of the segment
  have hstream : s'.stream.pad =
      (s.stream.lay (job.ops (slotOf (order ++ fresh)) frame.home) gs.length body.lined).pad := by
    rw [he.stream, hl.size]
  -- the noted end is the end of the stream, and that is where the next segment would start
  have hplace : f.range = job.place (order ++ fresh) gs gs.length ⟨body, frame⟩ := by
    have hend := hlaid.offset_eq
    rw [← hstream, List.length_append, List.length_singleton, Job.start, List.take_of_length_le
      (Nat.le_of_eq (by rw [List.length_append, List.length_singleton])), List.flatMap_append,
      Op.total_append, List.flatMap_singleton] at hend
    rw [hrange, hend, hl.append_order.offset_eq, Job.place, Job.start, List.take_length]
  have hranges : s'.ranges.setIfInBounds s.ranges.size f.range =
      s.ranges.push (job.place (order ++ fresh) gs gs.length ⟨body, frame⟩) := by
    rw [he.reserves.ranges, hplace, setIfInBounds_push_size]
  refine ⟨fresh, ⟨hasked, he.reserved.of_slots_eq rfl, he.reserves.pending, he.reserves.pool, ?_⟩,
    ?_⟩
  · show job.Laid _ _ s'.stream.pad (s'.ranges.setIfInBounds s.ranges.size f.range)
    rw [hranges, hstream]
    exact hlaid
  · rw [hf, hplace]
    rfl

/-- **Compiling a constant** asks for what it wants, lays its segment if it has one, and gives the
entry that the layout determines. -/
theorem adds_of_compileConstant {c : ConstIndex} {entry : Entry} (hs : s.Reserved job order)
    (hl : job.Laid order gs s.stream s.ranges) (h : s.compileConstant job c = .done entry t) :
    ∃ fresh, Adds job order gs (job.wantsOf c) (job.segment? c).toList s fresh t ∧
      job.entryOf? (order ++ fresh) gs c = some entry := by
  unfold compileConstant at h
  unfold Job.wantsOf Job.entryOf? Job.segment?
  split at h
  case h_7 body hc =>
    rw [hc]
    dsimp only
    split at h
    · next stop ha =>
      cases stop <;> cases h
    · next frame ha =>
      obtain ⟨f, t', hbody, h⟩ := Outcome.bind_eq_done h
      cases h
      obtain ⟨fresh, hadds, rfl⟩ := adds_of_compileBody hs hl ha hbody
      rw [ha]
      exact ⟨fresh, hadds, rfl⟩
  case h_1 => cases h
  all_goals
    next hc =>
    cases h
    rw [hc]
    exact ⟨[], .refl hs hl, rfl⟩

/-! ### Faults -/

/-- A body with storage is no fault if it binds no label twice and demands only what there is. -/
theorem compileBody_ne_fault {body : Body} {frame : Frame} (hs : s.Reserved job order)
    (hl : job.Laid order gs s.stream s.ranges) (ha : Frame.allocate body = .ok frame)
    (hu : body.UniqueLabels) (hd : ∀ i ∈ body.code.toList, ∃ d, job.demand i = .ok d) (f : Fault) :
    s.compileBody job body frame ≠ .fault f := by
  have hs₀ : Reserved job
      { s with ranges := s.ranges.push ⟨s.stream.code.size, s.stream.code.size⟩ } order :=
    hs.of_slots_eq rfl
  have hnodup : ((body.lined.map Prod.fst).filterMap Instr.binds?).Nodup := by
    rw [body.map_fst_lined]
    exact Body.uniqueLabels_iff_nodup.1 hu
  have hemit := emitAll_ne_fault hs₀ (fun x hx ↦ hd x.1 (Body.mem_code_of_mem_lined hx))
    (fun _ hx _ ↦ Frame.operand_home_of_mem_lined ha hx) hnodup
    fun l _ ↦ labels_next_eq_none hl l
  unfold compileBody
  refine Outcome.bind_ne_fault hemit (fun _ _ _ g ↦ ?_) f
  nofun

/-- **A constant that can be compiled is no fault.** -/
theorem compileConstant_ne_fault {c : ConstIndex} (hs : s.Reserved job order)
    (hl : job.Laid order gs s.stream s.ranges) (hc : job.Compilable c) (f : Fault) :
    s.compileConstant job c ≠ .fault f := by
  obtain ⟨k, hk, hbody⟩ := hc
  unfold compileConstant
  rw [hk]
  cases k with
  | code body =>
    obtain ⟨hcaptured, hu, hd⟩ := hbody body rfl
    dsimp only
    split
    · next stop ha =>
      cases stop with
      | error e => nofun
      | fault g => exact absurd ha (Frame.allocate_ne_fault hcaptured g)
    · next frame ha =>
      refine Outcome.bind_ne_fault (compileBody_ne_fault hs hl ha hu hd) (fun _ _ _ g ↦ ?_) f
      nofun
  | _ => nofun

end Adds

end Session

end RegisterBytecode
