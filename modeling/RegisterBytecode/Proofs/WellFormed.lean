import RegisterBytecode.Proofs.Session.Finished

/-!
# Faults are defects of reachable bodies

A body is well-formed if its labels, its jumps, its captured registers and what its instructions
name are in order (`Body.WellFormed`). A body is reachable if it is the entry, or if a reachable
body loads it or makes a closure of it (`Program.Reaches`). The main theorem ties faults to the two:
if all reachable bodies are well-formed, no compilation ends in a fault, and if a compilation
succeeds, all reachable bodies are well-formed.

For the first half every constant that a session asks for is reachable (`Program.reaches_of_asks`),
and every jump finds its label (`Job.Laid.resolve_ne_fault`). For the second half every reachable
body is among the constants of a finished image (`Session.Finished.mem_of_reaches`), and an image is
only finished when every one of its jumps found its label.
-/

namespace RegisterBytecode

/-- The constant that an instruction names. -/
def Instr.constant? : Instr → Option ConstIndex
  | .load _ index => some index
  | .closure _ index _ => some index
  | _ => none

/-- The bodies that can be reached from the entry, with their indices. -/
inductive Program.Reaches (p : Program) : ConstIndex → Body → Prop
  | entry {body : Body} (h : p.get? p.entry = some (.code body)) : p.Reaches p.entry body
  | step {c d : ConstIndex} {body next : Body} {i : Instr} (hc : p.Reaches c body)
      (hi : i ∈ body.code.toList) (hd : i.constant? = some d) (h : p.get? d = some (.code next)) :
      p.Reaches d next

/-- What an instruction names is there: a constant that it loads is in the table, one that it makes
a closure of is a body, and an index into a variadic tail fits its byte. -/
def Instr.WellFormed (p : Program) : Instr → Prop
  | .load _ index => ∃ c, p.get? index = some c
  | .closure _ index _ => ∃ body, p.get? index = some (.code body)
  | .etcLookup _ _ index => index < 256
  | .fillTable _ _ start => start < 256
  | _ => True

/-- A body is well-formed in a program. -/
structure Body.WellFormed (p : Program) (b : Body) : Prop where
  /-- Every label is bound at most once. -/
  labels : b.UniqueLabels
  /-- Every jump leads to a label of the body. -/
  targets : ∀ i ∈ b.code.toList, ∀ l, i.target? = some l → ∃ k, b.BindsAt k l
  instrs : ∀ i ∈ b.code.toList, i.WellFormed p
  /-- No upvalue is declared as a captured local. -/
  captured : ∀ r ∈ b.captured, r.isUpval = false

/-! ### Demands -/

namespace Job

variable {job : Job} {i : Instr} {d : ConstIndex}

theorem exists_checkTail_iff {index : Nat} : (∃ d, checkTail index = .ok d) ↔ index < 256 := by
  constructor
  · rintro ⟨d, hd⟩
    exact (checkTail_eq_ok hd).1
  · intro hlt
    exact ⟨none, if_pos hlt⟩

/-- What an instruction demands is there exactly if the instruction is well-formed. -/
theorem exists_demand_iff : (∃ d, job.demand i = .ok d) ↔ i.WellFormed job.program := by
  cases i with
  | load dst index =>
    constructor
    · rintro ⟨d, hd⟩
      obtain ⟨c, hc, -⟩ := demand_load_eq_ok hd
      exact ⟨c, hc⟩
    · rintro ⟨c, hc⟩
      exact ⟨_, by rw [demand, hc]⟩
  | closure dst index captures =>
    constructor
    · rintro ⟨d, hd⟩
      exact (demand_closure_eq_ok hd).1
    · rintro ⟨body, hbody⟩
      exact ⟨_, by rw [demand, hbody]⟩
  | etcLookup dst etc index => exact exists_checkTail_iff
  | fillTable table etc start => exact exists_checkTail_iff
  | _ => exact ⟨fun _ ↦ trivial, fun _ ↦ ⟨none, rfl⟩⟩

/-- An instruction demands nothing but the constant it names, and only if that is in the table. -/
theorem constant?_of_demand (h : job.demand i = .ok (some d)) :
    i.constant? = some d ∧ ∃ c, job.program.get? d = some c := by
  cases i with
  | load dst index =>
    obtain ⟨c, hc, hd⟩ := demand_load_eq_ok h
    split at hd
    · cases hd
    · obtain rfl := Option.some.inj hd
      exact ⟨rfl, c, hc⟩
  | closure dst index captures =>
    obtain ⟨⟨body, hc⟩, hd⟩ := demand_closure_eq_ok h
    obtain rfl := Option.some.inj hd
    exact ⟨rfl, _, hc⟩
  | etcLookup dst etc index => cases (checkTail_eq_ok h).2
  | fillTable table etc start => cases (checkTail_eq_ok h).2
  | _ => cases h

/-- A body that an instruction names is never carried inside the instruction. -/
theorem demand_of_constant? {body : Body} (h : i.constant? = some d)
    (hd : job.program.get? d = some (.code body)) : job.demand i = .ok (some d) := by
  cases i with
  | load dst index =>
    obtain rfl := Option.some.inj h
    rw [demand, hd]
    rfl
  | closure dst index captures =>
    obtain rfl := Option.some.inj h
    rw [demand, hd]
  | _ => cases h

end Job

/-! ### Jumps of segments -/

namespace Chunk

/-- The patches of chunks are those of their holes. -/
theorem exists_mem_patches_iff (pos : Nat) {cs : List Chunk} {body : Nat} {l : Label} :
    (∃ p ∈ patches pos cs, p.body = body ∧ p.label = l) ↔ hole body l ∈ cs := by
  induction cs generalizing pos with
  | nil => simp [patches]
  | cons c cs ih =>
    cases c with
    | raw bytes =>
      rw [patches, ih, List.mem_cons]
      simp
    | hole b m =>
      rw [patches, List.mem_cons, Chunk.hole.injEq, ← ih (pos + 4)]
      constructor
      · rintro ⟨p, hp, rfl, rfl⟩
        rcases List.mem_cons.1 hp with rfl | hp
        · exact Or.inl ⟨rfl, rfl⟩
        · exact Or.inr ⟨p, hp, rfl, rfl⟩
      · rintro (⟨rfl, rfl⟩ | ⟨p, hp, hb, hl⟩)
        · exact ⟨_, List.mem_cons_self, rfl, rfl⟩
        · exact ⟨p, List.mem_cons_of_mem _ hp, hb, hl⟩

end Chunk

/-- An operation has a hole exactly if it leads to a label, and then under the ordinal of its body.
-/
theorem Op.hole_mem_chunks_iff {op : Op Operand} {n body : Nat} {l : Label} :
    Chunk.hole n l ∈ op.chunks body ↔ n = body ∧ op.immediate = .target l := by
  rw [Op.chunks, List.mem_cons]
  cases op.immediate with
  | target m => simp [Immediate.chunks, eq_comm (a := l)]
  | _ => simp [Immediate.chunks]

namespace Job

variable {job : Job} {order : List ConstIndex} {gs : List Segment} {n : Nat} {l : Label}

/-- **The holes of a layout** are the jumps of its segments. -/
theorem hole_mem_chunks_iff :
    Chunk.hole n l ∈ job.chunks order gs ↔
      ∃ g, gs[n]? = some g ∧ ∃ i ∈ g.body.code.toList, i.target? = some l := by
  simp only [chunks, List.mem_flatMap, Prod.exists, List.mk_mem_zipIdx_iff_getElem?,
    Op.hole_mem_chunks_iff]
  constructor
  · rintro ⟨g, m, hg, op, hop, rfl, himm⟩
    refine ⟨g, hg, ?_⟩
    rcases mem_segmentOps hop with ⟨i, hi, hop⟩ | rfl
    · obtain ⟨op', hop', rfl⟩ := List.mem_map.1 hop
      exact ⟨i, hi, target?_of_mem_lower hop' himm⟩
    · cases himm
  · rintro ⟨g, hg, i, hi, ht⟩
    obtain ⟨op, hop, himm⟩ := job.ops_of_target? (slotOf order) g.frame.home ht
    refine ⟨g, n, hg, op, List.mem_append_left _ (List.mem_flatMap.2 ⟨i, hi, ?_⟩), rfl, himm⟩
    rw [hop]
    exact List.mem_singleton_self op

/-- **Jumps that find their labels are no fault**: a label stands within its segment. -/
theorem Laid.resolve_ne_fault {st : Stream} {ranges : Array Range}
    (h : job.Laid order gs st ranges)
    (ht : ∀ g ∈ gs, ∀ i ∈ g.body.code.toList, ∀ l, i.target? = some l → ∃ k, g.body.BindsAt k l)
    (f : Fault) : st.resolve ranges ≠ .fault f := by
  rw [Stream.resolve, h.lays.patches]
  refine Stream.patchAll_ne_fault (fun p hp ↦ ?_) f
  have hhole : Chunk.hole p.body p.label ∈ job.chunks order gs :=
    (Chunk.exists_mem_patches_iff 0).1 ⟨p, hp, rfl, rfl⟩
  obtain ⟨g, hg, i, hi, htarget⟩ := hole_mem_chunks_iff.1 hhole
  obtain ⟨k, hk⟩ := ht g (List.mem_of_getElem? hg) i hi p.label htarget
  refine ⟨_, h.labels p.body g k p.label hg hk, ?_⟩
  rw [h.ranges p.body g hg, Option.any_some, Range.contains, Bool.and_eq_true, decide_eq_true_eq,
    decide_eq_true_eq]
  exact ⟨Nat.le_add_right _ _, instrOffset_lt hk⟩

end Job

/-! ### No fault without a defect -/

theorem Program.Reaches.get? {p : Program} {c : ConstIndex} {body : Body}
    (h : p.Reaches c body) : p.get? c = some (.code body) := by
  cases h with
  | entry h => exact h
  | step _ _ _ h => exact h

/-- **Everything that is asked for is reachable**, as far as it is a body. -/
theorem Program.reaches_of_asks {job : Job} {main : Body}
    (hentry : job.program.get? job.program.entry = some (.code main)) {c : ConstIndex}
    (h : Relation.ReflTransGen job.Asks job.program.entry c) :
    ∃ k, job.program.get? c = some k ∧ ∀ body, k = .code body → job.program.Reaches c body := by
  induction h with
  | refl =>
    refine ⟨_, hentry, ?_⟩
    rintro body ⟨⟩
    exact .entry hentry
  | @tail c d _ hask ih =>
    obtain ⟨k, hk, hreach⟩ := ih
    unfold Job.Asks Job.wantsOf at hask
    rw [hk] at hask
    -- only a body asks for anything, and it does so through an instruction that names it
    cases k with
    | code body =>
      obtain ⟨i, hi, hwant⟩ := List.mem_flatMap.1 hask
      unfold Job.wants at hwant
      split at hwant
      · next e he =>
        obtain rfl := Option.mem_toList.1 hwant
        obtain ⟨hname, k, hk⟩ := Job.constant?_of_demand he
        refine ⟨k, hk, ?_⟩
        rintro next rfl
        exact .step (hreach body rfl) hi hname hk
      · cases hwant
    | _ => cases hask

/-- A constant that is asked for can be compiled if all reachable bodies are well-formed. -/
theorem Job.compilable_of_asks {job : Job} {main : Body}
    (hentry : job.program.get? job.program.entry = some (.code main))
    (h : ∀ c body, job.program.Reaches c body → body.WellFormed job.program) {c : ConstIndex}
    (hc : Relation.ReflTransGen job.Asks job.program.entry c) : job.Compilable c := by
  obtain ⟨k, hk, hreach⟩ := Program.reaches_of_asks hentry hc
  refine ⟨k, hk, fun body hbody ↦ ?_⟩
  have hwf := h c body (hreach body hbody)
  exact ⟨hwf.captured, hwf.labels, fun i hi ↦ Job.exists_demand_iff.2 (hwf.instrs i hi)⟩

/-- The segments of well-formed bodies have no jump without a label. -/
theorem Session.Built.resolve_ne_fault {job : Job} {order : List ConstIndex} {s : Session}
    {main : Body} (hentry : job.program.get? job.program.entry = some (.code main))
    (h : ∀ c body, job.program.Reaches c body → body.WellFormed job.program)
    (hs : s.Built job order order []) (f : Fault) : s.resolve ≠ .fault f := by
  have hstream : ∀ f, s.stream.resolve s.ranges ≠ .fault f := by
    refine hs.laid.resolve_ne_fault fun g hg ↦ ?_
    obtain ⟨c, hc, hseg⟩ := List.mem_filterMap.1 hg
    obtain ⟨k, hk, hreach⟩ := Program.reaches_of_asks hentry (hs.reached c hc)
    obtain ⟨hbody, -⟩ := Job.segment?_eq_some_iff.1 hseg
    have hwf := h c g.body (hreach g.body (Option.some.inj (hk.symm.trans hbody)))
    exact hwf.targets
  unfold Session.resolve
  split
  · nofun
  · nofun
  · next g hg => exact absurd hg (hstream g)

/-! ### Success without a defect -/

namespace Session.Finished

variable {job : Job} {order : List ConstIndex} {s : Session} {m : Image} {c : ConstIndex}
  {body : Body}

/-- A body among the constants of a finished image has its segment. -/
theorem exists_sound (h : Finished job order s m) (hc : c ∈ order)
    (hbody : job.program.get? c = some (.code body)) :
    ∃ (n : Nat) (g : Segment), (job.segments order)[n]? = some g ∧ g.body = body ∧
      job.Sound order g := by
  obtain ⟨frame, hframe, hsound⟩ := h.built.exists_sound hc hbody
  have hseg : job.segment? c = some ⟨body, frame⟩ :=
    Job.segment?_eq_some_iff.2 ⟨hbody, hframe⟩
  obtain ⟨k, hk⟩ := List.mem_iff_getElem?.1 hc
  exact ⟨_, _, Job.getElem?_segments hk hseg, rfl, hsound⟩

/-- **Every reachable body is among the constants** of a finished image. -/
theorem mem_of_reaches (h : Finished job order s m) (hc : job.program.Reaches c body) :
    c ∈ order := by
  induction hc with
  | entry => exact List.mem_of_getElem? h.holds.first
  | @step c d body next i hreach hi hname hnext ih =>
    obtain ⟨n, g, -, rfl, hsound⟩ := h.exists_sound ih hreach.get?
    obtain ⟨e, he, hmem⟩ := hsound.supplied i hi
    rw [Job.demand_of_constant? hname hnext] at he
    exact hmem d (by rw [← Except.ok.inj he]; rfl)

/-- **Bodies of a finished image are well-formed.** -/
theorem wellFormed (h : Finished job order s m) (hc : job.program.Reaches c body) :
    body.WellFormed job.program := by
  obtain ⟨n, g, hn, rfl, hsound⟩ := h.exists_sound (h.mem_of_reaches hc) hc.get?
  refine ⟨hsound.unique, ?_, ?_, (Frame.allocate_eq_ok hsound.allocated).1⟩
  · -- a jump leaves a hole; what filled it is a label bound under the ordinal of its own segment
    intro i hi l ht
    have hhole : Chunk.hole n l ∈ job.chunks order (job.segments order) :=
      Job.hole_mem_chunks_iff.2 ⟨g, hn, i, hi, ht⟩
    obtain ⟨p, hp, rfl, rfl⟩ := (Chunk.exists_mem_patches_iff 0).2 hhole
    obtain ⟨target, -, hlabel, -, -⟩ := h.resolved p hp
    obtain ⟨g', k, hg', hk⟩ := h.built.laid.bound _ _ _ hlabel
    obtain rfl : g = g' := Option.some.inj (hn.symm.trans hg')
    exact ⟨k, hk⟩
  · intro i hi
    obtain ⟨d, hd, -⟩ := hsound.supplied i hi
    exact Job.exists_demand_iff.1 ⟨d, hd⟩

end Session.Finished

/-! ### The main theorem -/

/-- **Faults are defects of reachable bodies.** If every reachable body is well-formed, a
compilation ends with an image or with a capacity that is exceeded, never with a fault; if it ends
with an image, every reachable body is well-formed. -/
theorem compile_ne_fault_and_wellFormed (program : Program) (config : Config) :
    ((∀ c body, program.Reaches c body → body.WellFormed program) →
        (∃ image, compile program config = .ok image) ∨
          ∃ e, compile program config = .error (.error e)) ∧
      ((∃ image, compile program config = .ok image) →
        ∀ c body, program.Reaches c body → body.WellFormed program) := by
  constructor
  · intro h
    have hrun : ∀ f, (Session.start (Job.new program config)).run (Job.new program config) ≠
        .fault f :=
      Session.run_ne_fault (fun _ hentry _ hc ↦ Job.compilable_of_asks hentry h hc)
        fun _ hentry _ _ hs ↦ hs.resolve_ne_fault hentry h
    unfold compile
    dsimp only
    split
    · exact Or.inl ⟨_, rfl⟩
    · exact Or.inr ⟨_, rfl⟩
    · next f hf => exact absurd hf (hrun f)
  · rintro ⟨image, himage⟩ c body hc
    obtain ⟨order, s, hfin⟩ := compile_eq_ok himage
    exact hfin.wellFormed hc

/-- A program whose only malformed body, a jump to nowhere, cannot be reached. -/
def Program.deadDefect : Program where
  constants := #[
    .code { name := "main", code := #[.closure (.loc 0) 1 [], .label 0, .jump 0] },
    .code { name := "callee", code := #[.load (.loc 0) 0, .label 0] },
    .code { name := "dead", code := #[.jump 9] }]

/-- Success under one configuration shows that there is no defect, and so there is no fault under
another one, which the program may exceed. -/
theorem compile_ne_fault_deadDefect :
    (∀ c body, Program.deadDefect.Reaches c body → body.WellFormed Program.deadDefect) ∧
      ((∃ image, compile Program.deadDefect { maxConstants := 1 } = .ok image) ∨
        ∃ e, compile Program.deadDefect { maxConstants := 1 } = .error (.error e)) := by
  have hok : (compile Program.deadDefect {}).isOk = true := by decide +kernel
  have himage : ∃ image, compile Program.deadDefect {} = .ok image := by
    cases hc : compile Program.deadDefect {} with
    | ok image => exact ⟨image, rfl⟩
    | error stop =>
      rw [hc] at hok
      cases hok
  have hwf := (compile_ne_fault_and_wellFormed Program.deadDefect {}).2 himage
  exact ⟨hwf, (compile_ne_fault_and_wellFormed Program.deadDefect { maxConstants := 1 }).1 hwf⟩

end RegisterBytecode
