import RegisterBytecode.Proofs.Disassembly

/-!
# The pool limit is a threshold

A compilation that succeeds with all the room that the encoding allows needs a certain number of
slots. With a lower limit nothing else can happen than that there are enough slots, and then the
image is the same, or that there are not, and then a request is refused.

The proof runs a compilation twice, once with more room and once with less. A step of the one and
the same step of the other are **in step** (`Session.InStep`): as long as the slots fit the lower
limit both leave the same session, and otherwise the second has been refused. Only a request tells
the two apart (`Session.inStep_request`); everything else follows from the fact that steps in step
compose (`Session.InStep.bind`), which needs that no step gives a slot back.
-/

namespace RegisterBytecode

/-! ### Jobs that differ in their limits -/

/-- Two jobs that ask for the same constants and lower instructions in the same way. Their limits of
the pool may differ. -/
structure Job.Alike (narrow wide : Job) : Prop where
  program : narrow.program = wide.program
  inline : narrow.config.inline? = wide.config.inline?

namespace Job.Alike

variable {narrow wide : Job}

/-- What an instruction demands does not depend on the limit. -/
theorem demand_eq (h : narrow.Alike wide) : narrow.demand = wide.demand := by
  funext i
  cases i with
  | load dst index => rw [demand, demand, h.program, h.inline]
  | closure dst index captures => rw [demand, demand, h.program]
  | _ => rfl

/-- The operations of an instruction depend on slots, but not on the limit. -/
theorem lower_eq (h : narrow.Alike wide) (slot : ConstIndex → UInt16) :
    narrow.lower slot = wide.lower slot := by
  funext i
  cases i with
  | load dst index => rw [lower, lower, h.program, h.inline]
  | _ => rfl

end Job.Alike

/-- Jobs that differ in their limits are alike. -/
theorem Job.alike_new (program : Program) (config : Config) (m n : Nat) :
    (Job.new program { config with maxConstants := m }).Alike
      (Job.new program { config with maxConstants := n }) where
  program := rfl
  inline := by
    funext c
    cases c <;> rfl

namespace Session

/-! ### Steps in step -/

/-- A step from `s` and the same step with room for `limit` slots: where the first ends with a
value, no slot has been given back; if all slots fit the limit the second ends in the same way, and
if they do not fit any longer it has been refused. -/
def InStep (limit : Nat) (s : Session) {α : Type} (wide narrow : Outcome Session α) : Prop :=
  ∀ a t, wide = .done a t → s.slots.size ≤ t.slots.size ∧
    (t.slots.size ≤ limit → narrow = .done a t) ∧
    (s.slots.size ≤ limit → limit < t.slots.size →
      ∃ u, narrow = .failed ⟨.constants limit, none⟩ u)

section InStep

variable {α β : Type} {limit : Nat} {s : Session} {narrow wide : Job}

/-- A step that asks for nothing is the same under every limit. -/
theorem InStep.of_slots_eq {r : Outcome Session α}
    (h : ∀ a t, r = .done a t → t.slots = s.slots) : InStep limit s r r := by
  intro a t hr
  rw [h a t hr]
  exact ⟨Nat.le_refl _, fun _ ↦ hr, fun hle hlt ↦ absurd hle (Nat.not_le.2 hlt)⟩

theorem InStep.done (a : α) {t : Session} (h : t.slots = s.slots) :
    InStep limit s (.done a t) (.done a t) :=
  .of_slots_eq fun _ _ hr ↦ (Outcome.done.inj hr).2 ▸ h

theorem InStep.failed (e : CompileError) (t : Session) {r : Outcome Session α} :
    InStep limit s (.failed e t) r :=
  nofun

theorem InStep.fault (f : Fault) {r : Outcome Session α} : InStep limit s (.fault f) r := nofun

/-- **Steps in step compose.** A step that was refused stays refused, since the slots that did not
fit are still there at the end. -/
theorem InStep.bind {w n : Outcome Session α} {kw kn : α → Session → Outcome Session β}
    (h : InStep limit s w n) (hk : ∀ a t, w = .done a t → InStep limit t (kw a t) (kn a t)) :
    InStep limit s (w.bind kw) (n.bind kn) := by
  intro b u hu
  obtain ⟨a, t, hw, hkw⟩ := Outcome.bind_eq_done hu
  obtain ⟨hst, hfit, hrefused⟩ := h a t hw
  obtain ⟨htu, hfit', hrefused'⟩ := hk a t hw b u hkw
  refine ⟨Nat.le_trans hst htu, fun hle ↦ ?_, fun hle hlt ↦ ?_⟩
  · rw [hfit (Nat.le_trans htu hle), Outcome.bind_done, hfit' hle]
  -- the narrow run is refused by the first step if that goes beyond the limit, else by the second
  · by_cases ht : t.slots.size ≤ limit
    · rw [hfit ht, Outcome.bind_done]
      exact hrefused' ht hlt
    · obtain ⟨v, hv⟩ := hrefused hle (Nat.not_le.1 ht)
      exact ⟨v, by rw [hv, Outcome.bind_failed]⟩

/-! ### One constant -/

/-- **A request** is where the two part: the one slot more may be one too many. -/
theorem inStep_request (narrow wide : Job) (c : ConstIndex) (s : Session) :
    InStep narrow.config.maxConstants s (s.request wide c) (s.request narrow c) := by
  rw [request, request]
  cases hslot : s.slots[c]? with
  | some slot => exact .done slot rfl
  | none =>
    intro v t ht
    dsimp only at ht ⊢
    split at ht
    · obtain ⟨rfl, rfl⟩ := Outcome.done.inj ht
      have hsize : (s.slots.insert c s.slots.size.toUInt16).size = s.slots.size + 1 := by
        rw [Std.TreeMap.size_insert, Std.TreeMap.contains_eq_isSome_getElem?, hslot]
        rfl
      dsimp only
      rw [hsize]
      -- the new size is in the limit exactly if the old one is below it, which is what is tested
      exact ⟨Nat.le_succ _, fun hle ↦ if_pos hle, fun _ hlt ↦
        ⟨s, if_neg (Nat.not_lt.2 (Nat.le_of_lt_succ hlt))⟩⟩
    · cases ht

theorem inStep_supply (h : narrow.Alike wide) (i : Instr) (s : Session) :
    InStep narrow.config.maxConstants s (s.supply wide i) (s.supply narrow i) := by
  rw [supply, supply, h.demand_eq]
  split
  · exact .fault _
  · exact .done () rfl
  · exact (inStep_request narrow wide _ s).bind fun _ t _ ↦ .done () rfl

/-- An instruction is emitted alike on both sides, but for its request. -/
theorem inStep_emitInstr (h : narrow.Alike wide) (frame : Frame) (ordinal line : Nat) (i : Instr)
    (s : Session) :
    InStep narrow.config.maxConstants s (s.emitInstr wide frame ordinal line i)
      (s.emitInstr narrow frame ordinal line i) := by
  rw [emitInstr, emitInstr]
  split
  · rw [Session.bind]
    split
    · exact .fault _
    · exact .done () rfl
  · refine InStep.bind (inStep_supply h i (s.setLine line)) fun _ t _ ↦ ?_
    rw [emitLowered, emitLowered, h.lower_eq]
    split
    · exact .fault _
    · exact .done () rfl

/-- Instructions are emitted in step, one after another. -/
theorem inStep_emitAll (h : narrow.Alike wide) (frame : Frame) (ordinal : Nat)
    (code : List (Instr × Nat)) (s : Session) :
    InStep narrow.config.maxConstants s (emitAll wide frame ordinal code s)
      (emitAll narrow frame ordinal code s) := by
  induction code generalizing s with
  | nil => exact .done () rfl
  | cons x code ih =>
    exact (inStep_emitInstr h frame ordinal x.2 x.1 s).bind fun _ t _ ↦ ih t

theorem slots_padLabel (s : Session) : s.padLabel.slots = s.slots := by
  rw [padLabel_eq]

/-- A body is compiled in step. -/
theorem inStep_compileBody (h : narrow.Alike wide) (body : Body) (frame : Frame) (s : Session) :
    InStep narrow.config.maxConstants s (s.compileBody wide body frame)
      (s.compileBody narrow body frame) := by
  rw [compileBody, compileBody]
  exact InStep.bind (inStep_emitAll h frame _ _ _) fun _ t _ ↦ .done _ (slots_padLabel t)

/-- A constant is compiled in step: storage does not depend on the limit. -/
theorem inStep_compileConstant (h : narrow.Alike wide) (c : ConstIndex) (s : Session) :
    InStep narrow.config.maxConstants s (s.compileConstant wide c)
      (s.compileConstant narrow c) := by
  rw [compileConstant, compileConstant, h.program]
  split
  case h_7 body hc =>
    split
    · next stop ha =>
      cases stop with
      | error e => exact .failed _ _
      | fault f => exact .fault _
    · exact (inStep_compileBody h body _ s).bind fun f t _ ↦ .done _ rfl
  case h_1 => exact .fault _
  all_goals exact .done _ rfl

/-! ### All constants -/

theorem inStep_fill (c : ConstIndex) (reserved : Option UInt16) (entry : Entry) (s : Session) :
    InStep limit s (s.fill c reserved entry) (s.fill c reserved entry) := by
  refine .of_slots_eq fun u t ht ↦ ?_
  rw [fill_eq_done ht]

/-- A batch is compiled in step, one constant after another. -/
theorem inStep_compileBatch (h : narrow.Alike wide) (batch : List ConstIndex) (s : Session) :
    InStep narrow.config.maxConstants s (compileBatch wide batch s)
      (compileBatch narrow batch s) := by
  induction batch generalizing s with
  | nil => exact .done () rfl
  | cons c batch ih =>
    rw [compileBatch, compileBatch]
    refine (inStep_compileConstant h c s).bind fun entry t _ ↦ ?_
    exact (inStep_fill c _ entry t).bind fun _ u _ ↦ ih u

/-- A drain is a batch and a further drain. -/
theorem drain_eq_bind {job : Job} (hempty : ¬s.pending.isEmpty = true) :
    s.drain job = (compileBatch job s.pending.toList { s with pending := #[] }).bind
      fun _ t ↦ t.drain job := by
  rw [drain, if_neg hempty]
  split
  · next hbatch => rw [hbatch, Outcome.bind_done]
  · next hbatch => rw [hbatch, Outcome.bind_failed]
  · next hbatch => rw [hbatch, Outcome.bind_fault]

/-- **Draining is in step**, batch by batch. -/
theorem inStep_drain (h : narrow.Alike wide) (s : Session) :
    InStep narrow.config.maxConstants s (s.drain wide) (s.drain narrow) := by
  fun_induction Session.drain wide s with
  | case1 s hempty =>
    rw [drain, if_pos hempty]
    exact .done () rfl
  | case2 s hempty v s' hbatch ih =>
    have hstep := inStep_compileBatch h s.pending.toList { s with pending := #[] }
    rw [hbatch] at hstep
    rw [drain_eq_bind hempty, ← Outcome.bind_done v s' fun _ t ↦ t.drain wide]
    refine InStep.bind hstep fun w t ht ↦ ?_
    obtain ⟨-, rfl⟩ := Outcome.done.inj ht
    exact ih
  | case3 => exact .failed _ _
  | case4 => exact .fault _

theorem inStep_resolve (s : Session) : InStep limit s s.resolve s.resolve := by
  refine .of_slots_eq fun u t ht ↦ ?_
  rw [resolve] at ht
  split at ht
  · obtain ⟨-, rfl⟩ := Outcome.done.inj ht
    rfl
  · cases ht
  · cases ht

/-- **A whole run is in step.** -/
theorem inStep_run (h : narrow.Alike wide) (s : Session) :
    InStep narrow.config.maxConstants s (s.run wide) (s.run narrow) := by
  rw [run, run, h.program]
  split
  · refine (inStep_request narrow wide _ s).bind fun _ t _ ↦ ?_
    exact (inStep_drain h t).bind fun _ u _ ↦ inStep_resolve u
  · exact .failed _ _

end InStep

/-- A run that ends well has filled every slot that it reserved. -/
theorem size_pool_of_run {job : Job} {t : Session} {u : Unit}
    (h : (start job).run job = .done u t) : t.pool.size = t.slots.size := by
  obtain ⟨order, s, hbuilt, hresolve⟩ := built_of_run h
  rw [resolve] at hresolve
  split at hresolve
  · obtain ⟨-, rfl⟩ := Outcome.done.inj hresolve
    show s.pool.size = s.slots.size
    rw [hbuilt.filled, hbuilt.reserved.size]
  · cases hresolve
  · cases hresolve

end Session

/-! ### The main theorem -/

/-- A program compiles to what its run leaves. -/
theorem compile_eq_ok_iff {program : Program} {config : Config} {image : Image} :
    compile program config = .ok image ↔
      ∃ t, (Session.start (Job.new program config)).run (Job.new program config) = .done () t ∧
        t.finish = image := by
  rw [compile]
  constructor
  · intro h
    split at h
    · next u t hrun => exact ⟨t, hrun, Except.ok.inj h⟩
    · cases h
    · cases h
  · rintro ⟨t, hrun, rfl⟩
    rw [hrun]

/-- **The pool limit is a sharp threshold.** If a program compiles with the largest limit, then with
any other limit it compiles to the same image as long as the pool fits the limit, and otherwise the
limit is what its compilation runs into. -/
theorem compile_threshold {program : Program} {config : Config} {image : Image}
    (h : compile program { config with maxConstants := poolLimit } = .ok image) (m : Nat) :
    (image.pool.size ≤ min m poolLimit →
        compile program { config with maxConstants := m } = .ok image) ∧
      (min m poolLimit < image.pool.size →
        ∃ line, compile program { config with maxConstants := m } =
          .error (.error ⟨.constants (min m poolLimit), line⟩)) := by
  obtain ⟨t, hrun, rfl⟩ := compile_eq_ok_iff.1 h
  have hsize : t.finish.pool.size = t.slots.size := Session.size_pool_of_run hrun
  have halike := Job.alike_new program config m poolLimit
  obtain ⟨-, hfit, hrefused⟩ := Session.inStep_run halike _ () t hrun
  rw [hsize]
  refine ⟨fun hle ↦ compile_eq_ok_iff.2 ⟨t, hfit hle, rfl⟩, fun hlt ↦ ?_⟩
  obtain ⟨u, hu⟩ := hrefused (Nat.zero_le _) hlt
  refine ⟨u.lastLine?, ?_⟩
  rw [compile]
  split
  · next hdone => cases hu.symm.trans hdone
  · next e v hfailed =>
    obtain ⟨rfl, rfl⟩ := Outcome.failed.inj (hu.symm.trans hfailed)
    rfl
  · next hfault => cases hu.symm.trans hfault

/-- The pair needs three slots: with three it compiles as before, and with two it does not. -/
theorem compile_threshold_pair :
    ∃ image line, compile Program.pair {} = .ok image ∧ image.pool.size = 3 ∧
      compile Program.pair { maxConstants := 3 } = .ok image ∧
      compile Program.pair { maxConstants := 2 } = .error (.error ⟨.constants 2, line⟩) := by
  have heval : (compile Program.pair {}).map (·.pool.size) = .ok 3 := by decide +kernel
  obtain ⟨image, himage, hsize⟩ := exists_of_map_eq_ok heval
  have hthree := @compile_threshold Program.pair {} image himage 3
  have htwo := @compile_threshold Program.pair {} image himage 2
  rw [hsize] at hthree htwo
  obtain ⟨line, hline⟩ := htwo.2 (by decide)
  exact ⟨image, line, himage, hsize, hthree.1 (by decide), hline⟩

end RegisterBytecode
