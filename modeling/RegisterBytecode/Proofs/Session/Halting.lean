import RegisterBytecode.Proofs.Session.Growth

/-!
# Where a run halts

A run that exceeds a capacity has been stopped at one place: a request that was refused, or a body
for which no storage could be chosen. Each statement here says where a step halted, and that
everything before had ended with a value. So a run that halts has compiled a number of constants
completely (`Session.run_eq_failed`), and of the one that it could not compile it has emitted the
instructions before the one that was refused (`Session.Reserved.refused_of_emitAll`), or nothing at
all.

A request is refused if the constant has no slot and all slots are taken (`Session.Refused`), and it
leaves the session as it was; but the line of the instruction has been set by then.
-/

namespace RegisterBytecode

/-- Two steps end at a limit in the first or, behind it, in the second. -/
theorem Outcome.bind_eq_failed {σ α β : Type} {r : Outcome σ α} {k : α → σ → Outcome σ β}
    {e : CompileError} {t : σ} (h : r.bind k = .failed e t) :
    r = .failed e t ∨ ∃ a s, r = .done a s ∧ k a s = .failed e t := by
  cases r with
  | done a s => exact Or.inr ⟨a, s, rfl, h⟩
  | failed e' s =>
    obtain ⟨rfl, rfl⟩ := Outcome.failed.inj h
    exact Or.inl rfl
  | fault f => cases h

namespace Stream

/-- Filling in jumps halts only where one is too far. -/
theorem kind_of_patchAll_eq_failed {ranges : Array Range} {ps : List Patch} {s t : Stream}
    {e : CompileError} (h : patchAll ranges ps s = .failed e t) :
    ∃ source target, e.kind = .jumpRange source target := by
  induction ps generalizing s with
  | nil => cases h
  | cons p ps ih =>
    rcases Outcome.bind_eq_failed h with h | ⟨u, s', -, h⟩
    · rw [patch] at h
      split at h
      · cases h
      · split at h
        · split at h
          · cases h
          · obtain ⟨rfl, -⟩ := Outcome.failed.inj h
            exact ⟨_, _, rfl⟩
        · cases h
    · exact ih h

end Stream

namespace Session

variable {job : Job} {order done batch : List ConstIndex} {s t : Session} {c : ConstIndex}
  {e : CompileError}

/-! ### One body -/

/-- A request for a constant is refused, where the constants of `order` have their slots. -/
structure Refused (job : Job) (order : List ConstIndex) (c : ConstIndex) (e : CompileError) :
    Prop where
  new : c ∉ order
  full : order.length = job.config.maxConstants
  error : e = ⟨.constants job.config.maxConstants, none⟩

/-- **A request** fails only if all slots are taken, and changes nothing. -/
theorem Reserved.refused_of_request (h : s.Reserved job order)
    (hr : s.request job c = .failed e t) : Refused job order c e ∧ t = s := by
  refine ⟨?_, request_eq_failed hr⟩
  rw [Session.request, h.slots, h.size] at hr
  by_cases hc : c ∈ order
  · rw [if_pos hc] at hr
    cases hr
  · rw [if_neg hc] at hr
    dsimp only at hr
    split at hr
    · cases hr
    · next hlt =>
      obtain ⟨rfl, -⟩ := Outcome.failed.inj hr
      exact ⟨hc, Nat.le_antisymm h.limit (Nat.not_lt.1 hlt), rfl⟩

theorem Reserved.refused_of_supply (h : s.Reserved job order) {i : Instr}
    (hs : s.supply job i = .failed e t) :
    ∃ c, job.demand i = .ok (some c) ∧ Refused job order c e ∧ t = s := by
  rw [Session.supply] at hs
  split at hs
  · cases hs
  · cases hs
  · next c hd =>
    rcases Outcome.bind_eq_failed hs with hr | ⟨v, s', -, hr⟩
    · exact ⟨c, hd, h.refused_of_request hr⟩
    · cases hr

section Emission

variable {frame : Frame} {ordinal : Nat} {code : List (Instr × Nat)}

/-- **One instruction** halts before it emits anything. -/
theorem Reserved.refused_of_emitInstr (hs : s.Reserved job order) {i : Instr} {line : Nat}
    (hh : ∀ r ∈ i.regs, frame.operand r = .ok (frame.home r))
    (h : s.emitInstr job frame ordinal line i = .failed e t) :
    ∃ c, job.demand i = .ok (some c) ∧ Refused job order c e ∧ t = s.setLine line := by
  rw [emitInstr] at h
  split at h
  · rw [Session.bind] at h
    split at h <;> cases h
  · rcases Outcome.bind_eq_failed h with h | ⟨v, s', -, h⟩
    · have hline : (s.setLine line).Reserved job order := hs.of_slots_eq rfl
      exact hline.refused_of_supply h
    · rw [emitLowered_eq_done hh] at h
      cases h

/-- **Instructions** halt at one of them, and those before it have been emitted. -/
theorem Reserved.refused_of_emitAll (hs : s.Reserved job order)
    (hh : ∀ x ∈ code, ∀ r ∈ x.1.regs, frame.operand r = .ok (frame.home r))
    (h : emitAll job frame ordinal code s = .failed e t) :
    ∃ k i line fresh s' c, code[k]? = some (i, line) ∧
      Emits job frame.home ordinal order (code.take k) s fresh s' ∧
      job.demand i = .ok (some c) ∧ Refused job (order ++ fresh) c e ∧ t = s'.setLine line := by
  induction code generalizing s order with
  | nil => cases h
  | cons x code ih =>
    rw [emitAll] at h
    rcases Outcome.bind_eq_failed h with h | ⟨v, s₁, hx, h⟩
    · obtain ⟨c, hd, hrefused, ht⟩ := hs.refused_of_emitInstr (hh x List.mem_cons_self) h
      refine ⟨0, x.1, x.2, [], s, c, rfl, .nil hs, hd, ?_, ht⟩
      rwa [List.append_nil]
    · obtain ⟨fresh, hfirst⟩ := emits_of_emitInstr hs (hh x List.mem_cons_self) hx
      obtain ⟨k, i, line, fresh', s', c, hk, hrest, hd, hrefused, ht⟩ :=
        ih hfirst.reserved (fun y hy ↦ hh y (List.mem_cons_of_mem _ hy)) h
      refine ⟨k + 1, i, line, fresh ++ fresh', s', c, hk, hfirst.append hrest, hd, ?_, ht⟩
      rwa [← List.append_assoc]

end Emission

/-- **A constant** halts only if it is a body: without storage for it, or at one of its
instructions. -/
theorem compileConstant_eq_failed (h : s.compileConstant job c = .failed e t) :
    ∃ body, job.program.get? c = some (.code body) ∧
      (Frame.allocate body = .error (.error e) ∧ t = s ∨
        ∃ frame, Frame.allocate body = .ok frame ∧
          emitAll job frame s.ranges.size body.lined
            { s with ranges := s.ranges.push ⟨s.stream.code.size, s.stream.code.size⟩ } =
              .failed e t) := by
  unfold compileConstant at h
  split at h
  case h_7 body hc =>
    refine ⟨body, hc, ?_⟩
    split at h
    · next stop ha =>
      cases stop with
      | error e' =>
        obtain ⟨rfl, rfl⟩ := Outcome.failed.inj h
        exact Or.inl ⟨ha, rfl⟩
      | fault f => cases h
    · next frame ha =>
      refine Or.inr ⟨frame, ha, ?_⟩
      rcases Outcome.bind_eq_failed h with h | ⟨f, s', -, h⟩
      · rcases Outcome.bind_eq_failed h with h | ⟨u, s', -, h⟩
        · exact h
        · cases h
      · cases h
  all_goals cases h

/-! ### A whole run -/

/-- A session was left where a constant ended at a limit, behind others that have been compiled. -/
def HaltedAt (job : Job) (e : CompileError) (t : Session) : Prop :=
  ∃ (order done : List ConstIndex) (c : ConstIndex) (batch : List ConstIndex) (s : Session),
    s.Built job order done (c :: batch) ∧ s.compileConstant job c = .failed e t

/-- **A batch** halts at one of its constants, and those before it have been compiled. -/
theorem Built.compileBatch_eq_failed (h : s.Built job order done batch)
    (hb : Session.compileBatch job batch s = .failed e t) : HaltedAt job e t := by
  induction batch generalizing s order done with
  | nil => cases hb
  | cons c batch ih =>
    rw [Session.compileBatch] at hb
    rcases Outcome.bind_eq_failed hb with hc | ⟨entry, s', hc, hb⟩
    · exact ⟨order, done, c, batch, s, h, hc⟩
    · rcases Outcome.bind_eq_failed hb with hf | ⟨u, s'', hf, hb⟩
      · rw [fill] at hf
        split at hf <;> cases hf
      · obtain ⟨fresh, hstep⟩ := h.step hc hf
        exact ih hstep hb

/-- **Draining** halts in one of its batches. -/
theorem Built.drain_eq_failed (h : s.Built job order done []) (hd : s.drain job = .failed e t) :
    HaltedAt job e t := by
  fun_induction Session.drain job s generalizing order done with
  | case1 => cases hd
  | case2 s hempty v s' hbatch ih =>
    obtain ⟨order', h'⟩ := h.take.compileBatch hbatch
    exact ih h' hd
  | case3 s hempty e' s' hbatch =>
    obtain ⟨rfl, rfl⟩ := Outcome.failed.inj hd
    exact h.take.compileBatch_eq_failed hbatch
  | case4 => cases hd

end Session

/-- A capacity of the encoding that some body or the pool exceeds. -/
def ErrorKind.isCapacity : ErrorKind → Bool
  | .registers _ _ => true
  | .cells _ _ => true
  | .upvalues _ _ => true
  | .constants _ => true
  | .jumpRange _ _ => false
  | .entryNotCode _ => false

/-- **A run that exceeds a capacity** has either no slot for the entry, or it halts at a constant
behind others that it has compiled. -/
theorem Session.run_eq_failed {job : Job} {e : CompileError} {t : Session}
    (h : (start job).run job = .failed e t) (hkind : e.kind.isCapacity = true) :
    Refused job [] job.program.entry e ∧ t = start job ∨ HaltedAt job e t := by
  rw [run] at h
  split at h
  · rcases Outcome.bind_eq_failed h with h | ⟨v, s, hrequest, h⟩
    · exact Or.inl ((reserved_start job).refused_of_request h)
    · rcases Outcome.bind_eq_failed h with h | ⟨u, s', -, h⟩
      · exact Or.inr ((built_of_request hrequest).drain_eq_failed h)
      · rw [Session.resolve] at h
        split at h
        · cases h
        · next hresolve =>
          obtain ⟨rfl, -⟩ := Outcome.failed.inj h
          obtain ⟨source, target, heq⟩ := Stream.kind_of_patchAll_eq_failed hresolve
          rw [heq] at hkind
          cases hkind
        · cases h
  · obtain ⟨rfl, -⟩ := Outcome.failed.inj h
    cases hkind

end RegisterBytecode
