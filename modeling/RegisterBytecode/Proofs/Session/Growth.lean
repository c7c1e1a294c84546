import RegisterBytecode.Proofs.Session.Finished

/-!
# Compiling one constant, however it ends

A capacity limit stops the compilation of a constant somewhere in the middle, and the session goes
on from the state that is left. What can be said of that state is less than what is said of a body
that has been compiled to its end: constants may have been asked for, in order, and each of them
queued, and the pool is untouched. `Session.Grown` says this, and every step from a request
(`Session.Grown.request`) up to a whole constant (`Session.Grown.compileConstant`) keeps it, whether
it ends with a value or at a limit.

Each statement also says of which kind a fault is not. Only the pool itself is filled at a wrong
slot, so compiling a constant never raises that fault (`Fault.isMismatch`). To say all of this at
once, `Outcome.Ends` has one condition for each way to end.
-/

namespace RegisterBytecode

namespace Outcome

variable {σ α β : Type}

/-- A step ends as required: `D` holds of its value and state, `E` of the state that a limit leaves,
and `F` of the fault. -/
def Ends (D : α → σ → Prop) (E : σ → Prop) (F : Fault → Prop) : Outcome σ α → Prop
  | .done a s => D a s
  | .failed _ s => E s
  | .fault f => F f

/-- Steps that end as required compose. -/
theorem Ends.bind {D : α → σ → Prop} {D' : β → σ → Prop} {E : σ → Prop} {F : Fault → Prop}
    {r : Outcome σ α} {k : α → σ → Outcome σ β} (h : r.Ends D E F)
    (hk : ∀ a s, D a s → (k a s).Ends D' E F) : (r.bind k).Ends D' E F := by
  cases r with
  | done a s => exact hk a s h
  | failed e s => exact h
  | fault f => exact h

theorem Ends.mono {D D' : α → σ → Prop} {E E' : σ → Prop} {F F' : Fault → Prop}
    {r : Outcome σ α} (h : r.Ends D E F) (hD : ∀ a s, D a s → D' a s) (hE : ∀ s, E s → E' s)
    (hF : ∀ f, F f → F' f) : r.Ends D' E' F' := by
  cases r with
  | done a s => exact hD a s h
  | failed e s => exact hE s h
  | fault f => exact hF f h

/-- A step that ends in two ways at once. -/
theorem Ends.and {D D' : α → σ → Prop} {E E' : σ → Prop} {F F' : Fault → Prop}
    {r : Outcome σ α} (h : r.Ends D E F) (h' : r.Ends D' E' F') :
    r.Ends (fun a s ↦ D a s ∧ D' a s) (fun s ↦ E s ∧ E' s) fun f ↦ F f ∧ F' f := by
  cases r with
  | done a s => exact ⟨h, h'⟩
  | failed e s => exact ⟨h, h'⟩
  | fault f => exact ⟨h, h'⟩

end Outcome

/-! ### Faults other than a wrong slot -/

/-- Whether a fault is that of an entry which would enter the pool at a wrong slot. -/
def Fault.isMismatch : Fault → Bool
  | .slotMismatch .. => true
  | _ => false

/-- What is wrong with an instruction is not a wrong slot. -/
theorem Job.isMismatch_of_demand {job : Job} {i : Instr} {f : Fault}
    (h : job.demand i = .error f) : f.isMismatch = false := by
  have htail : ∀ index, Job.checkTail index = .error f → f.isMismatch = false := by
    intro index htail
    rw [Job.checkTail] at htail
    split at htail
    · cases htail
    · obtain rfl := Except.error.inj htail
      rfl
  cases i with
  | load dst index =>
    rw [demand] at h
    split at h
    · obtain rfl := Except.error.inj h
      rfl
    · cases h
  | closure dst index captures =>
    rw [demand] at h
    split at h
    · obtain rfl := Except.error.inj h
      rfl
    · cases h
    · obtain rfl := Except.error.inj h
      rfl
  | etcLookup dst etc index => exact htail index h
  | fillTable table etc start => exact htail start h
  | _ => cases h

/-- What is wrong with captured registers is not a wrong slot. -/
theorem Frame.isMismatch_of_allocate {b : Body} {f : Fault}
    (h : Frame.allocate b = .error (.fault f)) : f.isMismatch = false := by
  have hend := ending_allocate b
  rw [h] at hend
  cases hend with
  | capturedUpvalue hr hup => rfl

namespace Stream

theorem patch_ends (s : Stream) (ranges : Array Range) (p : Patch) :
    (s.patch ranges p).Ends (fun _ _ ↦ True) (fun _ ↦ True) (·.isMismatch = false) := by
  rw [patch]
  split
  · rfl
  · split
    · split <;> trivial
    · rfl

theorem patchAll_ends (ranges : Array Range) (ps : List Patch) (s : Stream) :
    (patchAll ranges ps s).Ends (fun _ _ ↦ True) (fun _ ↦ True) (·.isMismatch = false) := by
  induction ps generalizing s with
  | nil => trivial
  | cons p ps ih => exact (patch_ends s ranges p).bind fun _ t _ ↦ ih t

theorem resolve_ends (s : Stream) (ranges : Array Range) :
    (s.resolve ranges).Ends (fun _ _ ↦ True) (fun _ ↦ True) (·.isMismatch = false) :=
  patchAll_ends ranges _ _

end Stream

namespace Session

/-! ### What every step keeps -/

/-- Constants have been asked for behind those of `order`; they are queued behind `waiting`, and
the pool still is `pool`. -/
def Grown (job : Job) (order waiting : List ConstIndex) (pool : Array Entry) (s : Session) : Prop :=
  ∃ fresh, s.Reserved job (order ++ fresh) ∧ s.pending.toList = waiting ++ fresh ∧ s.pool = pool

/-- A step only asks for constants, up to its end or up to a limit, and raises no fault of the
pool. -/
def Grows (job : Job) (order waiting : List ConstIndex) (pool : Array Entry) {α : Type} :
    Outcome Session α → Prop :=
  Outcome.Ends (fun _ ↦ Grown job order waiting pool) (Grown job order waiting pool)
    (·.isMismatch = false)

section Grown

variable {job : Job} {order waiting : List ConstIndex} {pool : Array Entry} {s t : Session}

theorem Reserved.grown (h : s.Reserved job order) :
    s.Grown job order s.pending.toList s.pool :=
  ⟨[], by rwa [List.append_nil], (List.append_nil _).symm, rfl⟩

/-- The stream and the places of bodies do not matter. -/
theorem Grown.of_eq (h : s.Grown job order waiting pool) (hslots : t.slots = s.slots)
    (hpending : t.pending = s.pending) (hpool : t.pool = s.pool) :
    t.Grown job order waiting pool := by
  obtain ⟨fresh, hres, hwaiting, hkeep⟩ := h
  exact ⟨fresh, hres.of_slots_eq hslots, hpending ▸ hwaiting, hpool.trans hkeep⟩

/-- A request that is refused leaves the session as it is. -/
theorem request_eq_failed {c : ConstIndex} {e : CompileError}
    (h : s.request job c = .failed e t) : t = s := by
  rw [request] at h
  split at h
  · cases h
  · dsimp only at h
    split at h
    · cases h
    · exact (Outcome.failed.inj h).2.symm

/-- A request queues its constant behind all others, or is refused and changes nothing. -/
theorem Grown.request (h : s.Grown job order waiting pool) (c : ConstIndex) :
    Grows job order waiting pool (s.request job c) := by
  obtain ⟨fresh, hres, hwaiting, hkeep⟩ := h
  cases hr : s.request job c with
  | done v t =>
    obtain ⟨new, -, hres', hnew, -⟩ := hres.request hr
    refine ⟨fresh ++ new, ?_, ?_, hnew.pool.trans hkeep⟩
    · rwa [← List.append_assoc]
    · rw [hnew.pending, hwaiting, List.append_assoc]
  | failed e t =>
    obtain rfl := request_eq_failed hr
    exact ⟨fresh, hres, hwaiting, hkeep⟩
  | fault f => exact absurd hr (request_ne_fault c f)

theorem Grown.supply (h : s.Grown job order waiting pool) (i : Instr) :
    Grows job order waiting pool (s.supply job i) := by
  rw [Session.supply]
  split
  · next hd => exact Job.isMismatch_of_demand hd
  · exact h
  · exact (h.request _).bind fun _ _ ht ↦ ht

variable {frame : Frame} {ordinal : Nat}

/-- **One instruction** asks for at most one constant. -/
theorem Grown.emitInstr (h : s.Grown job order waiting pool) {i : Instr}
    (hh : ∀ r ∈ i.regs, frame.operand r = .ok (frame.home r)) (line : Nat) :
    Grows job order waiting pool (s.emitInstr job frame ordinal line i) := by
  have hline : (s.setLine line).Grown job order waiting pool := h.of_eq rfl rfl rfl
  rw [Session.emitInstr]
  split
  · rw [Session.bind]
    split
    · rfl
    · exact hline.of_eq rfl rfl rfl
  · refine (hline.supply i).bind fun _ t ht ↦ ?_
    rw [emitLowered_eq_done hh]
    exact ht.of_eq rfl rfl rfl

/-- **All instructions**, up to the first that runs into a limit. -/
theorem Grown.emitAll (h : s.Grown job order waiting pool) {code : List (Instr × Nat)}
    (hh : ∀ x ∈ code, ∀ r ∈ x.1.regs, frame.operand r = .ok (frame.home r)) :
    Grows job order waiting pool (Session.emitAll job frame ordinal code s) := by
  induction code generalizing s with
  | nil => exact h
  | cons x code ih =>
    refine (h.emitInstr (hh x List.mem_cons_self) x.2).bind fun _ t ht ↦ ?_
    exact ih ht fun y hy ↦ hh y (List.mem_cons_of_mem _ hy)

/-- **A body**: where its compilation ends with a value, that announces the body. -/
theorem Grown.compileBody (h : s.Grown job order waiting pool) {body : Body}
    (ha : Frame.allocate body = .ok frame) :
    (s.compileBody job body frame).Ends
      (fun f t ↦ t.Grown job order waiting pool ∧ (Entry.function f).Represents (.code body))
      (Grown job order waiting pool) (·.isMismatch = false) := by
  have hopen : Grown job order waiting pool
      { s with ranges := s.ranges.push ⟨s.stream.offset, s.stream.offset⟩ } :=
    h.of_eq rfl rfl rfl
  refine (hopen.emitAll fun _ hx _ ↦ Frame.operand_home_of_mem_lined ha hx).bind fun _ t ht ↦ ?_
  rw [padLabel_eq]
  exact ⟨ht.of_eq rfl rfl rfl, rfl, rfl, frame, ha, rfl, rfl, rfl⟩

/-- **A constant**: where its compilation ends with an entry, that is its compiled form. -/
theorem Grown.compileConstant (h : s.Grown job order waiting pool) (c : ConstIndex) :
    (s.compileConstant job c).Ends
      (fun entry t ↦ t.Grown job order waiting pool ∧
        ∃ k, job.program.get? c = some k ∧ entry.Represents k)
      (Grown job order waiting pool) (·.isMismatch = false) := by
  rw [Session.compileConstant]
  split
  case h_7 body hc =>
    split
    · next stop ha =>
      cases stop with
      | error e => exact h
      | fault f => exact Frame.isMismatch_of_allocate ha
    · next frame ha =>
      exact (h.compileBody ha).bind fun f t ⟨ht, hrep⟩ ↦ ⟨ht, .code body, hc, hrep⟩
  case h_1 => rfl
  all_goals
    next hc => exact ⟨h, _, hc, by trivial⟩

end Grown

end Session

end RegisterBytecode
