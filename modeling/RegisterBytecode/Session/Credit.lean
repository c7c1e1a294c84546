import RegisterBytecode.Session.Basic

/-!
# The credit of a session

Every request either finds the slot it gave before or uses up one of at most `maxConstants`
slots, and every constant is queued once, when it gets its slot. The sum of unreserved slots and
queued constants is therefore the same before and after a constant is compiled
(`Session.credit_compileBatch`), and it falls when a batch is taken from the queue
(`Session.credit_lt_of_compileBatch`). This bounds the number of batches even for bodies that
refer to each other.
-/

namespace RegisterBytecode.Session

/-- The number of slots that are not reserved, plus the number of queued constants. -/
def credit (job : Job) (s : Session) : Nat :=
  (job.config.maxConstants - s.slots.size) + s.pending.size

/-- A slot that is given out is a constant that is queued; nothing else changes. -/
theorem credit_request (job : Job) (index : ConstIndex) (s : Session) :
    (s.request job index).Leaves fun t ↦ t.credit job = s.credit job := by
  unfold request
  split
  · rfl
  · rename_i hs
    split
    · have hc : s.slots.contains index = false := by
        rw [Std.TreeMap.contains_eq_isSome_getElem?, hs]
        rfl
      simp only [Outcome.Leaves, credit, Array.size_push, Std.TreeMap.size_insert, hc]
      simp only [Bool.false_eq_true, if_false]
      omega
    · rfl

theorem credit_supply (job : Job) (i : Instr) (s : Session) :
    (s.supply job i).Leaves fun t ↦ t.credit job = s.credit job := by
  unfold supply
  split
  · trivial
  · rfl
  · exact (credit_request job _ s).bind fun _ _ h ↦ h

theorem credit_emitInstr (job : Job) (frame : Frame) (ordinal line : Nat) (i : Instr)
    (s : Session) :
    (s.emitInstr job frame ordinal line i).Leaves fun t ↦ t.credit job = s.credit job := by
  unfold emitInstr
  split
  · dsimp only [bind]
    split
    · trivial
    · rfl
  · refine (credit_supply job i (s.setLine line)).bind fun _ t h ↦ ?_
    unfold emitLowered
    dsimp only
    split
    · trivial
    · exact h

theorem credit_emitAll (job : Job) (frame : Frame) (ordinal : Nat) (is : List (Instr × Nat))
    (s : Session) :
    (s.emitAll job frame ordinal is).Leaves fun t ↦ t.credit job = s.credit job := by
  induction is generalizing s with
  | nil => rfl
  | cons i is ih =>
    refine (credit_emitInstr job frame ordinal i.2 i.1 s).bind fun _ t h ↦ ?_
    rw [← h]
    exact ih t

theorem credit_padLabel (job : Job) (s : Session) : s.padLabel.credit job = s.credit job := by
  unfold padLabel
  split <;> rfl

theorem credit_compileBody (job : Job) (body : Body) (frame : Frame) (s : Session) :
    (s.compileBody job body frame).Leaves fun t ↦ t.credit job = s.credit job := by
  unfold compileBody
  refine Outcome.Leaves.bind (credit_emitAll job frame _ _ _) fun _ t h ↦ ?_
  exact (credit_padLabel job t).trans h

/-- Compiling a constant keeps the credit: only a body asks for others. -/
theorem credit_compileConstant (job : Job) (index : ConstIndex) (s : Session) :
    (s.compileConstant job index).Leaves fun t ↦ t.credit job = s.credit job := by
  unfold compileConstant
  split
  case h_7 =>
    split
    · exact .ofStop (P := fun t ↦ Session.credit job t = s.credit job) rfl _
    · exact (credit_compileBody job _ _ s).bind fun _ _ h ↦ h
  all_goals trivial

theorem credit_fill (job : Job) (index : ConstIndex) (reserved : Option UInt16) (entry : Entry)
    (s : Session) :
    (s.fill index reserved entry).Leaves fun t ↦ t.credit job = s.credit job := by
  unfold fill
  split
  · rfl
  · trivial

/-- Compiling constants keeps the credit: a slot that is reserved is a constant that is queued. -/
theorem credit_compileBatch (job : Job) (batch : List ConstIndex) (s : Session) :
    (compileBatch job batch s).Leaves fun t ↦ t.credit job = s.credit job := by
  induction batch generalizing s with
  | nil => rfl
  | cons index rest ih =>
    refine (credit_compileConstant job index s).bind fun entry t ht ↦ ?_
    refine Outcome.Leaves.bind (P := fun t ↦ Session.credit job t = s.credit job) ?_ fun _ u hu ↦ ?_
    · rw [← ht]
      exact credit_fill job index _ entry t
    · rw [← hu]
      exact ih u

/-- Taking a batch from the queue uses up credit. -/
theorem credit_lt_of_compileBatch {job : Job} {s t : Session} {u : Unit}
    (hp : ¬s.pending.isEmpty = true)
    (h : compileBatch job s.pending.toList { s with pending := #[] } = .done u t) :
    t.credit job < s.credit job := by
  have hc := credit_compileBatch job s.pending.toList { s with pending := #[] }
  rw [h] at hc
  have hs : 0 < s.pending.size := by
    rw [Array.isEmpty_iff_size_eq_zero] at hp
    omega
  simp only [Outcome.Leaves, credit, Array.size_empty] at hc ⊢
  omega

end RegisterBytecode.Session
