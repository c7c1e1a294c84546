import RegisterBytecode.Proofs.PoolLimit
import RegisterBytecode.Proofs.Session.Calls
import RegisterBytecode.Proofs.Session.Pieces

/-!
# The history of a session

What happens to constants in the course of a session is not all to be seen in the state at its end:
the queue forgets who has been in it, and a fault leaves no state at all. This module records it. A
constant enters the queue, is taken from it with a batch, and has its body emitted if it is one;
`Session.history` lists these events for any number of calls, up to the one that is a fault and in
that one up to the fault. The history of each step follows the step itself and looks at nothing but
the states that the step goes through.

`Session.Balances` ties a history to the queue of the state that it leads to. The constants that
entered it are those that have a slot, **in the order of their slots**, and they are the ones that
were taken followed by the ones that still wait. Hence none of them entered twice. In the middle of
a batch the constants taken are those dealt with, among them the ones whose bodies have been
emitted, followed by the rest of the batch. Each step up to a constant keeps the balance, however it
ends.

That a body is emitted shows in the stream only when its constant has been dealt with. So from there
on `Session.Accounts` says in addition that the stream consists of what the emitted bodies have left
(`Session.Placed`). A constant (`Session.Accounts.compileConstant`) and each larger step up to any
number of calls (`Session.Accounts.history`) accounts for its events.
-/

namespace RegisterBytecode

/-! ### Events -/

/-- What can happen to a constant. -/
inductive Event where
  /-- It enters the queue. -/
  | queued (index : ConstIndex)
  /-- It is taken from the queue. -/
  | taken (index : ConstIndex)
  /-- Its body is emitted. -/
  | emitted (index : ConstIndex)
  deriving DecidableEq, Repr

/-- Events in the order in which they happened. -/
abbrev History := List Event

namespace History

/-- The constants that entered the queue, in order. -/
def queued (h : History) : List ConstIndex :=
  h.filterMap fun | .queued c => some c | _ => none

/-- The constants that were taken from the queue, in order. -/
def taken (h : History) : List ConstIndex :=
  h.filterMap fun | .taken c => some c | _ => none

/-- The constants whose bodies were emitted, in order. -/
def emitted (h : History) : List ConstIndex :=
  h.filterMap fun | .emitted c => some c | _ => none

variable (h h' : History)

@[simp] theorem queued_append : queued (h ++ h') = queued h ++ queued h' := List.filterMap_append

@[simp] theorem taken_append : taken (h ++ h') = taken h ++ taken h' := List.filterMap_append

@[simp] theorem emitted_append : emitted (h ++ h') = emitted h ++ emitted h' :=
  List.filterMap_append

@[simp] theorem queued_map_taken (cs : List ConstIndex) : queued (cs.map .taken) = [] := by
  simp [queued]

@[simp] theorem taken_map_taken (cs : List ConstIndex) : taken (cs.map .taken) = cs := by
  simp [taken]

@[simp] theorem emitted_map_taken (cs : List ConstIndex) : emitted (cs.map .taken) = [] := by
  simp [emitted]

/-- No constant enters the queue twice, and there are no more of them than the limit allows. They
are taken in the order in which they entered, and bodies are emitted in the order in which they are
taken. -/
structure Regular (job : Job) (h : History) : Prop where
  nodup : (queued h).Nodup
  limit : (queued h).length ≤ job.config.maxConstants
  taken : taken h <+: queued h
  emitted : (emitted h).Sublist (History.taken h)

end History

/-- The events of what follows a step, which are none unless the step ends with a value. -/
def Outcome.after {σ α : Type} (r : Outcome σ α) (k : α → σ → History) : History :=
  match r with
  | .done a s => k a s
  | .failed _ _ => []
  | .fault _ => []

namespace Session

/-! ### The events of each step -/

/-- A constant enters the queue when it is first asked for, if there is a slot for it. -/
def requestHistory (job : Job) (c : ConstIndex) (s : Session) : History :=
  match s.slots[c]? with
  | some _ => []
  | none => if s.slots.size < job.config.maxConstants then [.queued c] else []

/-- The events of one instruction: those of the request that it makes, if it makes one. -/
def instrHistory (job : Job) (i : Instr) (s : Session) : History :=
  match i.binds? with
  | some _ => []
  | none =>
    match job.demand i with
    | .ok (some c) => s.requestHistory job c
    | .ok none => []
    | .error _ => []

/-- The events of instructions. -/
def emitHistory (job : Job) (frame : Frame) (ordinal : Nat) :
    List (Instr × Nat) → Session → History
  | [], _ => []
  | (i, line) :: rest, s =>
    s.instrHistory job i ++
      (s.emitInstr job frame ordinal line i).after fun _ t ↦
        emitHistory job frame ordinal rest t

/-- The events of a constant. Its body, if it is one, is emitted once storage is chosen. -/
def constantHistory (job : Job) (c : ConstIndex) (s : Session) : History :=
  match job.program.get? c with
  | some (.code body) =>
    match Frame.allocate body with
    | .ok frame =>
      .emitted c :: emitHistory job frame s.ranges.size body.lined
        { s with ranges := s.ranges.push ⟨s.stream.offset, s.stream.offset⟩ }
    | .error _ => []
  | _ => []

/-- The events of constants that are compiled in order. -/
def batchHistory (job : Job) : List ConstIndex → Session → History
  | [], _ => []
  | c :: rest, s =>
    s.constantHistory job c ++
      (s.compileConstant job c).after fun entry t ↦
        (t.fill c s.slots[c]? entry).after fun _ u ↦ batchHistory job rest u

/-- The events of all batches. The queue is taken as a whole. -/
def drainHistory (job : Job) (s : Session) : History :=
  if s.pending.isEmpty then []
  else
    s.pending.toList.map .taken ++
      (batchHistory job s.pending.toList { s with pending := #[] } ++
        match _h : compileBatch job s.pending.toList { s with pending := #[] } with
        | .done _ t => drainHistory job t
        | .failed _ _ => []
        | .fault _ => [])
termination_by s.credit job
decreasing_by exact credit_lt_of_compileBatch ‹_› ‹_›

/-- The events of a run. Filling in the jumps concerns no constant. -/
def runHistory (job : Job) (s : Session) : History :=
  match job.program.get? job.program.entry with
  | some (.code _) =>
    s.requestHistory job job.program.entry ++
      (s.request job job.program.entry).after fun _ t ↦ t.drainHistory job
  | _ => []

end Session

/-- The events of a call. -/
def Call.history (job : Job) : Call → Session → History
  | request c, s => s.requestHistory job c
  | drain, s => s.drainHistory job
  | run, s => s.runHistory job

namespace Session

/-- **The history of a session** under calls, up to the end or to the first fault. -/
def history (job : Job) : List Call → Session → History
  | [], _ => []
  | call :: calls, s =>
    call.history job s ++
      match (call.act job s).settle with
      | .ok (_, t) => history job calls t
      | .error _ => []

theorem drainHistory_eq_after {job : Job} {s : Session} (hempty : ¬s.pending.isEmpty = true) :
    s.drainHistory job = s.pending.toList.map .taken ++
      (batchHistory job s.pending.toList { s with pending := #[] } ++
        (compileBatch job s.pending.toList { s with pending := #[] }).after
          fun _ t ↦ t.drainHistory job) := by
  rw [drainHistory, if_neg hempty]
  split
  · next hbatch => rw [hbatch, Outcome.after]
  · next hbatch => rw [hbatch, Outcome.after]
  · next hbatch => rw [hbatch, Outcome.after]

/-! ### Only constants emit -/

section Events

variable (job : Job) (s : Session)

theorem emitted_requestHistory (c : ConstIndex) :
    History.emitted (s.requestHistory job c) = [] := by
  rw [requestHistory]
  split
  · rfl
  · split <;> rfl

theorem emitted_instrHistory (i : Instr) : History.emitted (s.instrHistory job i) = [] := by
  rw [instrHistory]
  split
  · rfl
  · split
    · exact s.emitted_requestHistory job _
    · rfl
    · rfl

/-- Emitting instructions of a body emits no other body. -/
theorem emitted_emitHistory (frame : Frame) (ordinal : Nat) (code : List (Instr × Nat)) :
    History.emitted (emitHistory job frame ordinal code s) = [] := by
  induction code generalizing s with
  | nil => rfl
  | cons x code ih =>
    rw [emitHistory, History.emitted_append, emitted_instrHistory, List.nil_append]
    cases s.emitInstr job frame ordinal x.2 x.1 with
    | done u t => exact ih t
    | failed e t => rfl
    | fault f => rfl

/-- The history of a constant says that its body is emitted exactly if there is storage for it. -/
theorem emitted_constantHistory (c : ConstIndex) :
    History.emitted (s.constantHistory job c) = job.emitting c := by
  rw [Job.emitting]
  cases hg : job.segment? c with
  | some g =>
    obtain ⟨hc, ha⟩ := Job.segment?_eq_some_iff.1 hg
    rw [constantHistory, hc]
    dsimp only
    rw [ha]
    exact congrArg (c :: ·) (emitted_emitHistory job _ g.frame _ _)
  | none =>
    rw [constantHistory]
    split
    · next body hc =>
      split
      · next frame ha =>
        have hsome : job.segment? c = some ⟨body, frame⟩ := Job.segment?_eq_some_iff.2 ⟨hc, ha⟩
        rw [hg] at hsome
        cases hsome
      · rfl
    · rfl

end Events

/-! ### Accounts -/

/-- The history `h` is in balance with the queue: the constants that entered it are those with a
slot, and of them those that were not taken are pending. Of the constants taken, `batch` are not
dealt with yet; the others include those whose bodies were emitted. -/
structure Balances (job : Job) (batch : List ConstIndex) (h : History) (s : Session) : Prop where
  reserved : s.Reserved job (History.queued h)
  balance : History.queued h = History.taken h ++ s.pending.toList
  emitted : ∃ before, History.taken h = before ++ batch ∧ (History.emitted h).Sublist before

/-- The history `h` accounts for the session: it is in balance with the queue, and the bodies that
were emitted are those that have left something in the stream. -/
structure Accounts (job : Job) (batch : List ConstIndex) (h : History) (s : Session) : Prop
    extends s.Balances job batch h where
  placed : s.Placed job (History.emitted h)

/-- A step keeps `I`, which ties states to histories, with its events `new`, however it ends. A
limit cuts the batch short. -/
def Keeps (I : Job → List ConstIndex → History → Session → Prop) (job : Job)
    (batch : List ConstIndex) (h new : History) {α : Type} : Outcome Session α → Prop :=
  Outcome.Ends (fun _ ↦ I job batch (h ++ new)) (I job [] (h ++ new))
    fun _ ↦ History.Regular job (h ++ new)

section Keeps

variable {I : Job → List ConstIndex → History → Session → Prop} {job : Job}
  {batch batch' : List ConstIndex} {h new : History} {s : Session} {α β : Type}

/-- Steps without events. -/
theorem Keeps.done (hs : I job batch h s) (a : α) : Keeps I job batch h [] (.done a s) := by
  show I job batch (h ++ []) s
  rwa [List.append_nil]

theorem Keeps.failed (hs : I job [] h s) (e : CompileError) :
    Keeps I job batch h [] (.failed (α := α) e s) := by
  show I job [] (h ++ []) s
  rwa [List.append_nil]

theorem Keeps.fault (hs : History.Regular job h) (f : Fault) :
    Keeps I job batch h [] (.fault (α := α) f) := by
  show History.Regular job (h ++ [])
  rwa [List.append_nil]

/-- Events that were accounted for before count among those of a step. -/
theorem Keeps.of_append {r : Outcome Session α} {old : History}
    (hr : Keeps I job batch (h ++ old) new r) : Keeps I job batch h (old ++ new) r := by
  rwa [Keeps, List.append_assoc] at hr

/-- Whether a step ends with a value or at a limit, the state that it leaves is tied to its history.
-/
theorem Keeps.settle {r : Outcome Session α} (hr : Keeps I job [] h new r)
    {x : Option CompileError × Session} (hx : r.settle = .ok x) : I job [] (h ++ new) x.2 := by
  cases r with
  | done a t =>
    obtain rfl := Except.ok.inj hx
    exact hr
  | failed e t =>
    obtain rfl := Except.ok.inj hx
    exact hr
  | fault f => cases hx

/-- **Steps compose.** -/
theorem Keeps.bind {r : Outcome Session α} {k : α → Session → Outcome Session β}
    {next : α → Session → History} (hr : Keeps I job batch h new r)
    (hk : ∀ a t, r = .done a t → I job batch (h ++ new) t →
      Keeps I job batch' (h ++ new) (next a t) (k a t)) :
    Keeps I job batch' h (new ++ r.after next) (r.bind k) := by
  cases r with
  | done a t => exact (hk a t rfl hr).of_append
  | failed e t =>
    show I job [] (h ++ (new ++ [])) t
    rwa [List.append_nil]
  | fault f =>
    show History.Regular job (h ++ (new ++ []))
    rwa [List.append_nil]

/-- A step that is followed by one without events. -/
theorem Keeps.bind_silent {r : Outcome Session α} {k : α → Session → Outcome Session β}
    (hr : Keeps I job batch h new r)
    (hk : ∀ a t, I job batch (h ++ new) t → Keeps I job batch' (h ++ new) [] (k a t)) :
    Keeps I job batch' h new (r.bind k) := by
  have hbind : Keeps I job batch' h (new ++ r.after fun _ _ ↦ []) (r.bind k) :=
    hr.bind fun a t _ ↦ hk a t
  have hafter : (r.after fun _ _ ↦ []) = [] := by
    cases r <;> rfl
  rwa [hafter, List.append_nil] at hbind

end Keeps

section Accounts

variable {job : Job} {batch : List ConstIndex} {h new : History} {s t : Session} {c : ConstIndex}
  {α : Type}

/-- A history that is in balance is regular. -/
theorem Balances.regular (hs : s.Balances job batch h) : History.Regular job h where
  nodup := hs.reserved.nodup
  limit := hs.reserved.limit
  taken := ⟨_, hs.balance.symm⟩
  emitted := by
    obtain ⟨before, htaken, hsub⟩ := hs.emitted
    rw [htaken]
    exact hsub.trans (List.sublist_append_left _ _)

/-- The rest of a batch may be given up. -/
theorem Balances.cut (hs : s.Balances job batch h) : s.Balances job [] h where
  __ := hs
  emitted := ⟨_, (List.append_nil _).symm, hs.regular.emitted⟩

/-- The balance depends on slots and the queue only. -/
theorem Balances.of_eq (hs : s.Balances job batch h) (hslots : t.slots = s.slots)
    (hpending : t.pending = s.pending) : t.Balances job batch h where
  reserved := hs.reserved.of_slots_eq hslots
  balance := hpending ▸ hs.balance
  emitted := hs.emitted

/-- A step that keeps the balance leaves a regular history, even where it leaves no state. -/
theorem Keeps.regular {r : Outcome Session α} (hr : Keeps Accounts job batch h new r) :
    History.Regular job (h ++ new) := by
  cases r with
  | done a t => exact Balances.regular (Accounts.toBalances hr)
  | failed e t => exact Balances.regular (Accounts.toBalances hr)
  | fault f => exact hr

/-- A step that keeps the balance accounts for its events if the bodies that it emits are those
that leave something in the stream. -/
theorem Keeps.accounts {r : Outcome Session α} (hr : Keeps Balances job batch h new r)
    (hplaced : r.Ends (fun _ ↦ Placed job (History.emitted h ++ History.emitted new))
      (Placed job (History.emitted h ++ History.emitted new)) fun _ ↦ True) :
    Keeps Accounts job batch h new r := by
  rw [← History.emitted_append] at hplaced
  exact (hr.and hplaced).mono (fun _ _ ht ↦ ⟨ht.1, ht.2⟩) (fun _ ht ↦ ⟨ht.1, ht.2⟩) fun _ hf ↦ hf.1

/-! ### Requests -/

/-- **A request**: a constant that enters the queue has no slot before, and so it has not entered
it. -/
theorem Balances.request (hs : s.Balances job batch h) (c : ConstIndex) :
    Keeps Balances job batch h (s.requestHistory job c) (s.request job c) := by
  rw [Session.request, requestHistory]
  cases hslot : s.slots[c]? with
  | some slot => exact .done hs slot
  | none =>
    dsimp only
    split
    · next hlt =>
      have hc : c ∉ History.queued h := by
        intro hc
        rw [hs.reserved.slots, if_pos hc] at hslot
        cases hslot
      refine ⟨?_, ?_, ?_⟩
      · rw [History.queued_append]
        exact hs.reserved.concat hc (hs.reserved.size ▸ hlt) rfl
      · rw [History.queued_append, History.taken_append, hs.balance, Array.toList_push]
        simp [History.queued, History.taken]
      · rw [History.taken_append, History.emitted_append]
        simpa [History.taken, History.emitted] using hs.emitted
    · exact .failed hs.cut _

theorem Balances.supply (hs : s.Balances job batch h) {i : Instr} (hi : i.binds? = none) :
    Keeps Balances job batch h (s.instrHistory job i) (s.supply job i) := by
  rw [Session.supply, instrHistory, hi]
  cases job.demand i with
  | error f => exact .fault hs.regular f
  | ok d =>
    cases d with
    | none => exact .done hs ()
    | some c => exact (hs.request c).bind_silent fun _ _ ht ↦ .done ht ()

/-! ### Bodies -/

/-- **One instruction**: it makes its request and leaves the queue alone otherwise. -/
theorem Balances.emitInstr (hs : s.Balances job batch h) (frame : Frame) (ordinal line : Nat)
    (i : Instr) :
    Keeps Balances job batch h (s.instrHistory job i) (s.emitInstr job frame ordinal line i) := by
  have hline : (s.setLine line).Balances job batch h := hs.of_eq rfl rfl
  rw [Session.emitInstr]
  cases hi : i.binds? with
  | some l =>
    rw [instrHistory, hi]
    dsimp only
    rw [Session.bind]
    split
    · exact .fault hs.regular _
    · refine .done (hline.of_eq ?_ ?_) ()
      all_goals rfl
  | none =>
    refine (hline.supply hi).bind_silent fun _ t ht ↦ ?_
    rw [emitLowered]
    split
    · exact .fault ht.regular _
    · refine .done (ht.of_eq ?_ ?_) ()
      all_goals rfl

/-- **Instructions** keep the balance, one after another. -/
theorem Balances.emitAll (hs : s.Balances job batch h) (frame : Frame) (ordinal : Nat)
    (code : List (Instr × Nat)) :
    Keeps Balances job batch h (emitHistory job frame ordinal code s)
      (s.emitAll job frame ordinal code) := by
  induction code generalizing s h with
  | nil => exact .done hs ()
  | cons x code ih =>
    exact (hs.emitInstr frame ordinal x.2 x.1).bind fun _ _ _ ht ↦ ih ht

/-- A constant that is dealt with without a body. -/
theorem Balances.pass (hs : s.Balances job (c :: batch) h) : s.Balances job batch h where
  __ := hs
  emitted := by
    obtain ⟨before, htaken, hsub⟩ := hs.emitted
    refine ⟨before ++ [c], ?_, hsub.trans (List.sublist_append_left _ _)⟩
    rw [htaken, List.append_assoc, List.singleton_append]

/-- **A body is started**: this is the only step that emits one, and it is the turn of this
constant. -/
theorem Balances.start (hs : s.Balances job (c :: batch) h) :
    s.Balances job batch (h ++ [.emitted c]) where
  reserved := by
    rw [History.queued_append, show History.queued [.emitted c] = [] from rfl, List.append_nil]
    exact hs.reserved
  balance := by
    rw [History.queued_append, History.taken_append, hs.balance]
    simp [History.queued, History.taken]
  emitted := by
    obtain ⟨before, htaken, hsub⟩ := hs.emitted
    refine ⟨before ++ [c], ?_, ?_⟩
    · rw [History.taken_append, htaken]
      simp [History.taken]
    · rw [History.emitted_append]
      exact hsub.append (List.Sublist.refl [c])

/-- **A body** is started and then asks for constants. -/
theorem Balances.compileBody (hs : s.Balances job (c :: batch) h) (body : Body) (frame : Frame) :
    Keeps Balances job batch h
      ([.emitted c] ++ emitHistory job frame s.ranges.size body.lined
        { s with ranges := s.ranges.push ⟨s.stream.offset, s.stream.offset⟩ })
      (s.compileBody job body frame) := by
  have hstart : Balances job batch (h ++ [.emitted c])
      { s with ranges := s.ranges.push ⟨s.stream.offset, s.stream.offset⟩ } :=
    hs.start.of_eq rfl rfl
  rw [Session.compileBody]
  refine Keeps.bind_silent (hstart.emitAll frame s.ranges.size body.lined).of_append
    fun _ t ht ↦ ?_
  refine .done (ht.of_eq ?_ ?_) _
  · exact slots_padLabel t
  · rw [padLabel_eq]

/-! ### Constants -/

/-- **A constant** whose turn it is. -/
theorem Balances.compileConstant (hs : s.Balances job (c :: batch) h) :
    Keeps Balances job batch h (s.constantHistory job c) (s.compileConstant job c) := by
  rw [Session.compileConstant, constantHistory]
  cases job.program.get? c with
  | none => exact .fault hs.regular _
  | some k =>
    cases k with
    | code body =>
      dsimp only
      cases Frame.allocate body with
      | error stop =>
        cases stop with
        | error e => exact .failed hs.cut e
        | fault f => exact .fault hs.regular f
      | ok frame => exact (hs.compileBody body frame).bind_silent fun _ _ ht ↦ .done ht _
    | _ => exact .done hs.pass _

/-- What a constant emits is what it leaves in the stream. -/
theorem Accounts.compileConstant (hs : s.Accounts job (c :: batch) h) :
    Keeps Accounts job batch h (s.constantHistory job c) (s.compileConstant job c) := by
  refine hs.toBalances.compileConstant.accounts ?_
  rw [emitted_constantHistory]
  exact hs.placed.compileConstant c

theorem Accounts.request (hs : s.Accounts job batch h) (c : ConstIndex) :
    Keeps Accounts job batch h (s.requestHistory job c) (s.request job c) := by
  refine (hs.toBalances.request c).accounts ?_
  rw [emitted_requestHistory, List.append_nil]
  exact hs.placed.request c

/-- An entry enters the pool without a trace in the queue and in the stream. -/
theorem Accounts.fill (hs : s.Accounts job batch h) (c : ConstIndex) (reserved : Option UInt16)
    (entry : Entry) : Keeps Accounts job batch h [] (s.fill c reserved entry) := by
  rw [Session.fill]
  split
  · exact .done ⟨hs.toBalances.of_eq rfl rfl, hs.placed.of_eq rfl rfl rfl⟩ ()
  · exact .fault hs.regular _

/-- **A batch** is dealt with one constant after another. -/
theorem Accounts.compileBatch (hs : s.Accounts job batch h) :
    Keeps Accounts job [] h (batchHistory job batch s) (Session.compileBatch job batch s) := by
  induction batch generalizing s h with
  | nil => exact .done hs ()
  | cons c batch ih =>
    refine hs.compileConstant.bind fun entry t _ ht ↦ ?_
    exact (ht.fill c _ entry).bind fun _ u _ hu ↦ ih hu

/-- **The queue is taken** as it is, behind all that was taken before. -/
theorem Accounts.take (hs : s.Accounts job [] h) :
    Accounts job s.pending.toList (h ++ s.pending.toList.map .taken) { s with pending := #[] } where
  reserved := by
    rw [History.queued_append, History.queued_map_taken, List.append_nil]
    exact hs.reserved.of_slots_eq rfl
  balance := by simp [hs.balance]
  emitted := by
    refine ⟨History.taken h, by simp, ?_⟩
    simpa using hs.regular.emitted
  placed := by
    rw [History.emitted_append, History.emitted_map_taken, List.append_nil]
    exact hs.placed.of_eq rfl rfl rfl

/-- **All batches.** -/
theorem Accounts.drain (hs : s.Accounts job [] h) :
    Keeps Accounts job [] h (s.drainHistory job) (s.drain job) := by
  -- the history is by the same recursion as the loop, on the credit that a batch uses up
  induction hn : s.credit job using Nat.strong_induction_on generalizing s h with
  | _ n ih =>
    by_cases hempty : s.pending.isEmpty = true
    · rw [Session.drain, if_pos hempty, drainHistory, if_pos hempty]
      exact .done hs ()
    · rw [drain_eq_bind hempty, drainHistory_eq_after hempty]
      refine (hs.take.compileBatch.bind fun _ t hdone ht ↦ ?_).of_append
      exact ih _ (hn ▸ credit_lt_of_compileBatch hempty hdone) ht rfl

/-! ### Calls -/

/-- Filling in jumps concerns no constant, and moves nothing in the stream. -/
theorem Accounts.resolve (hs : s.Accounts job [] h) : Keeps Accounts job [] h [] s.resolve := by
  have hbalance : Keeps Balances job [] h [] s.resolve := by
    rw [Session.resolve]
    split
    · refine .done (hs.toBalances.of_eq ?_ ?_) ()
      all_goals rfl
    · refine .failed (hs.toBalances.of_eq ?_ ?_) _
      all_goals rfl
    · exact .fault hs.regular _
  refine hbalance.accounts ?_
  rw [show History.emitted [] = [] from rfl, List.append_nil]
  exact hs.placed.resolve

/-- **A run** is a request, then batches, then jumps. -/
theorem Accounts.run (hs : s.Accounts job [] h) :
    Keeps Accounts job [] h (s.runHistory job) (s.run job) := by
  rw [Session.run, runHistory]
  cases job.program.get? job.program.entry with
  | none => exact .failed hs _
  | some k =>
    cases k with
    | code body =>
      refine (hs.request job.program.entry).bind fun _ t _ ht ↦ ?_
      exact ht.drain.bind_silent fun _ u hu ↦ hu.resolve
    | _ => exact .failed hs _

/-- **A call** accounts for its events. -/
theorem Accounts.act (hs : s.Accounts job [] h) (call : Call) :
    Keeps Accounts job [] h (call.history job s) (call.act job s) := by
  cases call with
  | request c => exact (hs.request c).bind_silent fun _ _ ht ↦ .done ht ()
  | drain => exact hs.drain
  | run => exact hs.run

theorem accounts_start (job : Job) : (start job).Accounts job [] [] where
  reserved := reserved_start job
  balance := rfl
  emitted := ⟨[], rfl, .slnil⟩
  placed := placed_start job

/-- **Any number of calls** account for their history, whether they come to an end or to a fault. -/
theorem Accounts.history (hs : s.Accounts job [] h) (calls : List Call) :
    History.Regular job (h ++ history job calls s) ∧
      ∀ log t, replay job calls s = .ok (log, t) →
        t.Accounts job [] (h ++ history job calls s) := by
  induction calls generalizing s h with
  | nil =>
    rw [Session.history, List.append_nil]
    refine ⟨hs.regular, fun log t ht ↦ ?_⟩
    obtain ⟨-, rfl⟩ := Prod.mk.inj (Except.ok.inj ht)
    exact hs
  | cons call calls ih =>
    have hact := hs.act call
    rw [Session.history, Session.replay]
    cases hset : (call.act job s).settle with
    | ok x =>
      have hnext := ih (hact.settle hset)
      rw [List.append_assoc] at hnext
      refine ⟨hnext.1, fun log t ht ↦ ?_⟩
      obtain ⟨⟨log', u⟩, hrest, heq⟩ := exists_of_map_eq_ok ht
      obtain ⟨-, rfl⟩ := Prod.mk.inj heq
      exact hnext.2 log' u hrest
    -- a fault ends the history, and there is no state to account for
    | error f =>
      dsimp only
      rw [List.append_nil]
      refine ⟨hact.regular, ?_⟩
      rintro log t ⟨⟩

end Accounts

end Session

end RegisterBytecode
