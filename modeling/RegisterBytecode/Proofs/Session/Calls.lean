import RegisterBytecode.Proofs.Session.Growth

/-!
# Sessions under arbitrary calls

A session may be asked for constants, drained and run in any order, and it stays in use after a call
that ran into a limit. `Session.replay` makes calls one after another and logs which of them did so.

A limit in the middle of a batch leaves a session behind in which reserved slots are not filled and
the rest of the batch is forgotten. What remains true is `Session.Queued`: the constants that wait
are **some** of those whose slots are not filled, still in the order of their slots. As long as no
batch has been cut short they are all of them. A constant therefore enters the pool only at its own
slot, and a slot that cannot be filled in turn is noticed, which can happen only after a batch has
been cut short.

One constant keeps this (`Session.Queued.compileConstant`, `Session.Queued.fill`), and with it a
batch, all batches, a call (`Session.Queued.act`) and any number of calls
(`Session.Queued.replay`).
-/

namespace RegisterBytecode

/-! ### Calls -/

/-- A call on a session. -/
inductive Call where
  /-- Ask for a constant. -/
  | request (index : ConstIndex)
  /-- Compile what is queued. -/
  | drain
  /-- Compile the whole program. -/
  | run
  deriving DecidableEq, Repr

namespace Call

/-- Whether a call compiles constants. -/
def compiles : Call → Bool
  | request _ => false
  | drain => true
  | run => true

/-- What a call does to a session. -/
def act (job : Job) : Call → Session → Outcome Session Unit
  | request index, s => (s.request job index).bind fun _ s ↦ .done () s
  | drain, s => s.drain job
  | run, s => s.run job

end Call

/-- The error that a step returned, if any, and the state that it left. -/
def Outcome.settle {σ α : Type} : Outcome σ α → Except Fault (Option CompileError × σ)
  | .done _ s => .ok (none, s)
  | .failed e s => .ok (some e, s)
  | .fault f => .error f

theorem Outcome.eq_fault_of_settle {σ α β : Type} {r : Outcome σ α}
    {g : Option CompileError × σ → β} {f : Fault} (h : r.settle.map g = .error f) :
    r = .fault f := by
  cases r with
  | done a s => cases h
  | failed e s => cases h
  | fault f' => rw [Except.error.inj h]

/-- Make calls one after another, each on the state that the one before it left, and log the errors
that they return. A fault ends the session. -/
def Session.replay (job : Job) :
    List Call → Session → Except Fault (List (Call × Option CompileError) × Session)
  | [], s => .ok ([], s)
  | call :: calls, s =>
    match (call.act job s).settle with
    | .ok (e, t) => (replay job calls t).map fun (log, u) ↦ ((call, e) :: log, u)
    | .error f => .error f

/-- Calls that all return are a first one that returns and others behind it. -/
theorem Session.replay_cons_eq_ok {job : Job} {call : Call} {calls : List Call} {s t : Session}
    {log : List (Call × Option CompileError)} (h : replay job (call :: calls) s = .ok (log, t)) :
    ∃ e s' log', (call.act job s).settle = .ok (e, s') ∧ replay job calls s' = .ok (log', t) ∧
      log = (call, e) :: log' := by
  rw [replay] at h
  split at h
  · next e s' hact =>
    obtain ⟨⟨log', u⟩, hrest, heq⟩ := exists_of_map_eq_ok h
    obtain ⟨rfl, rfl⟩ := Prod.mk.inj heq
    exact ⟨e, s', log', hact, hrest, rfl⟩
  · cases h

namespace Session

/-! ### What waits -/

/-- A session in which the pool is filled up to some slot and of the constants behind it, `batch`
and then the pending ones wait, in order. If the session is intact, none is missing. -/
structure Queued (job : Job) (intact : Prop) (order batch : List ConstIndex) (s : Session) :
    Prop where
  reserved : s.Reserved job order
  filled : s.pool.size ≤ order.length
  waiting : (batch ++ s.pending.toList).Sublist (order.drop s.pool.size)
  complete : intact → batch ++ s.pending.toList = order.drop s.pool.size
  entries : ∀ (n : Nat) (e : Entry), s.pool[n]? = some e →
    ∃ c k, order[n]? = some c ∧ job.program.get? c = some k ∧ e.Represents k

section Queued

variable {job : Job} {intact intact' : Prop} {order batch : List ConstIndex} {s t : Session}
  {c : ConstIndex}

theorem queued_start (job : Job) : (start job).Queued job True [] [] where
  reserved := reserved_start job
  filled := Nat.zero_le _
  waiting := .slnil
  complete := fun _ ↦ rfl
  entries := nofun

theorem Queued.mono (h : s.Queued job intact order batch) (hi : intact' → intact) :
    s.Queued job intact' order batch :=
  { h with complete := h.complete ∘ hi }

/-- The stream and the places of bodies do not matter. -/
theorem Queued.of_eq (h : s.Queued job intact order batch) (hslots : t.slots = s.slots)
    (hpending : t.pending = s.pending) (hpool : t.pool = s.pool) :
    t.Queued job intact order batch where
  reserved := h.reserved.of_slots_eq hslots
  filled := hpool ▸ h.filled
  waiting := by
    rw [hpending, hpool]
    exact h.waiting
  complete := by
    rw [hpending, hpool]
    exact h.complete
  entries := hpool ▸ h.entries

/-- What is left when a batch is cut short. -/
theorem Queued.cut (h : s.Queued job intact order batch) : s.Queued job False order [] where
  reserved := h.reserved
  filled := h.filled
  waiting := (List.sublist_append_right batch s.pending.toList).trans h.waiting
  complete := False.elim
  entries := h.entries

/-- The pending constants become the next batch. -/
theorem Queued.take (h : s.Queued job intact order []) :
    Queued job intact order s.pending.toList { s with pending := #[] } where
  reserved := h.reserved.of_slots_eq rfl
  filled := h.filled
  waiting := by
    rw [List.append_nil]
    exact h.waiting
  complete := by
    rw [List.append_nil]
    exact h.complete
  entries := h.entries

/-- Constants that have been asked for wait behind all others. -/
theorem Queued.grown (h : s.Queued job intact order batch)
    (hg : t.Grown job order s.pending.toList s.pool) :
    ∃ fresh, t.Queued job intact (order ++ fresh) batch := by
  obtain ⟨fresh, hres, hpending, hpool⟩ := hg
  have hdrop : (order ++ fresh).drop s.pool.size = order.drop s.pool.size ++ fresh :=
    List.drop_append_of_le_length h.filled
  refine ⟨fresh, hres, ?_, ?_, ?_, ?_⟩
  · rw [hpool, List.length_append]
    exact Nat.le_add_right_of_le h.filled
  · rw [hpending, hpool, hdrop, ← List.append_assoc]
    exact h.waiting.append (List.Sublist.refl fresh)
  · intro hi
    rw [hpending, hpool, hdrop, ← List.append_assoc, h.complete hi]
  · intro n e he
    rw [hpool] at he
    obtain ⟨c, k, hc, hk⟩ := h.entries n e he
    exact ⟨c, k, List.getElem?_append_left (List.getElem?_eq_some_iff.1 hc).1 ▸ hc, hk⟩

/-! ### One constant -/

/-- A constant keeps its slot when more constants are asked for. -/
theorem Grown.slots_eq {waiting : List ConstIndex} {pool : Array Entry} (hs : s.Reserved job order)
    (h : t.Grown job order waiting pool) (hc : c ∈ order) : t.slots[c]? = s.slots[c]? := by
  obtain ⟨fresh, hres, -, -⟩ := h
  rw [hres.slots, hs.slots, if_pos hc, if_pos (List.mem_append_left fresh hc), slotOf_append hc]

/-- The next constant of a batch has a slot that is not filled. -/
theorem Queued.mem_drop (h : s.Queued job intact order (c :: batch)) :
    c ∈ order.drop s.pool.size :=
  h.waiting.subset (List.mem_append_left _ List.mem_cons_self)

/-- **Compiling the next constant** of a batch. -/
theorem Queued.compileConstant (h : s.Queued job intact order (c :: batch)) :
    (s.compileConstant job c).Ends
      (fun entry t ↦ t.slots[c]? = s.slots[c]? ∧
        (∃ order', t.Queued job intact order' (c :: batch)) ∧
        ∃ k, job.program.get? c = some k ∧ entry.Represents k)
      (fun t ↦ ∃ order', t.Queued job False order' []) (·.isMismatch = false) := by
  refine (h.reserved.grown.compileConstant c).mono ?_ ?_ fun _ hf ↦ hf
  · rintro entry t ⟨hg, hk⟩
    obtain ⟨fresh, ht⟩ := h.grown hg
    exact ⟨hg.slots_eq h.reserved (List.mem_of_mem_drop h.mem_drop), ⟨_, ht⟩, hk⟩
  · intro t hg
    obtain ⟨fresh, ht⟩ := h.grown hg
    exact ⟨_, ht.cut⟩

/-- **The slot that is noted for the next constant** is that of the next entry only if it is the
place of the constant. -/
theorem Queued.getElem?_order (h : s.Queued job intact order (c :: batch))
    (hslot : s.slots[c]? = some s.pool.size.toUInt16) : order[s.pool.size]? = some c := by
  have hmem : c ∈ order := List.mem_of_mem_drop h.mem_drop
  have hlt : s.pool.size < order.length := by
    by_contra hge
    have hdrop := h.mem_drop
    rw [List.drop_of_length_le (Nat.not_lt.1 hge)] at hdrop
    cases hdrop
  rw [h.reserved.slots, if_pos hmem] at hslot
  -- neither place is cut off when it becomes a word, so equal words are equal places
  have hidx : order.idxOf c = s.pool.size := by
    rw [← toNat_slotOf h.reserved.length_le hmem, Option.some.inj hslot]
    exact UInt16.toNat_ofNat_of_lt' (Nat.lt_of_lt_of_le hlt h.reserved.length_le)
  rw [← hidx]
  exact List.getElem?_idxOf hmem

/-- In an intact session the next constant is that of the next slot. -/
theorem Queued.slot_eq (h : s.Queued job intact order (c :: batch)) (hi : intact) :
    s.slots[c]? = some s.pool.size.toUInt16 := by
  have hmem : c ∈ order := List.mem_of_mem_drop h.mem_drop
  have hnext : order[s.pool.size]? = some c := by
    rw [← Nat.add_zero s.pool.size, ← List.getElem?_drop, ← h.complete hi]
    rfl
  obtain ⟨hlt, rfl⟩ := List.getElem?_eq_some_iff.1 hnext
  rw [h.reserved.slots, if_pos hmem, slotOf, h.reserved.nodup.idxOf_getElem]

/-- **The next entry enters the pool** at the slot of its constant or not at all, and in an intact
session it does enter. -/
theorem Queued.fill {entry : Entry} {k : Constant} (h : s.Queued job intact order (c :: batch))
    (hk : job.program.get? c = some k) (hrep : entry.Represents k) :
    (s.fill c s.slots[c]? entry).Ends (fun _ t ↦ t.Queued job intact order batch)
      (fun _ ↦ False) (fun _ ↦ ¬intact) := by
  rw [Session.fill]
  split
  · next hslot =>
    have hnext := h.getElem?_order hslot
    obtain ⟨hlt, hget⟩ := List.getElem?_eq_some_iff.1 hnext
    -- `c` is the first that the pool lacks, and its entry shortens both lists by it
    have hdrop : order.drop s.pool.size = c :: order.drop (s.pool.size + 1) := by
      rw [List.drop_eq_getElem_cons hlt, hget]
    have hwaiting := h.waiting
    rw [hdrop] at hwaiting
    refine ⟨h.reserved.of_slots_eq rfl, ?_, ?_, ?_, ?_⟩
    · show (s.pool.push entry).size ≤ order.length
      rw [Array.size_push]
      exact hlt
    · show (batch ++ s.pending.toList).Sublist (order.drop (s.pool.push entry).size)
      rw [Array.size_push]
      exact hwaiting.of_cons_cons
    · intro hi
      show batch ++ s.pending.toList = order.drop (s.pool.push entry).size
      have hall := h.complete hi
      rw [hdrop] at hall
      rw [Array.size_push]
      exact (List.cons.inj hall).2
    · intro n e he
      rw [Array.getElem?_push] at he
      split at he
      · next hn =>
        obtain rfl := Option.some.inj he
        exact ⟨c, k, hn ▸ hnext, hk, hrep⟩
      · exact h.entries n e he
  · next hslot => exact fun hi ↦ hslot (h.slot_eq hi)

/-! ### Batches and calls -/

/-- A step that compiles constants: it keeps an intact session intact unless a limit cuts it short,
and there is no wrong slot while the session is intact. -/
def Serves (job : Job) (intact : Prop) : Outcome Session Unit → Prop :=
  Outcome.Ends (fun _ t ↦ ∃ order, t.Queued job intact order [])
    (fun t ↦ ∃ order, t.Queued job False order []) fun f ↦ intact → f.isMismatch = false

/-- **A batch** is compiled one constant after another. -/
theorem Queued.compileBatch (h : s.Queued job intact order batch) :
    Serves job intact (Session.compileBatch job batch s) := by
  induction batch generalizing s order with
  | nil => exact ⟨order, h⟩
  | cons c batch ih =>
    rw [Session.compileBatch]
    refine (h.compileConstant.mono (fun _ _ hd ↦ hd) (fun _ he ↦ he) fun _ hf _ ↦ hf).bind ?_
    rintro entry t ⟨hslots, ⟨order', ht⟩, k, hk, hrep⟩
    rw [← hslots]
    refine ((ht.fill hk hrep).mono (fun _ _ hd ↦ hd) (fun _ ↦ False.elim) ?_).bind
      fun _ u hu ↦ ih hu
    exact fun _ hnot hi ↦ absurd hi hnot

/-- **All batches**, up to the first that is cut short. -/
theorem Queued.drain (h : s.Queued job intact order []) : Serves job intact (s.drain job) := by
  fun_induction Session.drain job s generalizing order with
  | case1 s => exact ⟨order, h⟩
  | case2 s hempty v s' hbatch ih =>
    have hnext := h.take.compileBatch
    rw [hbatch] at hnext
    obtain ⟨order', h'⟩ := hnext
    exact ih h'
  | case3 s hempty e s' hbatch =>
    have hnext := h.take.compileBatch
    rwa [hbatch] at hnext
  | case4 s hempty f hbatch =>
    have hnext := h.take.compileBatch
    rwa [hbatch] at hnext

/-- A request cuts nothing short, granted or refused. -/
theorem Queued.request (h : s.Queued job intact order []) (c : ConstIndex) :
    (s.request job c).Ends (fun _ t ↦ ∃ order, t.Queued job intact order [])
      (fun t ↦ ∃ order, t.Queued job intact order []) (·.isMismatch = false) := by
  refine (h.reserved.grown.request c).mono (fun _ t hg ↦ ?_) (fun t hg ↦ ?_) fun _ hf ↦ hf
  all_goals
    obtain ⟨fresh, ht⟩ := h.grown hg
    exact ⟨_, ht⟩

/-- Filling in jumps touches neither the pool nor the queue. -/
theorem Queued.resolve (h : s.Queued job intact order []) : Serves job intact s.resolve := by
  have hpatch := s.stream.resolve_ends s.ranges
  rw [Session.resolve]
  split
  · exact ⟨order, h.of_eq rfl rfl rfl⟩
  · exact ⟨order, h.cut.of_eq rfl rfl rfl⟩
  · next f hf =>
    rw [hf] at hpatch
    exact fun _ ↦ hpatch

theorem Queued.run (h : s.Queued job intact order []) : Serves job intact (s.run job) := by
  rw [Session.run]
  split
  · refine ((h.request job.program.entry).mono (fun _ _ hd ↦ hd) ?_ fun _ hf _ ↦ hf).bind ?_
    · rintro t ⟨order', ht⟩
      exact ⟨order', ht.cut⟩
    · rintro _ t ⟨order', ht⟩
      exact ht.drain.bind fun _ u ⟨order'', hu⟩ ↦ hu.resolve
  · exact ⟨order, h.cut⟩

/-- **A call** keeps the description; only a call that compiles and runs into a limit can leave a
session that is not intact. -/
theorem Queued.act (h : s.Queued job intact order []) (call : Call) :
    (call.act job s).Ends (fun _ t ↦ ∃ order, t.Queued job intact order [])
      (fun t ↦ ∃ order, t.Queued job (intact ∧ call.compiles = false) order [])
      fun f ↦ intact → f.isMismatch = false := by
  cases call with
  | request c =>
    refine ((h.request c).mono (fun _ _ hd ↦ hd) ?_ fun _ hf _ ↦ hf).bind fun _ _ hd ↦ hd
    rintro t ⟨order', ht⟩
    exact ⟨order', ht.mono And.left⟩
  | drain =>
    refine h.drain.mono (fun _ _ hd ↦ hd) ?_ fun _ hf ↦ hf
    rintro t ⟨order', ht⟩
    exact ⟨order', ht.mono fun hi ↦ absurd hi.2 nofun⟩
  | run =>
    refine h.run.mono (fun _ _ hd ↦ hd) ?_ fun _ hf ↦ hf
    rintro t ⟨order', ht⟩
    exact ⟨order', ht.mono fun hi ↦ absurd hi.2 nofun⟩

/-- A call that compiles and returns an error is the only one behind which a session may not be
intact. -/
theorem Queued.settle (h : s.Queued job intact order []) {call : Call} {e : Option CompileError}
    (hs : (call.act job s).settle = .ok (e, t)) :
    ∃ order, t.Queued job (intact ∧ (call.compiles → e = none)) order [] := by
  have hact := h.act call
  cases hcall : call.act job s with
  | done v u =>
    rw [hcall] at hact hs
    obtain ⟨rfl, rfl⟩ := Prod.mk.inj (Except.ok.inj hs)
    obtain ⟨order', h'⟩ := hact
    exact ⟨order', h'.mono And.left⟩
  | failed e' u =>
    rw [hcall] at hact hs
    obtain ⟨rfl, rfl⟩ := Prod.mk.inj (Except.ok.inj hs)
    obtain ⟨order', h'⟩ := hact
    refine ⟨order', h'.mono fun ⟨hi, hnone⟩ ↦ ⟨hi, ?_⟩⟩
    exact Bool.eq_false_iff.2 fun hc ↦ absurd (hnone hc) nofun
  | fault f =>
    rw [hcall] at hs
    cases hs

/-- **Any number of calls.** The session is intact as long as no call that compiles has run into a
limit. -/
theorem Queued.replay (h : s.Queued job intact order []) {calls : List Call}
    {log : List (Call × Option CompileError)} (hr : Session.replay job calls s = .ok (log, t)) :
    ∃ order, t.Queued job (intact ∧ ∀ x ∈ log, x.1.compiles → x.2 = none) order [] := by
  induction calls generalizing s intact order log with
  | nil =>
    obtain ⟨rfl, rfl⟩ := Prod.mk.inj (Except.ok.inj hr)
    exact ⟨order, h.mono And.left⟩
  | cons call calls ih =>
    obtain ⟨e, s', log', hact, hrest, rfl⟩ := replay_cons_eq_ok hr
    obtain ⟨order', h'⟩ := h.settle hact
    obtain ⟨order'', h''⟩ := ih h' hrest
    refine ⟨order'', h''.mono fun ⟨hi, hall⟩ ↦ ?_⟩
    obtain ⟨hfirst, hlater⟩ := List.forall_mem_cons.1 hall
    exact ⟨⟨hi, hfirst⟩, hlater⟩

end Queued

end Session

end RegisterBytecode
