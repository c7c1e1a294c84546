import RegisterBytecode.Proofs.Session.Calls

/-!
# When success means that everything is compiled

A drain takes all pending constants out of the queue before it compiles them. If one of them runs
into a limit, it and those behind it are in the queue no longer, their slots stay reserved, and
nothing ever queues them again. A later call may therefore find an empty queue and end well although
constants are missing.

Whether this has happened can be told by counting. `Session.Owes` says that of the constants asked
for, a certain number are neither compiled nor pending. A request leaves that number as it is, and
so does the compilation of a constant; a drain that ends well has paid for the batches that it took,
and one that fails owes more than before (`Session.Owes.drain`). Over any number of calls what is
owed never falls (`Session.Owes.replay`), and a call that ends with an empty queue is complete
exactly if nothing is owed.
-/

namespace RegisterBytecode

theorem Outcome.exists_eq_done_of_settle {σ : Type} {r : Outcome σ Unit}
    (h : r.settle.map Prod.fst = .ok none) : ∃ t, r = .done () t := by
  cases r with
  | done u t => exact ⟨t, rfl⟩
  | failed e t => cases h
  | fault f => cases h

namespace Session

/-- Of the constants asked for, `n` are neither compiled nor pending. -/
def Owes (job : Job) (n : Nat) (s : Session) : Prop :=
  ∃ order, s.Reserved job order ∧ order.length = s.pool.size + s.pending.size + n

section Owes

variable {job : Job} {n : Nat} {s t : Session} {batch : List ConstIndex}

theorem owes_start (job : Job) : (start job).Owes job 0 := ⟨[], reserved_start job, rfl⟩

/-- Slots are those of the pool, those that wait and those that are owed. -/
theorem Owes.size_slots (h : s.Owes job n) : s.slots.size = s.pool.size + s.pending.size + n := by
  obtain ⟨order, hres, hlen⟩ := h
  rw [hres.size, hlen]

/-- The stream and the places of bodies do not matter. -/
theorem Owes.of_eq (h : s.Owes job n) (hslots : t.slots = s.slots)
    (hpending : t.pending = s.pending) (hpool : t.pool = s.pool) : t.Owes job n := by
  obtain ⟨order, hres, hlen⟩ := h
  exact ⟨order, hres.of_slots_eq hslots, by rw [hpending, hpool, hlen]⟩

/-- A constant that is asked for is pending at once, so nothing more is owed. -/
theorem Grown.owes {order : List ConstIndex} (hg : t.Grown job order s.pending.toList s.pool)
    (hlen : order.length = s.pool.size + s.pending.size + n) : t.Owes job n := by
  obtain ⟨fresh, hres, hpending, hpool⟩ := hg
  have hsize : t.pending.size = s.pending.size + fresh.length := by
    rw [← Array.length_toList, hpending, List.length_append, Array.length_toList]
  refine ⟨order ++ fresh, hres, ?_⟩
  rw [List.length_append, hlen, hpool, hsize]
  omega

theorem Owes.request (h : s.Owes job n) (c : ConstIndex) :
    (s.request job c).Ends (fun _ ↦ Owes job n) (Owes job n) fun _ ↦ True := by
  obtain ⟨order, hres, hlen⟩ := h
  exact (hres.grown.request c).mono (fun _ _ hg ↦ hg.owes hlen) (fun _ hg ↦ hg.owes hlen)
    fun _ _ ↦ trivial

/-! ### Batches -/

/-- Compiling a constant asks for others, and owes none of them. -/
theorem Owes.compileConstant (h : s.Owes job n) (c : ConstIndex) :
    (s.compileConstant job c).Ends (fun _ ↦ Owes job n) (Owes job n) fun _ ↦ True := by
  obtain ⟨order, hres, hlen⟩ := h
  exact (hres.grown.compileConstant c).mono (fun _ _ hg ↦ hg.1.owes hlen) (fun _ hg ↦ hg.owes hlen)
    fun _ _ ↦ trivial

/-- An entry of the pool pays for one constant. -/
theorem Owes.fill (h : s.Owes job (n + 1)) (c : ConstIndex) (reserved : Option UInt16)
    (entry : Entry) :
    (s.fill c reserved entry).Ends (fun _ ↦ Owes job n) (fun _ ↦ False) fun _ ↦ True := by
  obtain ⟨order, hres, hlen⟩ := h
  rw [Session.fill]
  split
  · refine ⟨order, hres.of_slots_eq rfl, ?_⟩
    show order.length = (s.pool.push entry).size + s.pending.size + n
    rw [Array.size_push, hlen]
    omega
  · trivial

/-- **A batch** is owed once it has been taken from the queue. It is paid for constant by constant;
where a limit cuts it short, at least the constant that ran into it stays owed. -/
theorem Owes.compileBatch (h : s.Owes job (n + batch.length)) :
    (Session.compileBatch job batch s).Ends (fun _ ↦ Owes job n) (fun t ↦ ∃ m, n < m ∧ t.Owes job m)
      fun _ ↦ True := by
  induction batch generalizing s with
  | nil => exact h
  -- at a limit `c` and all behind it stay owed, which is more than `n`
  | cons c batch ih =>
    rw [Session.compileBatch]
    refine ((h.compileConstant c).mono (fun _ _ hd ↦ hd) (fun t ht ↦ ?_) fun _ hf ↦ hf).bind
      fun entry t ht ↦ ?_
    · exact ⟨_, Nat.lt_add_of_pos_right (Nat.zero_lt_succ _), ht⟩
    · exact ((Owes.fill ht c _ entry).mono (fun _ _ hd ↦ hd) (fun _ ↦ False.elim)
        fun _ hf ↦ hf).bind fun _ u hu ↦ ih hu

/-- Constants that leave the queue are owed. -/
theorem Owes.take (h : s.Owes job n) :
    Owes job (n + s.pending.toList.length) { s with pending := #[] } := by
  obtain ⟨order, hres, hlen⟩ := h
  refine ⟨order, hres.of_slots_eq rfl, ?_⟩
  show order.length = s.pool.size + 0 + (n + s.pending.toList.length)
  rw [hlen, Array.length_toList]
  omega

/-- **All batches**: what was owed before stays owed, and a limit adds to it. -/
theorem Owes.drain (h : s.Owes job n) :
    (s.drain job).Ends (fun _ t ↦ t.Owes job n ∧ t.pending = #[])
      (fun t ↦ ∃ m, n < m ∧ t.Owes job m) fun _ ↦ True := by
  fun_induction Session.drain job s with
  | case1 s hempty => exact ⟨h, Array.isEmpty_iff.1 hempty⟩
  | case2 s hempty v s' hbatch ih =>
    have hnext := h.take.compileBatch
    rw [hbatch] at hnext
    exact ih hnext
  | case3 s hempty e s' hbatch =>
    have hnext := h.take.compileBatch
    rwa [hbatch] at hnext
  | case4 => trivial

/-! ### Calls -/

theorem Owes.resolve (h : s.Owes job n) :
    s.resolve.Ends (fun _ t ↦ t.Owes job n ∧ t.pending = s.pending) (Owes job n) fun _ ↦ True := by
  rw [Session.resolve]
  split
  · exact ⟨h.of_eq rfl rfl rfl, rfl⟩
  · exact h.of_eq rfl rfl rfl
  · trivial

/-- A run may also fail before it compiles anything, or when everything is compiled. -/
theorem Owes.run (h : s.Owes job n) :
    (s.run job).Ends (fun _ t ↦ t.Owes job n ∧ t.pending = #[])
      (fun t ↦ ∃ m, n ≤ m ∧ t.Owes job m) fun _ ↦ True := by
  rw [Session.run]
  split
  · refine ((h.request _).mono (fun _ _ hd ↦ hd) (fun t ht ↦ ⟨n, Nat.le_refl n, ht⟩)
      fun _ hf ↦ hf).bind fun _ t ht ↦ ?_
    -- of the three steps only draining can owe more, so `n < m` there becomes `n ≤ m` here
    refine ((Owes.drain ht).mono (fun _ _ hd ↦ hd) (fun u hu ↦ ?_) fun _ hf ↦ hf).bind
      fun _ u hu ↦ ?_
    · obtain ⟨m, hm, hu⟩ := hu
      exact ⟨m, Nat.le_of_lt hm, hu⟩
    · obtain ⟨hu, hempty⟩ := hu
      refine hu.resolve.mono (fun _ v hv ↦ ⟨hv.1, hv.2.trans hempty⟩)
        (fun v hv ↦ ⟨n, Nat.le_refl n, hv⟩) fun _ hf ↦ hf
  · exact ⟨n, Nat.le_refl n, h⟩

/-- **A call** that ends well owes what was owed before, with an empty queue if it compiles. Only a
call that compiles can owe more, and a drain that fails does. -/
theorem Owes.act (h : s.Owes job n) (call : Call) :
    (call.act job s).Ends (fun _ t ↦ t.Owes job n ∧ (call.compiles = true → t.pending = #[]))
      (fun t ↦ ∃ m, n ≤ m ∧ t.Owes job m ∧ (call.compiles = false → m = n) ∧
        (call = .drain → n < m)) fun _ ↦ True := by
  cases call with
  | request c =>
    refine ((h.request c).mono (fun _ _ hd ↦ hd) (fun t ht ↦ ?_) fun _ hf ↦ hf).bind
      fun _ t ht ↦ ⟨ht, nofun⟩
    exact ⟨n, Nat.le_refl n, ht, fun _ ↦ rfl, nofun⟩
  | drain =>
    exact h.drain.mono (fun _ t ⟨ht, hempty⟩ ↦ ⟨ht, fun _ ↦ hempty⟩)
      (fun t ⟨m, hm, ht⟩ ↦ ⟨m, Nat.le_of_lt hm, ht, nofun, fun _ ↦ hm⟩) fun _ hf ↦ hf
  | run =>
    exact h.run.mono (fun _ t ⟨ht, hempty⟩ ↦ ⟨ht, fun _ ↦ hempty⟩)
      (fun t ⟨m, hm, ht⟩ ↦ ⟨m, hm, ht, nofun, nofun⟩) fun _ hf ↦ hf

/-- A call that returns no error owes nothing more, and draining that returns one does. -/
theorem Owes.settle (h : s.Owes job n) {call : Call} {e : Option CompileError}
    (hs : (call.act job s).settle = .ok (e, t)) :
    ∃ m, n ≤ m ∧ t.Owes job m ∧ ((call.compiles = true → e = none) → m = n) ∧
      (call = .drain → e ≠ none → n < m) := by
  have hact := h.act call
  cases hcall : call.act job s with
  | done v u =>
    rw [hcall] at hact hs
    obtain ⟨rfl, rfl⟩ := Prod.mk.inj (Except.ok.inj hs)
    exact ⟨n, Nat.le_refl n, hact.1, fun _ ↦ rfl, fun _ hne ↦ absurd rfl hne⟩
  | failed e' u =>
    rw [hcall] at hact hs
    obtain ⟨rfl, rfl⟩ := Prod.mk.inj (Except.ok.inj hs)
    obtain ⟨m, hm, hu, hquiet, hdrain⟩ := hact
    refine ⟨m, hm, hu, fun hnone ↦ hquiet ?_, fun hc _ ↦ hdrain hc⟩
    exact Bool.eq_false_iff.2 fun hc ↦ absurd (hnone hc) nofun
  | fault f =>
    rw [hcall] at hs
    cases hs

/-- **Any number of calls.** What is owed never falls; it stays the same as long as no call that
compiles has failed, and it has grown if a drain has. -/
theorem Owes.replay (h : s.Owes job n) {calls : List Call} {log : List (Call × Option CompileError)}
    (hr : Session.replay job calls s = .ok (log, t)) :
    ∃ m, n ≤ m ∧ t.Owes job m ∧ ((∀ x ∈ log, x.1.compiles = true → x.2 = none) → m = n) ∧
      ((∃ e, (Call.drain, some e) ∈ log) → n < m) := by
  induction calls generalizing s n log with
  | nil =>
    obtain ⟨rfl, rfl⟩ := Prod.mk.inj (Except.ok.inj hr)
    exact ⟨n, Nat.le_refl n, h, fun _ ↦ rfl, fun ⟨e, he⟩ ↦ nomatch he⟩
  | cons call calls ih =>
    obtain ⟨e, s', log', hact, hrest, rfl⟩ := replay_cons_eq_ok hr
    obtain ⟨m, hm, hs', hquiet, hdrain⟩ := h.settle hact
    obtain ⟨m', hm', ht, hquiet', hdrain'⟩ := ih hs' hrest
    refine ⟨m', Nat.le_trans hm hm', ht, fun hall ↦ ?_, fun ⟨e', he'⟩ ↦ ?_⟩
    · obtain ⟨hfirst, hlater⟩ := List.forall_mem_cons.1 hall
      rw [hquiet' hlater, hquiet hfirst]
    · rcases List.mem_cons.1 he' with heq | hmem
      · obtain ⟨rfl, rfl⟩ := Prod.mk.inj heq
        exact Nat.lt_of_lt_of_le (hdrain rfl nofun) hm'
      · exact Nat.lt_of_le_of_lt hm (hdrain' ⟨e', hmem⟩)

end Owes

/-! ### The main theorem -/

/-- **What success means after arbitrary calls.** A drain or run that ends well has every constant
asked for in the pool exactly if before it each of them was compiled or pending. That is so if no
earlier drain or run has returned an error, and it is not so if an earlier drain has. -/
theorem complete_iff_of_replay {program : Program} {config : Config} {calls : List Call}
    {log : List (Call × Option CompileError)} {s t : Session} {call : Call} {u : Unit}
    (h : replay (Job.new program config) calls (start (Job.new program config)) = .ok (log, s))
    (hcall : call = .drain ∨ call = .run)
    (ht : call.act (Job.new program config) s = .done u t) :
    (t.pool.size = t.slots.size ↔ s.pool.size + s.pending.size = s.slots.size) ∧
      ((∀ x ∈ log, x.1 = .drain ∨ x.1 = .run → x.2 = none) → t.pool.size = t.slots.size) ∧
      ((∃ e, (Call.drain, some e) ∈ log) → t.pool.size < t.slots.size) := by
  have hcompiles : ∀ c : Call, c.compiles = true ↔ c = .drain ∨ c = .run := by
    intro c
    cases c <;> simp [Call.compiles]
  obtain ⟨m, -, hs, hquiet, hdrain⟩ := (owes_start (Job.new program config)).replay h
  have hact := hs.act call
  rw [ht] at hact
  obtain ⟨howes, hempty⟩ := hact
  have hbefore := hs.size_slots
  have hafter := howes.size_slots
  rw [hempty ((hcompiles call).2 hcall), Array.size_empty] at hafter
  refine ⟨by omega, fun hall ↦ ?_, fun hfailed ↦ ?_⟩
  · have := hquiet fun x hx hc ↦ hall x hx ((hcompiles x.1).1 hc)
    omega
  · have := hdrain hfailed
    omega

end Session

/-- A program whose entry needs a second constant in the pool. -/
def Program.twoSlots : Program where
  constants := #[.code { name := "main", code := #[.load (.loc 0) 1] }, .nil]

namespace Session

/-- With one slot the entry cannot be compiled. After the drain that finds this out, a run ends well
with a slot that is reserved and not filled. -/
theorem complete_iff_twoSlots :
    ∃ (log : List (Call × Option CompileError)) (s t : Session) (e : CompileError),
      replay (Job.new Program.twoSlots { maxConstants := 1 }) [.request 0, .drain]
          (start (Job.new Program.twoSlots { maxConstants := 1 })) = .ok (log, s) ∧
        (Call.drain, some e) ∈ log ∧
        s.run (Job.new Program.twoSlots { maxConstants := 1 }) = .done () t ∧
        t.pool.size < t.slots.size := by
  have heval : (replay (Job.new Program.twoSlots { maxConstants := 1 }) [.request 0, .drain]
      (start (Job.new Program.twoSlots { maxConstants := 1 }))).map (fun x ↦ (x.1,
        (x.2.run (Job.new Program.twoSlots { maxConstants := 1 })).settle.map Prod.fst)) =
      .ok ([(.request 0, none), (.drain, some ⟨.constants 1, none⟩)], .ok none) := by decide +kernel
  obtain ⟨⟨log, s⟩, hreplay, hs⟩ := exists_of_map_eq_ok heval
  obtain ⟨rfl, hrun⟩ := Prod.mk.inj hs
  obtain ⟨t, ht⟩ := Outcome.exists_eq_done_of_settle hrun
  have hact : Call.run.act (Job.new Program.twoSlots { maxConstants := 1 }) s = .done () t := ht
  have hmem : (Call.drain, some (⟨.constants 1, none⟩ : CompileError)) ∈
      [(Call.request 0, none), (Call.drain, some ⟨.constants 1, none⟩)] := by simp
  have hmain := complete_iff_of_replay hreplay (Or.inr rfl) hact
  exact ⟨_, s, t, _, hreplay, hmem, ht, hmain.2.2 ⟨_, hmem⟩⟩

/-- **Success after a failed call is not completeness.** Of two runs in a row the first runs into
the limit and the second ends well, with the entry reserved and the pool empty. -/
theorem incomplete_after_retry :
    ∃ (log : List (Call × Option CompileError)) (s : Session),
      replay (Job.new Program.twoSlots { maxConstants := 1 }) [.run, .run]
          (start (Job.new Program.twoSlots { maxConstants := 1 })) = .ok (log, s) ∧
        log = [(.run, some ⟨.constants 1, none⟩), (.run, none)] ∧
        s.pool.size = 0 ∧ s.slots.size = 1 := by
  have heval : (replay (Job.new Program.twoSlots { maxConstants := 1 }) [.run, .run]
      (start (Job.new Program.twoSlots { maxConstants := 1 }))).map (fun x ↦ (x.1, x.2.pool.size,
        x.2.slots.size)) = .ok ([(.run, some ⟨.constants 1, none⟩), (.run, none)], 0, 1) := by
    decide +kernel
  obtain ⟨⟨log, s⟩, hreplay, hs⟩ := exists_of_map_eq_ok heval
  obtain ⟨hlog, hs⟩ := Prod.mk.inj hs
  obtain ⟨hpool, hslots⟩ := Prod.mk.inj hs
  exact ⟨log, s, hreplay, hlog, hpool, hslots⟩

end Session

end RegisterBytecode
