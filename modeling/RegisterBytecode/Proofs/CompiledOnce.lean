import RegisterBytecode.Proofs.Session.History

/-!
# Every body is compiled once

Bodies may refer to themselves and to each other, and compiling one refills the queue that is being
emptied. That this comes to an end rests on the history of the session alone
(`Session.Accounts.history`): a constant enters the queue only with its slot, there are no more
slots than the limit allows, and no batch is empty.

`Session.lifetime` is the history from the start of a session through any calls. In all of it no
constant enters the queue twice, so the constants ever taken fit the limit and no body is emitted
twice; what the emitted bodies have left is all there is in the stream. From every state on the way,
draining is a number of rounds that is known beforehand (`Session.rounds`), after which the queue is
empty unless the rounds were cut short by a limit or a fault.
-/

namespace RegisterBytecode

namespace Session

/-- The history of a session from its start. -/
def lifetime (program : Program) (config : Config) (calls : List Call) : History :=
  history (Job.new program config) calls (start (Job.new program config))

/-! ### Rounds -/

/-- Up to `n` rounds of draining: as long as something is queued, the whole queue is taken and
compiled. -/
def rounds (job : Job) : Nat → Session → Outcome Session Unit
  | 0, s => .done () s
  | n + 1, s =>
    if s.pending.isEmpty then .done () s
    else
      (compileBatch job s.pending.toList { s with pending := #[] }).bind fun _ t ↦ rounds job n t

variable {job : Job} {s t : Session}

/-- **Each round uses up credit**, so that there are no more rounds than there is credit. -/
theorem drain_eq_rounds {n : Nat} (h : s.credit job ≤ n) : s.drain job = s.rounds job n := by
  induction n generalizing s with
  | zero =>
    have hsize : s.pending.size = 0 := by
      rw [credit] at h
      omega
    rw [drain, if_pos (Array.isEmpty_iff_size_eq_zero.2 hsize), rounds]
  | succ n ih =>
    rw [rounds]
    split
    · next hempty => rw [drain, if_pos hempty]
    · next hempty =>
      rw [drain_eq_bind hempty]
      cases hbatch : compileBatch job s.pending.toList { s with pending := #[] } with
      | done u t =>
        have hlt := credit_lt_of_compileBatch hempty hbatch
        exact ih (by omega)
      | failed e t => rfl
      | fault f => rfl

/-- Draining that ends with a value leaves nothing in the queue. -/
theorem pending_of_drain {u : Unit} (h : s.drain job = .done u t) : t.pending = #[] := by
  fun_induction Session.drain job s with
  | case1 s hempty =>
    obtain ⟨-, rfl⟩ := Outcome.done.inj h
    exact Array.isEmpty_iff.1 hempty
  | case2 s hempty v s' hbatch ih => exact ih h
  | case3 => cases h
  | case4 => cases h

/-- What waits has a slot, so the credit never exceeds the limit. -/
theorem Balances.credit_le {batch : List ConstIndex} {h : History} (hs : s.Balances job batch h) :
    s.credit job ≤ job.config.maxConstants := by
  have hlimit := hs.reserved.limit
  have hwaiting : s.pending.size ≤ s.slots.size := by
    rw [hs.reserved.size, hs.balance, List.length_append, ← Array.length_toList]
    exact Nat.le_add_left _ _
  rw [← hs.reserved.size] at hlimit
  rw [credit]
  omega

/-! ### The main theorem -/

/-- **Compilation ends and compiles every body once.** Whatever calls are made on a session, no
constant enters the queue twice; constants are taken in the order in which they entered, at most as
many as the limit allows; and bodies are emitted in that order, none of them twice.

A session that the calls have left behind has in its queue what was not taken. Its stream is, beside
the distances of jumps, what the emitted bodies have left, one piece for each, in order and with
nothing in between, and the noted ranges are those of the pieces. Draining the session is a bounded
number of rounds, which empty the queue if they end with a value. -/
theorem compiled_once (program : Program) (config : Config) (calls : List Call) :
    (History.queued (lifetime program config calls)).Nodup ∧
      History.taken (lifetime program config calls) <+:
        History.queued (lifetime program config calls) ∧
      (History.taken (lifetime program config calls)).length ≤
        min config.maxConstants poolLimit ∧
      (History.emitted (lifetime program config calls)).Sublist
        (History.taken (lifetime program config calls)) ∧
      (History.emitted (lifetime program config calls)).Nodup ∧
      ∀ log s, replay (Job.new program config) calls (start (Job.new program config)) =
          .ok (log, s) →
        History.queued (lifetime program config calls) =
            History.taken (lifetime program config calls) ++ s.pending.toList ∧
          s.ranges.size = (History.emitted (lifetime program config calls)).length ∧
          (∃ ps : List Piece,
            (History.emitted (lifetime program config calls)).map
                (Job.new program config).segment? = ps.map (fun p ↦ some p.segment) ∧
              Chunk.Agrees ((Job.new program config).pieceChunks
                (History.queued (lifetime program config calls)) ps) s.stream.code.toList ∧
              s.ranges.toList = (Job.new program config).pieceRanges
                (History.queued (lifetime program config calls)) 0 ps) ∧
          s.drain (Job.new program config) =
            s.rounds (Job.new program config) (min config.maxConstants poolLimit) ∧
          ∀ t, s.drain (Job.new program config) = .done () t → t.pending = #[] := by
  obtain ⟨hregular, hreached⟩ := (accounts_start (Job.new program config)).history calls
  have htaken : (History.taken (lifetime program config calls)).Nodup :=
    hregular.taken.sublist.nodup hregular.nodup
  refine ⟨hregular.nodup, hregular.taken, ?_, hregular.emitted, hregular.emitted.nodup htaken, ?_⟩
  · exact Nat.le_trans hregular.taken.length_le hregular.limit
  · intro log s hreplay
    have hs := hreached log s hreplay
    obtain ⟨order, ps, horder, hps, hbodies⟩ := hs.placed
    -- the pieces have the slots of the order in which constants entered the queue
    obtain rfl : History.queued (lifetime program config calls) = order :=
      hs.reserved.unique horder
    exact ⟨hs.balance, hs.placed.size_ranges, ⟨ps, hbodies, hps.stream.agrees, hps.ranges⟩,
      drain_eq_rounds hs.toBalances.credit_le, fun t ↦ pending_of_drain⟩

end Session

/-- Two bodies, each of which refers to itself and to the other. -/
def Program.knot : Program where
  constants := #[
    .code { name := "outer", code := #[.closure (.loc 0) 0 [], .closure (.loc 1) 1 []] },
    .code { name := "inner", code := #[.load (.loc 0) 1, .load (.loc 1) 0] }]

/-- The knot is compiled once, however often it is run and asked for. Its bodies stand in the stream
one behind the other. -/
theorem Session.compiled_once_knot :
    lifetime Program.knot {} [.run, .request 1, .drain, .run] =
        [.queued 0, .taken 0, .emitted 0, .queued 1, .taken 1, .emitted 1] ∧
      ∃ log s, replay (Job.new Program.knot {}) [.run, .request 1, .drain, .run]
          (start (Job.new Program.knot {})) = .ok (log, s) ∧ s.ranges.size = 2 ∧
        (∃ ps : List Piece,
          [0, 1].map (Job.new Program.knot {}).segment? = ps.map (fun p ↦ some p.segment) ∧
            Chunk.Agrees ((Job.new Program.knot {}).pieceChunks [0, 1] ps) s.stream.code.toList ∧
            [⟨0, 10⟩, ⟨10, 20⟩] = (Job.new Program.knot {}).pieceRanges [0, 1] 0 ps) ∧
        s.drain (Job.new Program.knot {}) = s.rounds (Job.new Program.knot {}) 65536 := by
  have hlife : lifetime Program.knot {} [.run, .request 1, .drain, .run] =
      [.queued 0, .taken 0, .emitted 0, .queued 1, .taken 1, .emitted 1] := by decide +kernel
  have heval : (replay (Job.new Program.knot {}) [.run, .request 1, .drain, .run]
      (start (Job.new Program.knot {}))).map (·.2.ranges.toList) = .ok [⟨0, 10⟩, ⟨10, 20⟩] := by
    decide +kernel
  obtain ⟨⟨log, s⟩, hreplay, hranges⟩ := exists_of_map_eq_ok heval
  obtain ⟨-, -, -, -, -, hreached⟩ :=
    compiled_once Program.knot {} [.run, .request 1, .drain, .run]
  obtain ⟨-, hsize, ⟨ps, hbodies, hcode, hpieces⟩, hrounds, -⟩ := hreached log s hreplay
  rw [hlife] at hsize hbodies hcode hpieces
  exact ⟨hlife, log, s, hreplay, hsize, ⟨ps, hbodies, hcode, hranges.symm.trans hpieces⟩, hrounds⟩

end RegisterBytecode
