import Mathlib.Data.Set.Function
import RegisterBytecode.Proofs.Disassembly
import RegisterBytecode.Proofs.Session.Calls

/-!
# The discipline of pool slots

Whatever calls are made on a session, and whichever of them return errors, its reservations number
the constants asked for without gaps, within the limit, and its pool holds compiled constants at the
slots that are reserved for them (`Session.SlotDiscipline`). That a constant is found to have
another slot than the next one is a fault, and one that an intact session never raises: some earlier
call that compiles must have returned an error (`Session.slotDiscipline_of_replay`).
-/

namespace RegisterBytecode

namespace Session

/-- Reservations and pool of a session agree. -/
structure SlotDiscipline (program : Program) (config : Config) (s : Session) : Prop where
  /-- The constants asked for have the slots from zero on, one each. -/
  bijOn : Set.BijOn (fun c ↦ (s.slots.getD c 0).toNat) {c | c ∈ s.slots} (Set.Iio s.slots.size)
  /-- There are no more slots than the clamped limit allows. -/
  limit : s.slots.size ≤ config.clamped.maxConstants
  /-- Only slots that are reserved are filled. -/
  filled : s.pool.size ≤ s.slots.size
  /-- An entry is the compiled form of the constant that its slot is reserved for. -/
  entries : ∀ (n : Nat) (e : Entry), s.pool[n]? = some e →
    ∃ c slot k, s.slots[c]? = some slot ∧ slot.toNat = n ∧ program.get? c = some k ∧ e.Represents k

section Reserved

variable {job : Job} {s : Session} {order : List ConstIndex}

theorem Reserved.mem_slots (h : s.Reserved job order) {c : ConstIndex} :
    c ∈ s.slots ↔ c ∈ order := by
  rw [Std.TreeMap.mem_iff_isSome_getElem?, h.slots]
  split <;> simp [*]

/-- The slot of a constant as a number. -/
theorem Reserved.toNat_getD_slots (h : s.Reserved job order) {c : ConstIndex} (hc : c ∈ order) :
    (s.slots.getD c 0).toNat = order.idxOf c := by
  rw [h.getD_slots hc, toNat_slotOf h.length_le hc]

/-- **Slots number the constants asked for.** -/
theorem Reserved.bijOn_slots (h : s.Reserved job order) :
    Set.BijOn (fun c ↦ (s.slots.getD c 0).toNat) {c | c ∈ s.slots} (Set.Iio s.slots.size) := by
  refine ⟨fun c hc ↦ ?_, fun c hc d hd hcd ↦ ?_, fun n hn ↦ ?_⟩
  · show (s.slots.getD c 0).toNat < s.slots.size
    rw [h.toNat_getD_slots (h.mem_slots.1 hc), h.size]
    exact List.idxOf_lt_length_iff.2 (h.mem_slots.1 hc)
  · have hc := h.mem_slots.1 hc
    have hd := h.mem_slots.1 hd
    dsimp only at hcd
    rw [h.toNat_getD_slots hc, h.toNat_getD_slots hd] at hcd
    exact (List.idxOf_inj hc).1 hcd
  · have hlt : n < order.length := h.size ▸ hn
    have hmem : order[n] ∈ order := List.getElem_mem hlt
    refine ⟨order[n], h.mem_slots.2 hmem, ?_⟩
    dsimp only
    rw [h.toNat_getD_slots hmem, h.nodup.idxOf_getElem]

end Reserved

/-- A session in which constants wait in the order of their slots keeps the discipline. -/
theorem Queued.slotDiscipline {program : Program} {config : Config} {intact : Prop}
    {order batch : List ConstIndex} {s : Session}
    (h : s.Queued (Job.new program config) intact order batch) :
    s.SlotDiscipline program config where
  bijOn := h.reserved.bijOn_slots
  limit := by
    rw [h.reserved.size]
    exact h.reserved.limit
  filled := by
    rw [h.reserved.size]
    exact h.filled
  entries := by
    intro n e he
    obtain ⟨c, k, hc, hk, hrep⟩ := h.entries n e he
    obtain ⟨hlt, rfl⟩ := List.getElem?_eq_some_iff.1 hc
    have hmem : order[n] ∈ order := List.getElem_mem hlt
    refine ⟨order[n], slotOf order order[n], k, ?_, ?_, hk, hrep⟩
    · rw [h.reserved.slots, if_pos hmem]
    · rw [toNat_slotOf h.reserved.length_le hmem, h.reserved.nodup.idxOf_getElem]

/-- **Slots are disciplined under arbitrary calls.** After any calls that end without a fault,
reservations and pool agree; and if the next call would fill a wrong slot, then one of the calls
before it that compile has returned an error. -/
theorem slotDiscipline_of_replay {program : Program} {config : Config} {calls : List Call}
    {log : List (Call × Option CompileError)} {s : Session}
    (h : replay (Job.new program config) calls (start (Job.new program config)) = .ok (log, s)) :
    s.SlotDiscipline program config ∧
      ∀ (call : Call) (index : ConstIndex) (reserved : Option UInt16) (actual : Nat),
        call.act (Job.new program config) s = .fault (.slotMismatch index reserved actual) →
          ∃ earlier e, (earlier, some e) ∈ log ∧ (earlier = .drain ∨ earlier = .run) := by
  obtain ⟨order, hq⟩ := (queued_start (Job.new program config)).replay h
  refine ⟨hq.slotDiscipline, fun call index reserved actual hfault ↦ ?_⟩
  have hact := hq.act call
  rw [hfault] at hact
  -- otherwise the session is intact, and an intact session has no wrong slot
  by_contra hnone
  have hclean : ∀ x ∈ log, x.1.compiles → x.2 = none := by
    rintro ⟨earlier, e⟩ hx hcompiles
    cases e with
    | none => rfl
    | some e =>
      refine absurd ⟨earlier, e, hx, ?_⟩ hnone
      cases earlier with
      | request c => cases hcompiles
      | drain => exact Or.inl rfl
      | run => exact Or.inr rfl
  cases hact ⟨trivial, hclean⟩

/-- With three slots, one of them for the integer, the pair cannot be compiled: the entry asks for
one constant more. The float that it asked for first stays queued, and the next call finds that its
slot is not the next one. -/
theorem slotDiscipline_pair :
    ∃ (log : List (Call × Option CompileError)) (s : Session),
      replay (Job.new Program.pair { maxConstants := 3 }) [.request 1, .drain, .run, .request 3]
          (start (Job.new Program.pair { maxConstants := 3 })) = .ok (log, s) ∧
        s.pool.size = 1 ∧ s.slots.size = 3 ∧
        s.SlotDiscipline Program.pair { maxConstants := 3 } ∧
        s.drain (Job.new Program.pair { maxConstants := 3 }) = .fault (.slotMismatch 2 (some 2) 1) ∧
        ∃ earlier e, (earlier, some e) ∈ log ∧ (earlier = .drain ∨ earlier = .run) := by
  have heval : (replay (Job.new Program.pair { maxConstants := 3 })
      [.request 1, .drain, .run, .request 3]
      (start (Job.new Program.pair { maxConstants := 3 }))).map (fun x ↦ (x.2.pool.size,
        x.2.slots.size, (x.2.drain (Job.new Program.pair { maxConstants := 3 })).settle.map
          fun _ ↦ ())) = .ok (1, 3, .error (.slotMismatch 2 (some 2) 1)) := by decide +kernel
  obtain ⟨⟨log, s⟩, hreplay, hs⟩ := exists_of_map_eq_ok heval
  obtain ⟨hpool, hs⟩ := Prod.mk.inj hs
  obtain ⟨hslots, hs⟩ := Prod.mk.inj hs
  have hdrain := Outcome.eq_fault_of_settle hs
  obtain ⟨hdiscipline, hmismatch⟩ := slotDiscipline_of_replay hreplay
  exact ⟨log, s, hreplay, hpool, hslots, hdiscipline, hdrain, hmismatch .drain 2 (some 2) 1 hdrain⟩

end Session

end RegisterBytecode
