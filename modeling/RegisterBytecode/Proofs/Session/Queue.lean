import Mathlib.Logic.Relation
import RegisterBytecode.Proofs.Session.Constants
import RegisterBytecode.Session.Run

/-!
# Slots are filled in the order in which they are reserved

Constants are compiled in batches, and compiling one may ask for more. `Session.Built` describes
a session in the middle of this: of the constants asked for, `done` are compiled, `batch` are being
compiled and the rest is pending, **in this order**. Therefore a constant is always compiled
into the slot that was reserved for it, and the pool is the one that the order determines.

One constant keeps the description (`Session.Built.step`), and with it a batch
(`Session.Built.compileBatch`), all batches (`Session.Built.drain`) and a whole run
(`Session.built_of_run`). Faults are treated along the same steps: if no constant that can be
reached from the entry is a fault, no run up to the jumps is one (`Session.run_ne_fault`).
-/

namespace RegisterBytecode

namespace Job

/-- A constant asks for another one. -/
def Asks (job : Job) (c d : ConstIndex) : Prop := d ∈ job.wantsOf c

/-- The segments of constants, in order. -/
def segments (job : Job) (cs : List ConstIndex) : List Segment := cs.filterMap job.segment?

theorem segments_concat {job : Job} {cs : List ConstIndex} {c : ConstIndex} :
    job.segments (cs ++ [c]) = job.segments cs ++ (job.segment? c).toList := by
  rw [segments, List.filterMap_append, segments]
  cases hc : job.segment? c <;> simp [hc]

end Job

namespace Session

/-- A session in which the constants `done` are compiled, `batch` are next and further ones are
pending. -/
structure Built (job : Job) (order done batch : List ConstIndex) (s : Session) : Prop where
  reserved : s.Reserved job order
  queue : order = done ++ (batch ++ s.pending.toList)
  laid : job.Laid order (job.segments done) s.stream s.ranges
  filled : s.pool.size = done.length
  pool : ∀ (k : Nat) (c : ConstIndex), done[k]? = some c →
    s.pool[k]? = job.entryOf? order (job.segments (done.take k)) c
  asked : order = (done.flatMap job.wantsOf).foldl reserve [job.program.entry]
  reached : ∀ c ∈ order, Relation.ReflTransGen job.Asks job.program.entry c

section Built

variable {job : Job} {order done batch : List ConstIndex} {s s' t : Session} {c : ConstIndex}

/-- The segments of compiled constants are sound. -/
theorem Built.sound_of_mem (h : s.Built job order done batch) (hc : c ∈ done) {g : Segment}
    (hg : job.segment? c = some g) : job.Sound order g :=
  h.laid.sound g (List.mem_filterMap.2 ⟨c, hc, hg⟩)

/-- A body that has been compiled has its segment. -/
theorem Built.exists_sound (h : s.Built job order done batch) (hc : c ∈ done) {body : Body}
    (hbody : job.program.get? c = some (.code body)) :
    ∃ frame, Frame.allocate body = .ok frame ∧ job.Sound order ⟨body, frame⟩ := by
  obtain ⟨k, hk⟩ := List.mem_iff_getElem?.1 hc
  have hpool := h.pool k c hk
  have hlt : k < s.pool.size := h.filled ▸ (List.getElem?_eq_some_iff.1 hk).1
  rw [Array.getElem?_eq_getElem hlt, Job.entryOf?, hbody] at hpool
  obtain ⟨g, hg, -⟩ := Option.map_eq_some_iff.1 hpool.symm
  obtain ⟨hbody', hframe⟩ := Job.segment?_eq_some_iff.1 hg
  obtain rfl := Constant.code.inj (Option.some.inj (hbody.symm.trans hbody'))
  exact ⟨g.frame, hframe, h.sound_of_mem hc hg⟩

theorem fill_eq_done {reserved : Option UInt16} {entry : Entry} {u : Unit}
    (h : s.fill c reserved entry = .done u t) : t = { s with pool := s.pool.push entry } := by
  unfold fill at h
  split at h
  · cases h
    rfl
  · cases h

/-- **One constant** moves from the batch to those that are compiled. -/
theorem Built.step {entry : Entry} {reserved : Option UInt16} {u : Unit}
    (h : s.Built job order done (c :: batch)) (hc : s.compileConstant job c = .done entry s')
    (hf : s'.fill c reserved entry = .done u t) :
    ∃ fresh, t.Built job (order ++ fresh) (done ++ [c]) batch := by
  obtain ⟨fresh, hadds, hentry⟩ := adds_of_compileConstant h.reserved h.laid hc
  obtain rfl := fill_eq_done hf
  refine ⟨fresh, hadds.reserved.of_slots_eq rfl, ?_, ?_, ?_, ?_, ?_, ?_⟩
  · show order ++ fresh = done ++ [c] ++ (batch ++ s'.pending.toList)
    rw [hadds.pending]
    conv_lhs => rw [h.queue]
    simp only [List.append_assoc, List.cons_append, List.nil_append]
  · rw [Job.segments_concat]
    exact hadds.laid
  · show (s'.pool.push entry).size = _
    rw [Array.size_push, hadds.pool, h.filled, List.length_append, List.length_singleton]
  · intro k d hk
    show (s'.pool.push entry)[k]? = _
    rw [Array.getElem?_push, hadds.pool, h.filled]
    rcases getElem?_concat_eq_some.1 hk with hk | ⟨rfl, rfl⟩
    · -- an earlier entry was made under a shorter order, and would be the same under this one
      have hlt := (List.getElem?_eq_some_iff.1 hk).1
      rw [if_neg (Nat.ne_of_lt hlt), List.take_append_of_le_length (Nat.le_of_lt hlt),
        Job.entryOf?_append_order, h.pool k d hk]
      · intro g hg
        obtain ⟨e, he, hg⟩ := List.mem_filterMap.1 hg
        exact h.sound_of_mem (List.mem_of_mem_take he) hg
      · exact fun g hg ↦ h.sound_of_mem (List.mem_of_getElem? hk) hg
    · rw [if_pos rfl, List.take_left, hentry]
  · rw [List.flatMap_append, List.flatMap_singleton, List.foldl_append, ← h.asked, hadds.asked]
  · intro d hd
    rw [← hadds.asked] at hd
    rcases mem_foldl_reserve.1 hd with hd | hd
    · exact h.reached d hd
    · exact (h.reached c (by rw [h.queue]; simp)).tail hd

/-- **A batch** is compiled one constant after another. -/
theorem Built.compileBatch {u : Unit} (h : s.Built job order done batch)
    (hb : compileBatch job batch s = .done u t) :
    ∃ order', t.Built job order' (done ++ batch) [] := by
  induction batch generalizing s order done with
  | nil =>
    cases hb
    rw [List.append_nil]
    exact ⟨order, h⟩
  | cons c batch ih =>
    rw [Session.compileBatch] at hb
    obtain ⟨entry, s', hc, hb⟩ := Outcome.bind_eq_done hb
    obtain ⟨v, s'', hf, hb⟩ := Outcome.bind_eq_done hb
    obtain ⟨fresh, hstep⟩ := h.step hc hf
    rw [← List.singleton_append, ← List.append_assoc]
    exact ih hstep hb

/-- The pending constants become the next batch. -/
theorem Built.take (h : s.Built job order done []) :
    Built job order done s.pending.toList { s with pending := #[] } where
  reserved := h.reserved.of_slots_eq rfl
  queue := by
    rw [List.append_nil]
    exact h.queue
  laid := h.laid
  filled := h.filled
  pool := h.pool
  asked := h.asked
  reached := h.reached

/-- **All batches**: when the queue stays empty, every constant asked for is compiled. -/
theorem Built.drain {u : Unit} (h : s.Built job order done []) (hd : s.drain job = .done u t) :
    ∃ order', t.Built job order' order' [] := by
  fun_induction Session.drain job s generalizing order done with
  | case1 s hempty =>
    cases hd
    -- with nothing queued, all that was asked for has been compiled
    have hall : order = done := by
      rw [h.queue, Array.isEmpty_iff.1 hempty]
      simp
    exact ⟨order, hall ▸ h⟩
  | case2 s hempty v s' hbatch ih =>
    obtain ⟨order', h'⟩ := h.take.compileBatch hbatch
    exact ih h' hd
  | case3 => cases hd
  | case4 => cases hd

/-! ### From the start -/

theorem reserved_start (job : Job) : (start job).Reserved job [] where
  nodup := List.nodup_nil
  slots := fun _ ↦ Std.TreeMap.getElem?_emptyc
  size := Std.TreeMap.size_emptyc
  limit := Nat.zero_le _

/-- Asking for the entry starts the queue. -/
theorem built_of_request {v : UInt16}
    (h : (start job).request job job.program.entry = .done v s) :
    s.Built job [job.program.entry] [] [] := by
  obtain ⟨fresh, hfresh, hres, hkeep, hstream⟩ := (reserved_start job).request h
  obtain rfl : [job.program.entry] = fresh := hfresh
  refine ⟨hres, ?_, ?_, ?_, nofun, rfl, ?_⟩
  · rw [hkeep.pending]
    rfl
  · rw [hstream, hkeep.ranges]
    exact .nil
  · rw [hkeep.pool]
    rfl
  · intro c hc
    rw [List.mem_singleton.1 hc]

/-- **A run** compiles every constant that it asked for and then fills in the jumps. -/
theorem built_of_run {u : Unit} (h : (start job).run job = .done u t) :
    ∃ (order : List ConstIndex) (s : Session), s.Built job order order [] ∧
      s.resolve = .done u t := by
  unfold run at h
  split at h
  · obtain ⟨v, s₁, hrequest, h⟩ := Outcome.bind_eq_done h
    obtain ⟨w, s₂, hdrain, h⟩ := Outcome.bind_eq_done h
    obtain ⟨order, hbuilt⟩ := (built_of_request hrequest).drain hdrain
    exact ⟨order, s₂, hbuilt, h⟩
  · cases h

/-! ### Faults -/

/-- **The slot reserved for the next constant** is the next one of the pool. -/
theorem Built.slot_eq (h : s.Built job order done (c :: batch)) :
    s.slots[c]? = some s.pool.size.toUInt16 := by
  have hmem : c ∈ order := by
    rw [h.queue]
    simp
  have hnot : c ∉ done := by
    have hnodup := h.reserved.nodup
    rw [h.queue, List.nodup_append] at hnodup
    exact fun hc ↦ hnodup.2.2 c hc c List.mem_cons_self rfl
  have hidx : order.idxOf c = done.length := by
    rw [h.queue, List.idxOf_append_of_notMem hnot, List.cons_append, List.idxOf_cons_self,
      Nat.add_zero]
  rw [h.reserved.slots, if_pos hmem, slotOf, hidx, h.filled]

/-- A batch is no fault if every constant that can be asked for can be compiled. -/
theorem Built.compileBatch_ne_fault (h : s.Built job order done batch)
    (hgood : ∀ c, Relation.ReflTransGen job.Asks job.program.entry c → job.Compilable c)
    (f : Fault) : Session.compileBatch job batch s ≠ .fault f := by
  induction batch generalizing s order done f with
  | nil => nofun
  | cons c batch ih =>
    have hc := hgood c (h.reached c (by rw [h.queue]; simp))
    rw [Session.compileBatch]
    refine Outcome.bind_ne_fault (compileConstant_ne_fault h.reserved h.laid hc) ?_ f
    intro entry s' hcompile
    obtain ⟨fresh, hadds, -⟩ := adds_of_compileConstant h.reserved h.laid hcompile
    refine Outcome.bind_ne_fault ?_ fun v t hfill ↦ ?_
    · -- compiling the constant has filled no slot, so the next one is still its own
      intro g
      unfold fill
      rw [if_pos (by rw [hadds.pool, h.slot_eq])]
      nofun
    · obtain ⟨fresh, hstep⟩ := h.step hcompile hfill
      exact ih hstep

/-- **Draining is no fault** if every constant that can be asked for can be compiled. -/
theorem Built.drain_ne_fault (h : s.Built job order done [])
    (hgood : ∀ c, Relation.ReflTransGen job.Asks job.program.entry c → job.Compilable c)
    (f : Fault) : s.drain job ≠ .fault f := by
  fun_induction Session.drain job s generalizing order done with
  | case1 => nofun
  | case2 s hempty v s' hbatch ih =>
    obtain ⟨order', h'⟩ := h.take.compileBatch hbatch
    exact ih h'
  | case3 => nofun
  | case4 s hempty g hbatch => exact absurd hbatch (h.take.compileBatch_ne_fault hgood g)

/-- **A run is no fault** if, provided that the entry is a body, every constant that can be reached
from it can be compiled and all jumps can be filled in. -/
theorem run_ne_fault
    (hgood : ∀ main, job.program.get? job.program.entry = some (.code main) →
      ∀ c, Relation.ReflTransGen job.Asks job.program.entry c → job.Compilable c)
    (hjumps : ∀ main, job.program.get? job.program.entry = some (.code main) →
      ∀ (order : List ConstIndex) (s : Session), s.Built job order order [] →
        ∀ f, s.resolve ≠ .fault f) (f : Fault) :
    (start job).run job ≠ .fault f := by
  unfold run
  split
  · next main hentry =>
    refine Outcome.bind_ne_fault (request_ne_fault _) (fun v s₁ hrequest ↦ ?_) f
    have hbuilt := built_of_request hrequest
    refine Outcome.bind_ne_fault (hbuilt.drain_ne_fault (hgood main hentry)) fun w s₂ hdrain ↦ ?_
    obtain ⟨order, hall⟩ := hbuilt.drain hdrain
    exact hjumps main hentry order s₂ hall
  · nofun

end Built

end Session

end RegisterBytecode
