import RegisterBytecode.Proofs.Code.Laying
import RegisterBytecode.Proofs.Session.Order

/-!
# Emitting the instructions of a body

Emitting an instruction may ask for a constant, and then lays its operations. The two are
independent but for the slot that ends up in an operation, and that slot is fixed from the request
on. `Session.Emits` says what a run over instructions has done to a session: the order of constants
has grown by those that the instructions ask for, in order, and the stream has the instructions
laid, **with the slots of the final order** throughout. Runs compose (`Emits.append`), so one
instruction (`Session.emits_of_emitInstr`) gives all of them (`Session.emits_of_emitAll`).

Conversely, instructions that demand what there is and bind labels that are free are no fault
(`Session.emitAll_ne_fault`).
-/

namespace RegisterBytecode

/-- Operations of a supplied instruction do not change when the order grows. -/
theorem Job.Supplied.ops_append {job : Job} {order : List ConstIndex} {i : Instr}
    (h : job.Supplied order i) (home : Reg → Operand) (fresh : List ConstIndex) :
    job.ops (slotOf (order ++ fresh)) home i = job.ops (slotOf order) home i := by
  obtain ⟨d, hd, hmem⟩ := h
  exact Job.ops_congr hd fun c hc ↦ slotOf_append (hmem c hc) fresh

namespace Session

/-- From `s` to `t`, instructions of the body with a given ordinal have been emitted, and the order
of constants has grown by `fresh`. -/
structure Emits (job : Job) (home : Reg → Operand) (ordinal : Nat) (order : List ConstIndex)
    (code : List (Instr × Nat)) (s : Session) (fresh : List ConstIndex) (t : Session) : Prop where
  asked : ((code.map Prod.fst).flatMap job.wants).foldl reserve order = order ++ fresh
  supplied : ∀ x ∈ code, job.Supplied (order ++ fresh) x.1
  reserved : t.Reserved job (order ++ fresh)
  reserves : s.Reserves fresh t
  stream : t.stream = s.stream.lay (job.ops (slotOf (order ++ fresh)) home) ordinal code
  nodup : ((code.map Prod.fst).filterMap Instr.binds?).Nodup
  free : ∀ l ∈ (code.map Prod.fst).filterMap Instr.binds?, s.stream.labels[(ordinal, l)]? = none

section Emits

variable {job : Job} {frame : Frame} {home : Reg → Operand} {ordinal : Nat}
  {order fresh fresh' : List ConstIndex} {code code' : List (Instr × Nat)} {s t t' : Session}

theorem Emits.nil (h : s.Reserved job order) : Emits job home ordinal order [] s [] s where
  asked := (List.append_nil _).symm
  supplied := nofun
  reserved := by rwa [List.append_nil]
  reserves := .refl s
  stream := rfl
  nodup := List.nodup_nil
  free := nofun

/-- **Runs compose.** What the first one laid keeps its slots, and labels that are free for the
second one are not among those that the first one bound. -/
theorem Emits.append (h : Emits job home ordinal order code s fresh t)
    (h' : Emits job home ordinal (order ++ fresh) code' t fresh' t') :
    Emits job home ordinal order (code ++ code') s (fresh ++ fresh') t' := by
  have hfree : ∀ l ∈ (code'.map Prod.fst).filterMap Instr.binds?,
      s.stream.labels[(ordinal, l)]? = none ∧ l ∉ (code.map Prod.fst).filterMap Instr.binds? := by
    intro l hl
    have hnone := h'.free l hl
    rw [h.stream] at hnone
    exact Stream.getElem?_labels_lay_eq_none_iff.1 hnone
  refine ⟨?_, ?_, ?_, h.reserves.trans h'.reserves, ?_, ?_, ?_⟩
  · rw [List.map_append, List.flatMap_append, List.foldl_append, h.asked, h'.asked,
      List.append_assoc]
  · intro x hx
    rw [← List.append_assoc]
    rcases List.mem_append.1 hx with hx | hx
    · exact (h.supplied x hx).append fresh'
    · exact h'.supplied x hx
  · rw [← List.append_assoc]
    exact h'.reserved
  · -- with the longer order the first run would have laid the same
    have hsame : s.stream.lay (job.ops (slotOf (order ++ fresh ++ fresh')) home) ordinal code =
        t.stream := by
      rw [h.stream]
      exact Stream.lay_congr fun x hx ↦ (h.supplied x hx).ops_append home fresh'
    rw [h'.stream, ← hsame, ← List.append_assoc]
    exact (List.foldl_append ..).symm
  · rw [List.map_append, List.filterMap_append, List.nodup_append]
    exact ⟨h.nodup, h'.nodup, fun l hl m hm heq ↦ (hfree m hm).2 (heq ▸ hl)⟩
  · intro l hl
    rw [List.map_append, List.filterMap_append] at hl
    rcases List.mem_append.1 hl with hl | hl
    · exact h.free l hl
    · exact (hfree l hl).1

/-! ### One instruction -/

/-- **A label** asks for nothing and leaves no bytes. -/
theorem emits_of_bind {l : Label} {line : Nat} {u : Unit} (hs : s.Reserved job order)
    (h : (s.setLine line).bind ordinal l = .done u t) :
    Emits job home ordinal order [(.label l, line)] s [] t := by
  unfold Session.bind at h
  split at h
  · cases h
  · next hbound =>
    cases h
    have hfree : s.stream.labels[(ordinal, l)]? = none := by
      rw [← Option.not_isSome_iff_eq_none, ← Std.TreeMap.contains_eq_isSome_getElem?]
      exact hbound
    refine ⟨(List.append_nil _).symm, ?_, ?_, ⟨(List.append_nil _).symm, rfl, rfl⟩, rfl,
      List.nodup_singleton l, ?_⟩
    · intro x hx
      rw [List.mem_singleton.1 hx]
      exact ⟨none, rfl, nofun⟩
    · rw [List.append_nil]
      exact hs.of_slots_eq rfl
    · intro m hm
      rw [show m = l from List.mem_singleton.1 hm]
      exact hfree

/-- Emitting the operations of an instruction whose registers have homes cannot fail. -/
theorem emitLowered_eq_done {i : Instr}
    (hh : ∀ r ∈ i.regs, frame.operand r = .ok (frame.home r)) :
    s.emitLowered job frame ordinal i =
      .done () (s.emitOps ordinal (job.ops (fun c ↦ s.slots.getD c 0) frame.home i)) := by
  rw [emitLowered, Job.mapM_assign_lower hh]

/-- **One instruction**: its constant, if it asks for one, and then its operations. -/
theorem emits_of_emitInstr {i : Instr} {line : Nat} {u : Unit} (hs : s.Reserved job order)
    (hh : ∀ r ∈ i.regs, frame.operand r = .ok (frame.home r))
    (h : s.emitInstr job frame ordinal line i = .done u t) :
    ∃ fresh, Emits job frame.home ordinal order [(i, line)] s fresh t := by
  unfold emitInstr at h
  dsimp only at h
  split at h
  · next l hl =>
    obtain rfl := Body.binds?_eq_some_iff.1 hl
    exact ⟨[], emits_of_bind hs h⟩
  · next hl =>
    obtain ⟨v, s', hsup, h⟩ := Outcome.bind_eq_done h
    rw [emitLowered_eq_done hh] at h
    cases h
    have hs' : (s.setLine line).Reserved job order := hs.of_slots_eq rfl
    obtain ⟨fresh, hfresh, hsupplied, hres, hkeep, hstream⟩ := hs'.supply hsup
    -- the slot that the map gives now is the one that the order gives from now on
    have hops : job.ops (fun c ↦ s'.slots.getD c 0) frame.home i =
        job.ops (slotOf (order ++ fresh)) frame.home i := by
      obtain ⟨d, hd, hmem⟩ := hsupplied
      exact Job.ops_congr hd fun c hc ↦ hres.getD_slots (hmem c hc)
    have hlabels : [i].filterMap Instr.binds? = [] := by
      rw [List.filterMap_cons, hl, List.filterMap_nil]
    refine ⟨fresh, ?_, ?_, hres.of_slots_eq rfl, ⟨hkeep.pending, hkeep.pool, hkeep.ranges⟩,
      ?_, ?_, ?_⟩
    · rw [List.map_singleton, List.flatMap_singleton]
      exact hfresh
    · intro x hx
      rw [List.mem_singleton.1 hx]
      exact hsupplied
    · show s'.stream.emitAll ordinal _ = Stream.layInstr _ ordinal s.stream (i, line)
      rw [Stream.layInstr, hl, hops, hstream]
      rfl
    · rw [List.map_singleton, hlabels]
      exact List.nodup_nil
    · rw [List.map_singleton, hlabels]
      exact List.forall_mem_nil _

/-- **All instructions**, by composing one after another. -/
theorem emits_of_emitAll {u : Unit} (hs : s.Reserved job order)
    (hh : ∀ x ∈ code, ∀ r ∈ x.1.regs, frame.operand r = .ok (frame.home r))
    (h : emitAll job frame ordinal code s = .done u t) :
    ∃ fresh, Emits job frame.home ordinal order code s fresh t := by
  induction code generalizing s order with
  | nil =>
    cases h
    exact ⟨[], .nil hs⟩
  | cons x code ih =>
    rw [emitAll] at h
    obtain ⟨v, s', hx, h⟩ := Outcome.bind_eq_done h
    obtain ⟨fresh, hfirst⟩ := emits_of_emitInstr hs (hh x List.mem_cons_self) hx
    obtain ⟨fresh', hrest⟩ :=
      ih hfirst.reserved (fun y hy ↦ hh y (List.mem_cons_of_mem _ hy)) h
    exact ⟨fresh ++ fresh', hfirst.append hrest⟩

/-! ### Faults -/

/-- An instruction is no fault if what it demands is there and the label it binds is free. -/
theorem emitInstr_ne_fault {i : Instr} {line : Nat} {d : Option ConstIndex}
    (hd : job.demand i = .ok d) (hh : ∀ r ∈ i.regs, frame.operand r = .ok (frame.home r))
    (hl : ∀ l, i.binds? = some l → s.stream.labels[(ordinal, l)]? = none) (f : Fault) :
    s.emitInstr job frame ordinal line i ≠ .fault f := by
  unfold emitInstr
  dsimp only
  split
  · next l hbinds =>
    have hbound : (s.setLine line).stream.isBound ordinal l = false := by
      rw [Stream.isBound, Std.TreeMap.contains_eq_isSome_getElem?]
      exact Option.isSome_eq_false_iff.2 (Option.isNone_iff_eq_none.2 (hl l hbinds))
    rw [Session.bind, hbound]
    nofun
  · refine Outcome.bind_ne_fault (supply_ne_fault hd) (fun v t _ ↦ ?_) f
    rw [emitLowered_eq_done hh]
    nofun

/-- **Instructions are no fault** if what they demand is there, no label is bound twice and all
labels are free. -/
theorem emitAll_ne_fault (hs : s.Reserved job order)
    (hd : ∀ x ∈ code, ∃ d, job.demand x.1 = .ok d)
    (hh : ∀ x ∈ code, ∀ r ∈ x.1.regs, frame.operand r = .ok (frame.home r))
    (hnodup : ((code.map Prod.fst).filterMap Instr.binds?).Nodup)
    (hfree : ∀ l ∈ (code.map Prod.fst).filterMap Instr.binds?,
      s.stream.labels[(ordinal, l)]? = none) (f : Fault) :
    emitAll job frame ordinal code s ≠ .fault f := by
  induction code generalizing s order f with
  | nil => nofun
  | cons x code ih =>
    obtain ⟨d, hdx⟩ := hd x List.mem_cons_self
    have hlx : ∀ l, x.1.binds? = some l → s.stream.labels[(ordinal, l)]? = none := by
      intro l hl
      exact hfree l (List.mem_filterMap.2 ⟨x.1, List.mem_cons_self, hl⟩)
    rw [emitAll]
    refine Outcome.bind_ne_fault (emitInstr_ne_fault hdx (hh x List.mem_cons_self) hlx)
      (fun v s' hx ↦ ?_) f
    obtain ⟨fresh, hfirst⟩ := emits_of_emitInstr hs (hh x List.mem_cons_self) hx
    have hsplit : ((x :: code).map Prod.fst).filterMap Instr.binds? =
        [x.1].filterMap Instr.binds? ++ (code.map Prod.fst).filterMap Instr.binds? := by
      rw [← List.filterMap_append]
      rfl
    rw [hsplit, List.nodup_append] at hnodup
    -- the labels of the rest are still free: the first instruction binds none of them
    refine ih hfirst.reserved (fun y hy ↦ hd y (List.mem_cons_of_mem _ hy))
      (fun y hy ↦ hh y (List.mem_cons_of_mem _ hy)) hnodup.2.1 fun l hl ↦ ?_
    rw [hfirst.stream, Stream.getElem?_labels_lay_eq_none_iff]
    refine ⟨hfree l (hsplit ▸ List.mem_append_right _ hl), fun hl' ↦ ?_⟩
    exact hnodup.2.2 l hl' l hl rfl

end Emits

end Session

end RegisterBytecode
