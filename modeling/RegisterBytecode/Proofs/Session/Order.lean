import Mathlib.Data.List.Nodup
import RegisterBytecode.Session.Basic

/-!
# Constants in order of first request

A session keeps its reservations as a map from constants to slots. The same information is a list
without repetitions: the constants in the order in which they were first asked for, where the slot
of a constant is its place (`slotOf`). `Session.Reserved` ties the two together, and
`Session.Reserved.request` says what a request does to the list: nothing if the constant is there,
and otherwise it appends it (`reserve`).

The list only grows at its end, so a slot that has been given out stays what it is
(`slotOf_append`). There are at most `poolLimit` slots (`Session.Reserved.length_le`), so a slot
as a word still is that place (`toNat_slotOf`), and no two constants share one.
-/

namespace RegisterBytecode

/-! ### The list -/

/-- The constants in order of first request, after one more request. -/
def reserve (order : List ConstIndex) (c : ConstIndex) : List ConstIndex :=
  if c ∈ order then order else order ++ [c]

/-- The slot of a constant: its place in the order of first request. -/
def slotOf (order : List ConstIndex) (c : ConstIndex) : UInt16 := (order.idxOf c).toUInt16

/-- A slot that has been given out stays what it is. -/
theorem slotOf_append {order : List ConstIndex} {c : ConstIndex} (h : c ∈ order)
    (fresh : List ConstIndex) : slotOf (order ++ fresh) c = slotOf order c := by
  rw [slotOf, List.idxOf_append_of_mem h, slotOf]

/-- A slot is a place in the order, without anything cut off. -/
theorem toNat_slotOf {order : List ConstIndex} (hlen : order.length ≤ poolLimit) {c : ConstIndex}
    (hc : c ∈ order) : (slotOf order c).toNat = order.idxOf c :=
  UInt16.toNat_ofNat_of_lt' (Nat.lt_of_lt_of_le (List.idxOf_lt_length_iff.2 hc) hlen)

theorem mem_reserve_self (order : List ConstIndex) (c : ConstIndex) : c ∈ reserve order c := by
  unfold reserve
  split
  · assumption
  · exact List.mem_append_right _ (List.mem_singleton_self c)

/-- What was requested is reserved, and nothing else is added. -/
theorem mem_foldl_reserve {cs order : List ConstIndex} {c : ConstIndex} :
    c ∈ cs.foldl reserve order ↔ c ∈ order ∨ c ∈ cs := by
  induction cs generalizing order with
  | nil => simp
  | cons d cs ih =>
    have hstep : c ∈ reserve order d ↔ c ∈ order ∨ c = d := by
      unfold reserve
      split
      · next hd =>
        refine ⟨Or.inl, ?_⟩
        rintro (hc | rfl)
        · exact hc
        · exact hd
      · simp
    rw [List.foldl_cons, ih, hstep, List.mem_cons, or_assoc]

/-- Requests only append. -/
theorem prefix_foldl_reserve (cs order : List ConstIndex) : order <+: cs.foldl reserve order := by
  induction cs generalizing order with
  | nil => exact List.prefix_rfl
  | cons c cs ih =>
    refine List.IsPrefix.trans ?_ (ih (reserve order c))
    unfold reserve
    split
    · exact List.prefix_rfl
    · exact List.prefix_append order [c]

/-! ### What an instruction asks for -/

namespace Job

/-- The constants that an instruction asks for: at most one. -/
def wants (job : Job) (i : Instr) : List ConstIndex :=
  match job.demand i with
  | .ok d => d.toList
  | .error _ => []

/-- What an instruction asks for can be given and is among the constants `order`. -/
def Supplied (job : Job) (order : List ConstIndex) (i : Instr) : Prop :=
  ∃ d, job.demand i = .ok d ∧ ∀ c ∈ d, c ∈ order

/-- What is supplied stays so when more constants are asked for. -/
theorem Supplied.append {job : Job} {order : List ConstIndex} {i : Instr}
    (h : job.Supplied order i) (fresh : List ConstIndex) : job.Supplied (order ++ fresh) i := by
  obtain ⟨d, hd, hmem⟩ := h
  exact ⟨d, hd, fun c hc ↦ List.mem_append_left fresh (hmem c hc)⟩

theorem wants_of_demand {job : Job} {i : Instr} {d : Option ConstIndex}
    (h : job.demand i = .ok d) : job.wants i = d.toList := by
  rw [wants, h]

end Job

namespace Session

/-! ### The map and the list -/

/-- The reservations of a session are those of constants asked for in a given order. -/
structure Reserved (job : Job) (s : Session) (order : List ConstIndex) : Prop where
  nodup : order.Nodup
  slots : ∀ c, s.slots[c]? = if c ∈ order then some (slotOf order c) else none
  size : s.slots.size = order.length
  limit : order.length ≤ job.config.maxConstants

/-- Between two states nothing has happened to constants but that some were asked for first. -/
structure Reserves (s : Session) (fresh : List ConstIndex) (t : Session) : Prop where
  pending : t.pending.toList = s.pending.toList ++ fresh
  pool : t.pool = s.pool
  ranges : t.ranges = s.ranges

theorem Reserves.refl (s : Session) : s.Reserves [] s := ⟨(List.append_nil _).symm, rfl, rfl⟩

theorem Reserves.trans {s t u : Session} {fresh fresh' : List ConstIndex} (h : s.Reserves fresh t)
    (h' : t.Reserves fresh' u) : s.Reserves (fresh ++ fresh') u where
  pending := by rw [h'.pending, h.pending, List.append_assoc]
  pool := h'.pool.trans h.pool
  ranges := h'.ranges.trans h.ranges

section Reserved

variable {job : Job} {s t : Session} {order : List ConstIndex}

/-- Reservations depend on nothing but the map. -/
theorem Reserved.of_slots_eq (h : s.Reserved job order) (ht : t.slots = s.slots) :
    t.Reserved job order where
  nodup := h.nodup
  slots := ht ▸ h.slots
  size := ht ▸ h.size
  limit := h.limit

theorem Reserved.getD_slots (h : s.Reserved job order) {c : ConstIndex} (hc : c ∈ order) :
    s.slots.getD c 0 = slotOf order c := by
  rw [Std.TreeMap.getD_eq_getD_getElem?, h.slots, if_pos hc, Option.getD_some]

/-- The clamped limit keeps every place in the order within sixteen bits. -/
theorem Reserved.length_le (h : s.Reserved job order) : order.length ≤ poolLimit := by
  refine Nat.le_trans h.limit ?_
  rw [← job.clamped, Config.clamped_maxConstants]
  exact Nat.min_le_right _ _

/-- **The slots determine the order**: each constant stands at the place that its slot names. -/
theorem Reserved.unique {order' : List ConstIndex} (h : s.Reserved job order)
    (h' : s.Reserved job order') : order = order' := by
  refine List.ext_getElem (h.size.symm.trans h'.size) fun n hn hn' ↦ ?_
  have hc : order[n] ∈ order := List.getElem_mem hn
  have hslot := h'.slots order[n]
  rw [h.slots, if_pos hc] at hslot
  have hc' : order[n] ∈ order' := by
    by_contra hnot
    rw [if_neg hnot] at hslot
    cases hslot
  rw [if_pos hc'] at hslot
  have hidx : order'.idxOf order[n] = n := by
    rw [← toNat_slotOf h'.length_le hc', ← Option.some.inj hslot, toNat_slotOf h.length_le hc,
      h.nodup.idxOf_getElem]
  have hget := List.getElem?_idxOf hc'
  rw [hidx, List.getElem?_eq_getElem hn'] at hget
  exact (Option.some.inj hget).symm

/-- The next slot goes to a constant that has none. -/
theorem Reserved.concat (h : s.Reserved job order) {c : ConstIndex} (hc : c ∉ order)
    (hlt : order.length < job.config.maxConstants)
    (ht : t.slots = s.slots.insert c s.slots.size.toUInt16) : t.Reserved job (order ++ [c]) where
  nodup := by
    rw [List.nodup_append_comm, List.singleton_append, List.nodup_cons]
    exact ⟨hc, h.nodup⟩
  slots := by
    intro d
    rw [ht, Std.TreeMap.getElem?_insert, h.slots, h.size]
    simp only [Nat.compare_eq_eq, List.mem_append, List.mem_singleton]
    -- three kinds of constants: the new one, those that have a slot, and all others
    by_cases hcd : c = d
    · subst hcd
      rw [if_pos rfl, if_pos (Or.inr rfl), slotOf, List.idxOf_append_of_notMem hc]
      simp
    · by_cases hd : d ∈ order
      · rw [if_neg hcd, if_pos hd, if_pos (Or.inl hd), slotOf_append hd]
      · rw [if_neg hcd, if_neg hd, if_neg (by simp [hd, Ne.symm hcd])]
  size := by
    have hcontains : s.slots.contains c = false := by
      rw [Std.TreeMap.contains_eq_isSome_getElem?, h.slots, if_neg hc]
      rfl
    rw [ht, Std.TreeMap.size_insert, hcontains, h.size]
    simp
  limit := by
    rw [List.length_append, List.length_singleton]
    exact hlt

/-- **A first request appends a constant** to the order; a later one changes nothing. -/
theorem Reserved.request (h : s.Reserved job order) {c : ConstIndex} {v : UInt16}
    (hr : s.request job c = .done v t) :
    ∃ fresh, reserve order c = order ++ fresh ∧ t.Reserved job (order ++ fresh) ∧
      s.Reserves fresh t ∧ t.stream = s.stream := by
  unfold Session.request at hr
  rw [h.slots] at hr
  by_cases hc : c ∈ order
  · rw [if_pos hc] at hr
    cases hr
    refine ⟨[], ?_, ?_, .refl s, rfl⟩
    · rw [reserve, if_pos hc, List.append_nil]
    · rwa [List.append_nil]
  · rw [if_neg hc] at hr
    dsimp only at hr
    split at hr
    · next hlt =>
      cases hr
      refine ⟨[c], if_neg hc, ?_, ⟨Array.toList_push, rfl, rfl⟩, rfl⟩
      exact h.concat hc (h.size ▸ hlt) rfl
    · cases hr

theorem request_ne_fault (c : ConstIndex) (f : Fault) : s.request job c ≠ .fault f := by
  unfold Session.request
  split
  · nofun
  · dsimp only
    split <;> nofun

/-- **Supplying an instruction** reserves what it asks for. -/
theorem Reserved.supply (h : s.Reserved job order) {i : Instr} {u : Unit}
    (hs : s.supply job i = .done u t) :
    ∃ fresh, (job.wants i).foldl reserve order = order ++ fresh ∧ job.Supplied (order ++ fresh) i ∧
      t.Reserved job (order ++ fresh) ∧ s.Reserves fresh t ∧ t.stream = s.stream := by
  unfold Session.supply at hs
  split at hs
  · cases hs
  · next hd =>
    cases hs
    rw [Job.wants_of_demand hd]
    refine ⟨[], (List.append_nil _).symm, ⟨none, hd, nofun⟩, ?_, .refl s, rfl⟩
    rwa [List.append_nil]
  · next c hd =>
    obtain ⟨v, s', hr, hdone⟩ := Outcome.bind_eq_done hs
    cases hdone
    obtain ⟨fresh, hfresh, hres, hkeep, hstream⟩ := h.request hr
    rw [Job.wants_of_demand hd]
    refine ⟨fresh, hfresh, ⟨some c, hd, ?_⟩, hres, hkeep, hstream⟩
    rintro d ⟨⟩
    rw [← hfresh]
    exact mem_reserve_self order c

/-- Only what is wrong with an instruction itself makes supplying it a fault. -/
theorem supply_ne_fault {i : Instr} {d : Option ConstIndex} (hd : job.demand i = .ok d)
    (f : Fault) : s.supply job i ≠ .fault f := by
  unfold Session.supply
  rw [hd]
  cases d with
  | none => nofun
  | some c =>
    refine Outcome.bind_ne_fault (request_ne_fault c) (fun _ _ _ g ↦ ?_) f
    nofun

end Reserved

end Session

end RegisterBytecode
